import ShadowOS.Mm.Runs

/-!
# What should happen when page frames run out
-/

namespace ShadowOS.Mm

/-! ## Page tables -/

/-- An entry that `vmm_map` finds missing, and the state in which it requests a table for it. -/
structure Fill where
  entry : U64
  before : State

/-- The page that the request returns. -/
def Fill.page (f : Fill) : U64 := (pmmRequestPage f.before).1

def fillOf (k : State) (table idx : U64) : List Fill :=
  if k.load (entryPtr table idx) &&& 1 = 0 then [⟨entryPtr table idx, k⟩] else []

/-- The entries that `vmm_map` fills on its way to the last level. -/
def fills (k : State) (pagemap virt : U64) : List Fill :=
  let (pml3Table, k₃) := nextTable k pagemap (pmlIdx virt 39)
  let (pml2Table, k₂) := nextTable k₃ pml3Table (pmlIdx virt 30)
  fillOf k pagemap (pmlIdx virt 39) ++ fillOf k₃ pml3Table (pmlIdx virt 30) ++ fillOf k₂ pml2Table (pmlIdx virt 21)

/-- A table is still needed when no frame is left. -/
def RunsOut (k : State) (pagemap virt : U64) : Prop := ∃ f ∈ fills k pagemap virt, f.before.stack.idx = 0

/-- An entry that the call filled and left present in `k'` refers to a frame that it was handed. -/
def FilledFromPmm (k : State) (pagemap virt : U64) (k' : State) : Prop :=
  ∀ f ∈ fills k pagemap virt, k'.load f.entry &&& 1 ≠ 0 →
    ∃ g ∈ fills k pagemap virt, g.page ≠ 0 ∧ k'.load f.entry &&& addrMask = g.page

/-- The page is mapped present, at a frame that the call is not handed for a table. -/
def MapsOther (k : State) (pagemap virt phys flags : U64) : Prop :=
  (phys ||| flags) &&& vmmPresent ≠ 0 ∧ ∀ g ∈ fills k pagemap virt, (phys ||| flags) &&& addrMask ≠ g.page

/-! ## Calls that start with a request -/

inductive PageCall where
  | newPagemap
  | createContext (pagemap : U64)
  | alloc (ctx size flags : U64)
deriving DecidableEq, Repr

namespace PageCall

def exec (k : State) : PageCall → Option (U64 × State)
  | .newPagemap => some (vmmNewPagemap k)
  | .createContext pagemap => some (vmaCreateContext k pagemap)
  | .alloc ctx size flags => vmaAlloc k ctx size flags

/-- The call returns null and leaves memory as it is. -/
def Reported (k : State) (call : PageCall) : Prop := ∃ k', call.exec k = some (0, k') ∧ k'.mem = k.mem

/-- The context is none, or has no root or no pagemap, so that no page is asked for. -/
def AsksNothing (k : State) : PageCall → Prop
  | .alloc ctx _ _ => ctx = 0 ∨ VmaContext.root k ctx = 0 ∨ VmaContext.pagemap k ctx = 0
  | _ => False

/-- The regions of the context are a list, and no record is at the physical address 0. -/
def Listed (k : State) : PageCall → Prop
  | .alloc ctx _ _ => ∃ rs, RegionsOf k ctx rs ∧ k.higherHalf 0 ∉ rs
  | _ => True

end PageCall

/-! ## Allocation of a region -/

/-- The part of `vma_alloc` before the loop over the pages: the page of the record, the record, and the state in which it is
linked. -/
def vmaAttempt (k : State) (ctx size flags : U64) : Option (U64 × U64 × State) :=
  if ctx = 0 ∨ VmaContext.root k ctx = 0 ∨ VmaContext.pagemap k ctx = 0 then none
  else do
    let root := VmaContext.root k ctx
    let region ← vmaFindGap k vmaMaxRegions root
    let (page, k) := pmmRequestPage k
    let newRegion := k.higherHalf page
    return (page, newRegion,
      if region = 0 then vmaInsertLast k newRegion root size flags else vmaInsert k newRegion region size flags)

/-- The frames that the loop of `vma_alloc` takes for the pages. -/
def vmaMapFrames (ctx region : U64) : Nat → U64 → State → List U64
  | 0, _, _ => []
  | n + 1, i, k =>
      let (page, k) := pmmRequestPage k
      if page = 0 then []
      else
        page :: vmaMapFrames ctx region n (i + 1) (vmmMap k (VmaContext.pagemap k ctx)
          (VmaRegion.start k region + i * pageSize) page (VmaRegion.flags k region))

/-- `vma_alloc` gives up in the state `k'`, as a request for one of the pages has failed. -/
def FailsOnPage (k : State) (ctx size flags : U64) (k' : State) : Prop :=
  ∃ page newRegion k₁, vmaAttempt k ctx size flags = some (page, newRegion, k₁) ∧ newRegion ≠ 0 ∧
    vmaMapPages ctx newRegion size.toNat 0 k₁ = (false, k')

/-- Nothing is left of the attempt in the state `k'`: the regions are the same, the frames of the record and of the pages are
free, and no page of the region is mapped. -/
def RolledBack (k : State) (ctx size flags : U64) (k' : State) : Prop :=
  ∀ page newRegion k₁, vmaAttempt k ctx size flags = some (page, newRegion, k₁) →
    (∀ rs, RegionsOf k ctx rs → RegionsOf k' ctx rs) ∧
    (∀ p ∈ page :: vmaMapFrames ctx newRegion size.toNat 0 k₁, p ≠ 0 → p ∈ k'.freePages) ∧
    ∀ i < size.toNat, virtToPhys k' (VmaContext.pagemap k ctx)
      (VmaRegion.start k₁ newRegion + BitVec.ofNat 64 i * pageSize) = 0

end ShadowOS.Mm
