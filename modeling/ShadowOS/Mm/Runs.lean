import ShadowOS.Base.Chain
import ShadowOS.Base.Run
import ShadowOS.Mm.Vma
import ShadowOS.Mm.Lemmas.Vmm

/-!
# What memory management is for

Sequences of calls, and what their results should be: a set of pages that is neither lost nor handed out twice,
and a flat map from pages to frames.
-/

namespace ShadowOS.Mm

/-! ## Page frames -/

def MemmapEntry.Contains (e : MemmapEntry) (p : U64) : Prop :=
  e.base.toNat ≤ p.toNat ∧ p.toNat < e.base.toNat + e.length.toNat

/-- The pages of the usable entries. -/
def usablePages (memmap : List MemmapEntry) : List U64 :=
  (memmap.filter fun e => e.type = .usable).flatMap MemmapEntry.pages

/-- The entry that gives its first pages to the stack array. -/
def arrayEntry (memmap : List MemmapEntry) : Option MemmapEntry :=
  memmap.find? fun e => arraySize memmap ≤ e.length ∧ e.type = .usable

/-- The pages that hold the stack array. -/
def arrayPages (memmap : List MemmapEntry) : List U64 :=
  match arrayEntry memmap with
  | some e => MemmapEntry.pages { e with length := arraySize memmap }
  | none => []

/-- What the bootloader promises of the memory map and of the direct map. -/
structure BootMap (memmap : List MemmapEntry) (hhdmOffset : U64) : Prop where
  base : ∀ e ∈ memmap, e.type = .usable → e.base.toNat % 4096 = 0
  length : ∀ e ∈ memmap, e.type = .usable → e.length.toNat % 4096 = 0
  noWrap : ∀ e ∈ memmap, e.type = .usable → e.base.toNat + e.length.toNat < 2 ^ 64
  disjoint : memmap.Pairwise fun e e' => e.type = .usable → e'.type = .usable → ∀ p, ¬ (e.Contains p ∧ e'.Contains p)
  noZero : ∀ e ∈ memmap, e.type = .usable → ¬ e.Contains 0
  room : ∃ e ∈ memmap, e.type = .usable ∧ arraySize memmap ≤ e.length
  direct : ∀ e ∈ memmap, e.type = .usable → ∀ p, e.Contains p → p + hhdmOffset ≠ 0

/-- The usable entries of a memory map are aligned, and no page is in two of them. -/
structure UsableMap (memmap : List MemmapEntry) : Prop where
  base : ∀ e ∈ memmap, e.type = .usable → e.base.toNat % 4096 = 0
  length : ∀ e ∈ memmap, e.type = .usable → e.length.toNat % 4096 = 0
  noWrap : ∀ e ∈ memmap, e.type = .usable → e.base.toNat + e.length.toNat < 2 ^ 64
  disjoint : memmap.Pairwise fun e e' => e.type = .usable → e'.type = .usable → ∀ p, ¬ (e.Contains p ∧ e'.Contains p)

/-- One of the usable entries has room for the array. -/
def ArrayRoom (memmap : List MemmapEntry) : Prop := ∃ e ∈ memmap, e.type = .usable ∧ arraySize memmap ≤ e.length

inductive PmmOp where
  | request
  | release (page : U64)
deriving DecidableEq, Repr

/-- The kernel and the pages that its callers hold. A page is released by who holds it. -/
def PmmOp.exec : State × List U64 → PmmOp → Option (State × List U64)
  | (k, held), .request =>
      let (page, k) := pmmRequestPage k
      some (k, if page = 0 then held else page :: held)
  | (k, held), .release page =>
      if page ∈ held then some (pmmReleasePage k page, held.erase page) else none

/-- The pages on the free stack, bottom first. -/
def State.freePages (k : State) : List U64 :=
  (List.range k.stack.idx.toNat).map fun i => k.load (k.stack.pages + 8 * BitVec.ofNat 64 i)

/-- Every usable page outside the array is free or held, once. -/
structure Conserved (memmap : List MemmapEntry) (k : State) (held : List U64) : Prop where
  once : (k.freePages ++ held).Nodup
  pages : ∀ p, p ∈ k.freePages ++ held ↔ p ∈ usablePages memmap ∧ p ∉ arrayPages memmap
  array : ∃ e, arrayEntry memmap = some e ∧ k.stack.pages = k.higherHalf e.base
  idx_le : k.stack.idx ≤ k.stack.max
  max_le : k.stack.max.toNat ≤ (arraySize memmap).toNat / 8

/-! ## Page tables -/

inductive VmmOp where
  | map (virt phys flags : U64)
  | unmap (virt : U64)
deriving DecidableEq, Repr

namespace VmmOp

def apply (pagemap : U64) (k : State) : VmmOp → State
  | .map virt phys flags => vmmMap k pagemap virt phys flags
  | .unmap virt => vmmUnmap k pagemap virt

def virt : VmmOp → U64
  | .map virt _ _ => virt
  | .unmap virt => virt

/-- What the operation makes its page translate to. -/
def target : VmmOp → U64
  | .map _ phys _ => phys
  | .unmap _ => 0

/-- What the operation leaves in the last-level entry of its page. -/
def entry : VmmOp → U64
  | .map _ phys flags => phys ||| flags
  | .unmap _ => 0

def Valid : VmmOp → Prop
  | .map _ phys flags => phys.toNat % 4096 = 0 ∧ phys.toNat < 2 ^ 52 ∧
      flags &&& ~~~(vmmPresent ||| vmmWrite ||| vmmUser ||| vmmNx) = 0 ∧ flags &&& vmmPresent ≠ 0
  | .unmap _ => True

instance : DecidablePred Valid
  | .map _ _ _ => inferInstanceAs (Decidable (_ ∧ _))
  | .unmap _ => inferInstanceAs (Decidable True)

/-- The flat map: the last operation on the page of `v` decides, and a page that no operation named is unmapped. -/
def translate (ops : List VmmOp) (v : U64) : U64 :=
  match ops.reverse.find? fun op => pageNo op.virt = pageNo v with
  | some op => op.target
  | none => 0

/-- What the entry of the last operation on the page of `v` says. -/
def lookup (ops : List VmmOp) (v : U64) : U64 :=
  match ops.reverse.find? fun op => pageNo op.virt = pageNo v with
  | some op => op.entry &&& addrMask
  | none => 0

end VmmOp

/-- A zeroed pagemap root `r` apart from the frames that `pmm_request_page` hands out. -/
structure FreshRoot (k : State) (all free : List Frame) (r : Frame) : Prop where
  stack : FreeStack k all free
  small : ∀ f ∈ all, f.1.toNat < 2 ^ 52
  zeroed : ∀ i, k.mem.word r i = 0
  notFree : r ∉ free
  notArray : ¬ k.IsArray all.length r

/-- The two pagemaps lead an address to the same next table. -/
def SharesTable (k : State) (pagemap pagemap' v : U64) : Prop :=
  let pml4e := k.load (entryPtr pagemap (pmlIdx v 39))
  let pml4e' := k.load (entryPtr pagemap' (pmlIdx v 39))
  pml4e &&& 1 ≠ 0 ∧ pml4e' &&& 1 ≠ 0 ∧ pml4e &&& addrMask = pml4e' &&& addrMask

instance (k : State) (pagemap pagemap' v : U64) : Decidable (SharesTable k pagemap pagemap' v) :=
  inferInstanceAs (Decidable (_ ∧ _ ∧ _))

/-! ## Address spaces -/

/-- A new pagemap, or an operation on one of the pagemaps made so far. They are numbered in the order of their making. -/
inductive SpaceOp where
  | new
  | call (a : Nat) (op : VmmOp)
deriving DecidableEq, Repr

namespace SpaceOp

/-- The kernel and the pagemaps made so far. Page frames do not run out. -/
def exec : State × List U64 → SpaceOp → Option (State × List U64)
  | (k, pagemaps), .new =>
      let (pagemap, k) := vmmNewPagemap k
      if k.outOfMemory then none else some (k, pagemaps ++ [pagemap])
  | (k, pagemaps), .call a op =>
      match pagemaps[a]? with
      | none => none
      | some pagemap =>
          if (op.apply pagemap k).outOfMemory then none else some (op.apply pagemap k, pagemaps)

/-- Bit 47 of the address is clear. -/
def Lower : SpaceOp → Prop
  | .new => True
  | .call _ op => op.Valid ∧ op.virt.getLsbD 47 = false

instance : DecidablePred Lower
  | .new => inferInstanceAs (Decidable True)
  | .call _ _ => inferInstanceAs (Decidable (_ ∧ _))

/-- The operation changes no translation of another pagemap, none of the kernel's, and none of its own in the upper half. -/
def Independent (s : State × List U64) : SpaceOp → Prop
  | .new => True
  | .call a op => ∀ s', exec s (.call a op) = some s' →
      (∀ b ≠ a, ∀ pagemap, s.2[b]? = some pagemap → ∀ v, virtToPhys s'.1 pagemap v = virtToPhys s.1 pagemap v) ∧
      (∀ v, virtToPhys s'.1 s'.1.kernelPagemap v = virtToPhys s.1 s.1.kernelPagemap v) ∧
      ∀ pagemap, s.2[a]? = some pagemap → ∀ v, v.getLsbD 47 = true → virtToPhys s'.1 pagemap v = virtToPhys s.1 pagemap v

end SpaceOp

/-! ## Virtual memory areas -/

inductive VmaOp where
  | alloc (size flags : U64)
  | free (ptr : U64)
deriving DecidableEq, Repr

/-- A region in use: where it starts and how many pages it has. -/
structure LiveRegion where
  start : U64
  size : U64
deriving DecidableEq, Repr

def LiveRegion.Contains (region : LiveRegion) (v : U64) : Prop := (v - region.start).toNat < region.size.toNat * 4096

/-- The regions in use start at pages and share no address. -/
structure LiveOk (live : List LiveRegion) : Prop where
  aligned : ∀ region ∈ live, region.start.toNat % 4096 = 0
  disjoint : live.Pairwise fun region region' => ∀ v, ¬ (region.Contains v ∧ region'.Contains v)

namespace VmaOp

/-- The kernel and the regions that were allocated and not freed. Sizes are not zero, only regions in use are freed,
and page frames do not run out. -/
def exec (ctx : U64) : State × List LiveRegion → VmaOp → Option (State × List LiveRegion)
  | (k, live), .alloc size flags =>
      if size = 0 then none
      else
        match vmaAlloc k ctx size flags with
        | none => none
        | some (ptr, k) =>
            if k.outOfMemory then none
            else some (k, if ptr = 0 then live else ⟨ptr, size⟩ :: live)
  | (k, live), .free ptr =>
      if live.any fun region => region.start = ptr then
        match vmaFree k ctx ptr with
        | none => none
        | some k => some (k, live.eraseP fun region => region.start = ptr)
      else none

/-- The walks over the list of regions end, whatever is asked for. -/
def Returns (ctx : U64) (k : State) : Prop :=
  (∀ size flags, vmaAlloc k ctx size flags ≠ none) ∧ ∀ ptr, vmaFree k ctx ptr ≠ none

/-- A region is allocated when none is in use and the root region ends at a page. -/
def Fits (ctx : U64) : State × List LiveRegion → VmaOp → Prop
  | (k, live), .alloc _ _ => live = [] ∧
      (VmaRegion.start k (VmaContext.root k ctx) + VmaRegion.size k (VmaContext.root k ctx)).toNat % 4096 = 0
  | _, .free _ => True

/-- The flags leave the bits of the frame alone, and the kernel's pagemap is the pagemap of the context or has no page of
a region that is freed. -/
def Clean (ctx : U64) : State × List LiveRegion → VmaOp → Prop
  | _, .alloc _ flags => flags &&& addrMask = 0
  | (k, live), .free ptr => VmaContext.pagemap k ctx = k.kernelPagemap ∨
      ∀ region ∈ live, region.start = ptr → ∀ j < region.size.toNat,
        virtToPhys k k.kernelPagemap (ptr + BitVec.ofNat 64 j * pageSize) = 0

end VmaOp

/-! ## Lists of regions -/

/-- The regions of the context, from the root on. -/
def RegionsOf (k : State) (ctx : U64) (rs : List U64) : Prop := Chain (VmaRegion.next k) 0 (VmaContext.root k ctx) rs

instance (k : State) (ctx : U64) (rs : List U64) : Decidable (RegionsOf k ctx rs) := Chain.decidable _ _

/-- The links between the regions of the context. -/
structure DoublyLinked (k : State) (ctx : U64) (rs : List U64) : Prop where
  regions : RegionsOf k ctx rs
  back : ∀ region ∈ rs, VmaRegion.next k region = 0 ∨ VmaRegion.prev k (VmaRegion.next k region) = region
  first : ∀ region ∈ rs, VmaRegion.prev k region = 0 ↔ region = VmaContext.root k ctx

/-- A new region may come after this one. -/
def hasGap (k : State) (region : U64) : Bool := VmaRegion.next k region = 0 ∨
  VmaRegion.start k region + VmaRegion.size k region < VmaRegion.start k (VmaRegion.next k region)

/-- No region ends before the next one starts. -/
def NoGap (k : State) (ctx : U64) : Prop :=
  ∀ rs, RegionsOf k ctx rs → ∀ region ∈ rs, VmaRegion.next k region = 0 ∨
    VmaRegion.start k (VmaRegion.next k region) ≤ VmaRegion.start k region + VmaRegion.size k region

namespace VmaOp

/-- The kernel and the pointers that were allocated and not freed. Only those are freed. -/
def call (ctx : U64) : State × List U64 → VmaOp → Option (State × List U64)
  | (k, live), .alloc size flags =>
      match vmaAlloc k ctx size flags with
      | none => none
      | some (ptr, k) => some (k, if ptr = 0 then live else ptr :: live)
  | (k, live), .free ptr =>
      if ptr ∈ live then
        match vmaFree k ctx ptr with
        | none => none
        | some k => some (k, live.erase ptr)
      else none

/-- A region is allocated when there is no gap to put it in, with frames enough for its record, its pages and their tables.
The kernel's pagemap is the pagemap of the context or has no page of a region that is freed. -/
def KeepsLinks (ctx : U64) : State × List U64 → VmaOp → Prop
  | (k, _), .alloc size flags => NoGap k ctx ∧ flags &&& addrMask = 0 ∧ 4 * size.toNat + 1 ≤ k.stack.idx.toNat
  | (k, _), .free ptr => VmaContext.pagemap k ctx = k.kernelPagemap ∨
      ∀ rs, RegionsOf k ctx rs → ∀ region ∈ rs, VmaRegion.start k region = ptr → ∀ j < (VmaRegion.size k region).toNat,
        virtToPhys k k.kernelPagemap (ptr + BitVec.ofNat 64 j * pageSize) = 0

end VmaOp

/-! ## Allocation and release -/

/-- The flags leave the bits of the frame alone, no page number occurs twice, and there are frames enough for the record, the
pages and their tables. -/
structure PlainAlloc (k : State) (size flags : U64) : Prop where
  clean : flags &&& addrMask = 0
  distinct : size.toNat ≤ 2 ^ 36
  room : 4 * size.toNat + 1 ≤ k.stack.idx.toNat

/-- What `vma_free` needs of a region of `size` pages that `vma_alloc` puts after the first region with room behind it:
no region up to there starts where the new one does, and the kernel's pagemap sees the new pages. -/
def FindsOwn (k : State) (ctx size : U64) : Prop :=
  ∀ pre region post, RegionsOf k ctx (pre ++ region :: post) → hasGap k region = true →
    (∀ other ∈ pre, hasGap k other = false) →
    (∀ other ∈ pre ++ [region], VmaRegion.start k other ≠ VmaRegion.start k region + VmaRegion.size k region) ∧
    (VmaContext.pagemap k ctx = k.kernelPagemap ∨ ∀ i < size.toNat, SharesTable k (VmaContext.pagemap k ctx) k.kernelPagemap
      (VmaRegion.start k region + VmaRegion.size k region + BitVec.ofNat 64 i * pageSize))

/-- `vma_alloc` led from `k` to `k₁` and `vma_free` from there to `k₂`: the record of the call is out of the list again, its
frame and the frames of the `n` pages are free again, and the pages are unmapped. -/
def Undone (k k₁ k₂ : State) (ctx ptr : U64) (n : Nat) : Prop :=
  (∃ pre region post, RegionsOf k ctx (pre ++ post) ∧ RegionsOf k₁ ctx (pre ++ region :: post) ∧
    RegionsOf k₂ ctx (pre ++ post) ∧ k₂.freePages.Perm (k₁.freePages ++
      ((List.range n).map fun i => virtToPhys k₁ (VmaContext.pagemap k₁ ctx) (ptr + BitVec.ofNat 64 i * pageSize)) ++
      [k₁.physical region])) ∧
  ∀ i < n, virtToPhys k₂ (VmaContext.pagemap k₂ ctx) (ptr + BitVec.ofNat 64 i * pageSize) = 0

end ShadowOS.Mm
