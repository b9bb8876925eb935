import ShadowOS.Mm.Vmm

/-!
# Virtual memory areas (`vma.c`)

A context names a pagemap and a doubly linked list of regions. Every record has a page of its own.
-/

namespace ShadowOS.Mm

/-! ## Records -/

namespace VmaContext

def pagemap (k : State) (ctx : U64) : U64 := k.load ctx
def root (k : State) (ctx : U64) : U64 := k.load (ctx + 8)

end VmaContext

namespace VmaRegion

def start (k : State) (region : U64) : U64 := k.load region
def size (k : State) (region : U64) : U64 := k.load (region + 8)
def flags (k : State) (region : U64) : U64 := k.load (region + 16)
def next (k : State) (region : U64) : U64 := k.load (region + 24)
def prev (k : State) (region : U64) : U64 := k.load (region + 32)

end VmaRegion

/-- A bound on the number of records: a longer walk has met a cycle and does not end. -/
def vmaMaxRegions : Nat := 2 ^ 52

/-! ## Contexts -/

def vmaCreateContext (k : State) (pagemap : U64) : U64 × State :=
  let (page, k) := pmmRequestPage k
  let ctx := k.higherHalf page
  if ctx = 0 then (0, k)
  else
    let k := k.memset ctx 0 16
    let (page, k) := pmmRequestPage k
    let k := k.store (ctx + 8) (k.higherHalf page)
    if VmaContext.root k ctx = 0 then (0, pmmReleasePage k (k.physical ctx))
    else
      let k := k.store ctx pagemap
      let k := k.store (VmaContext.root k ctx) vmaStart
      let k := k.store (VmaContext.root k ctx + 8) 0
      (ctx, k)

def vmaDestroyRegions : Nat → U64 → State → Option State
  | 0, _, _ => none
  | fuel + 1, region, k =>
      if region = 0 then some k
      else vmaDestroyRegions fuel (VmaRegion.next k region) (pmmReleasePage k (k.physical region))

/-- `none` stands for a walk that does not end. -/
def vmaDestroyContext (k : State) (ctx : U64) : Option State :=
  if VmaContext.root k ctx = 0 ∨ VmaContext.pagemap k ctx = 0 then some k
  else do
    let k ← vmaDestroyRegions vmaMaxRegions (VmaContext.root k ctx) k
    return pmmReleasePage k (k.physical ctx)

/-! ## Allocation -/

/-- The first region that is the last one or ends before the next one starts; null when there is none. -/
def vmaFindGap (k : State) : Nat → U64 → Option U64
  | 0, _ => none
  | fuel + 1, region =>
      if region = 0 then some 0
      else if VmaRegion.next k region = 0 ∨
          VmaRegion.start k region + VmaRegion.size k region < VmaRegion.start k (VmaRegion.next k region) then some region
      else vmaFindGap k fuel (VmaRegion.next k region)

/-- The loop that backs the pages `i`, `i + 1`, … of a region, `n` in all; `false` when a frame is missing. -/
def vmaMapPages (ctx region : U64) : Nat → U64 → State → Bool × State
  | 0, _, k => (true, k)
  | n + 1, i, k =>
      let (page, k) := pmmRequestPage k
      if page = 0 then (false, k)
      else
        vmaMapPages ctx region n (i + 1) (vmmMap k (VmaContext.pagemap k ctx)
          (VmaRegion.start k region + i * pageSize) page (VmaRegion.flags k region))

/-- A record for a new region after `region`. -/
def vmaInsert (k : State) (newRegion region size flags : U64) : State :=
  let k := k.memset newRegion 0 40
  let k := k.store (newRegion + 8) size
  let k := k.store (newRegion + 16) flags
  let k := k.store newRegion (VmaRegion.start k region + VmaRegion.size k region)
  let k := k.store (newRegion + 24) (VmaRegion.next k region)
  let k := k.store (newRegion + 32) region
  k.store (region + 24) newRegion

/-- The code after the walk, for a list in which no region fits. -/
def vmaInsertLast (k : State) (newRegion lastRegion size flags : U64) : State :=
  let k := k.memset newRegion 0 40
  let k := k.store (lastRegion + 24) newRegion
  let k := k.store (newRegion + 32) lastRegion
  let k := k.store newRegion (VmaRegion.start k lastRegion + VmaRegion.size k lastRegion)
  let k := k.store (newRegion + 8) size
  let k := k.store (newRegion + 16) flags
  k.store (newRegion + 24) 0

/-- `none` stands for a walk that does not end. -/
def vmaAlloc (k : State) (ctx size flags : U64) : Option (U64 × State) :=
  if ctx = 0 ∨ VmaContext.root k ctx = 0 ∨ VmaContext.pagemap k ctx = 0 then some (0, k)
  else do
    let root := VmaContext.root k ctx
    let region ← vmaFindGap k vmaMaxRegions root
    let (page, k) := pmmRequestPage k
    let newRegion := k.higherHalf page
    if newRegion = 0 then return (0, k)
    let k := if region = 0 then vmaInsertLast k newRegion root size flags else vmaInsert k newRegion region size flags
    let (ok, k) := vmaMapPages ctx newRegion size.toNat 0 k
    if !ok then return (0, k)
    return (VmaRegion.start k newRegion, k)

/-! ## Release -/

/-- The first region that starts at `ptr`; null when there is none. -/
def vmaFind (k : State) (ptr : U64) : Nat → U64 → Option U64
  | 0, _ => none
  | fuel + 1, region =>
      if region = 0 then some 0
      else if VmaRegion.start k region = ptr then some region
      else vmaFind k ptr fuel (VmaRegion.next k region)

/-- The loop over the pages of a region. The frames are looked up in the kernel's pagemap. -/
def vmaUnmapPages (ctx region : U64) : Nat → U64 → State → State
  | 0, _, k => k
  | n + 1, i, k =>
      if i < VmaRegion.size k region then
        let virt := VmaRegion.start k region + i * pageSize
        let phys := virtToPhys k k.kernelPagemap virt
        let k :=
          if phys ≠ 0 then
            let k := pmmReleasePage k phys
            vmmUnmap k (VmaContext.pagemap k ctx) virt
          else k
        vmaUnmapPages ctx region n (i + 1) k
      else k

/-- The record is taken out of the list and its page released. -/
def vmaUnlink (k : State) (ctx region prev next : U64) : State :=
  let k := if prev ≠ 0 then k.store (prev + 24) next else k
  let k := if next ≠ 0 then k.store (next + 32) prev else k
  let k := if region = VmaContext.root k ctx then k.store (ctx + 8) next else k
  pmmReleasePage k (k.physical region)

/-- `none` stands for a walk that does not end. -/
def vmaFree (k : State) (ctx ptr : U64) : Option State :=
  if ctx = 0 then some k
  else do
    let region ← vmaFind k ptr vmaMaxRegions (VmaContext.root k ctx)
    if region = 0 then return k
    let prev := VmaRegion.prev k region
    let next := VmaRegion.next k region
    let k := vmaUnmapPages ctx region (2 ^ 64) 0 k
    return vmaUnlink k ctx region prev next

end ShadowOS.Mm
