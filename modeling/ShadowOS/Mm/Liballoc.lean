import ShadowOS.Base.Layout
import ShadowOS.Lib.Memory

/-!
# The kernel heap (`mm/liballoc/liballoc.c`)

The heap takes runs of pages from `liballoc_alloc`. Each run starts with a major header, and the blocks in it with minor
headers; both kinds of headers are in doubly linked lists. The headers lie in the same memory as the data of the blocks.
The lock is left out: it is taken and released by every call.
-/

namespace ShadowOS.Mm

/-! ## Headers -/

structure Major where
  prev : U64
  next : U64
  pages : U32
  size : U32
  usage : U32
  first : U64
deriving DecidableEq, Repr

structure Minor where
  prev : U64
  next : U64
  block : U64
  magic : U32
  size : U32
  reqSize : U32
deriving DecidableEq, Repr

open Layout in
/-- `first` is at a multiple of 8. -/
def Major.layout : Layout Major :=
  (u64.append (u64.append (u32.append (u32.append (u32.append u64 4 (by decide)) 0 (by decide)) 0 (by decide)) 0 (by decide))
    0 (by decide)).map
    (fun r => ⟨r.1, r.2.1, r.2.2.1, r.2.2.2.1, r.2.2.2.2.1, r.2.2.2.2.2⟩)
    (fun r => (r.prev, r.next, r.pages, r.size, r.usage, r.first)) (fun _ => rfl)

open Layout in
/-- Four unused bytes follow. -/
def Minor.layout : Layout Minor :=
  (u64.append (u64.append (u64.append (u32.append (u32.append u32 0 (by decide)) 0 (by decide)) 0 (by decide)) 0 (by decide))
    0 (by decide)).map
    (fun r => ⟨r.1, r.2.1, r.2.2.1, r.2.2.2.1, r.2.2.2.2.1, r.2.2.2.2.2⟩)
    (fun r => (r.prev, r.next, r.block, r.magic, r.size, r.reqSize)) (fun _ => rfl)

/-- `sizeof(struct liballoc_major)`, which is also `sizeof(struct liballoc_minor)`. -/
def headerSize : U64 := 40

def liballocMagic : U32 := 0xc001c0de
def liballocDead : U32 := 0xdeaddead

/-- `l_pageSize`. -/
def liballocPageSize : U32 := 4096

/-- `l_pageCount`. -/
def liballocPageCount : U32 := 16

/-! ## State -/

/-- `liballoc_alloc` and `liballoc_free`. New pages may come with any content. -/
structure PageSource (P : Type) where
  liballocAlloc : P → Mem → U32 → U64 × P × Mem
  liballocFree : P → Mem → U64 → U32 → P × Mem

/-- The static variables, the memory and the state of the page source. -/
structure Heap (P : Type) where
  mem : Mem
  pages : P
  memRoot : U64
  bestBet : U64
  allocated : U64
  inuse : U64
  warningCount : U64
  errorCount : U64
  possibleOverruns : U64

/-- Why a call does not return. -/
inductive HeapFault where
  /-- A loop does not end. -/
  | endless
  /-- Something is stored through a null pointer. -/
  | null
deriving DecidableEq, Repr

variable {P : Type}

namespace Heap

/-- The static variables before the first call. -/
def boot (mem : Mem) (pages : P) : Heap P where
  mem := mem
  pages := pages
  memRoot := 0
  bestBet := 0
  allocated := 0
  inuse := 0
  warningCount := 0
  errorCount := 0
  possibleOverruns := 0

def major (h : Heap P) (maj : U64) : Major := Major.layout.load h.mem maj
def minor (h : Heap P) (min : U64) : Minor := Minor.layout.load h.mem min

def setMajor (h : Heap P) (maj : U64) (r : Major) : Heap P := { h with mem := Major.layout.store h.mem maj r }
def setMinor (h : Heap P) (min : U64) (r : Minor) : Heap P := { h with mem := Minor.layout.store h.mem min r }

def setMajorPrev (h : Heap P) (maj prev : U64) : Heap P := h.setMajor maj { h.major maj with prev := prev }
def setMajorNext (h : Heap P) (maj next : U64) : Heap P := h.setMajor maj { h.major maj with next := next }
def setUsage (h : Heap P) (maj : U64) (usage : U32) : Heap P := h.setMajor maj { h.major maj with usage := usage }
def setFirst (h : Heap P) (maj first : U64) : Heap P := h.setMajor maj { h.major maj with first := first }

def setMinorPrev (h : Heap P) (min prev : U64) : Heap P := h.setMinor min { h.minor min with prev := prev }
def setMinorNext (h : Heap P) (min next : U64) : Heap P := h.setMinor min { h.minor min with next := next }
def setMagic (h : Heap P) (min : U64) (magic : U32) : Heap P := h.setMinor min { h.minor min with magic := magic }
def setReqSize (h : Heap P) (min : U64) (reqSize : U32) : Heap P := h.setMinor min { h.minor min with reqSize := reqSize }

end Heap

/-! ## Alignment -/

/-- `diff` of the macro `ALIGN`, for a pointer that `ALIGN_INFO` was added to. -/
def alignDiff (p : U64) : U64 := if p &&& 15 ≠ 0 then 16 - (p &&& 15) else 0

/-- The pointer after `ALIGN(p)`. -/
def alignPtr (p : U64) : U64 := p + 16 + alignDiff (p + 16)

/-- `ALIGN(p)`: how far the pointer was moved is noted in a byte before it. -/
def Heap.align (h : Heap P) (p : U64) : U64 × Heap P :=
  (alignPtr p, { h with mem := Function.update h.mem (alignPtr p - 16) ((alignDiff (p + 16) + 16).setWidth 8) })

/-- `UNALIGN(ptr)`. The note is a `char`, which is signed. -/
def Heap.unalign (h : Heap P) (ptr : U64) : U64 :=
  let diff := (h.mem (ptr - 16)).signExtend 64
  if diff < 16 + 16 then ptr - diff else ptr

/-! ## kmalloc -/

/-- How many pages `allocate_new_page` asks for. -/
def pagesFor (size : U32) : U32 :=
  let st := size + 40 + 40
  let st := if st % liballocPageSize = 0 then st / liballocPageSize else st / liballocPageSize + 1
  if st < liballocPageCount then liballocPageCount else st

def allocateNewPage (S : PageSource P) (h : Heap P) (size : U32) : U64 × Heap P :=
  let st := pagesFor size
  let (maj, pages, mem) := S.liballocAlloc h.pages h.mem st
  let h := { h with pages := pages, mem := mem }
  if maj = 0 then (0, { h with warningCount := h.warningCount + 1 })
  else
    let h := h.setMajor maj ⟨0, 0, st, st * liballocPageSize, 40, 0⟩
    (maj, { h with allocated := h.allocated + (st * liballocPageSize).setWidth 64 })

/-- A new header at `min` is filled in, between the headers `prev` and `next` of the list of `maj`. -/
def Heap.linkMinor (h : Heap P) (maj prev next min size reqSize : U64) : Heap P :=
  let h := if next ≠ 0 then h.setMinorPrev next min else h
  let h := if prev ≠ 0 then h.setMinorNext prev min else h.setFirst maj min
  let h := h.setMinor min ⟨prev, next, maj, liballocMagic, size.setWidth 32, reqSize.setWidth 32⟩
  h.setUsage maj ((h.major maj).usage + (size.setWidth 32 + 40))

/-- A new block with its header at `min`. Each of the cases 2, 3 and 4 does this for the neighbours that it has found. -/
def Heap.addMinor (h : Heap P) (maj prev next min size reqSize : U64) : U64 × Heap P :=
  let h := h.linkMinor maj prev next min size reqSize
  let h := { h with inuse := h.inuse + size }
  h.align (min + headerSize)

/-- A bound on the number of turns of a loop: a longer one goes round for ever. -/
def liballocMaxTurns : Nat := 2 ^ 52

/-- Case 4: the loop over the minor headers from `min` on. -/
def takeGap (maj size reqSize : U64) : Nat → U64 → Heap P → Except HeapFault (Option (U64 × Heap P))
  | 0, _, _ => .error .endless
  | fuel + 1, min, h =>
      if min = 0 then .ok none
      else
        let m := h.minor min
        let stop := if m.next = 0 then maj + (h.major maj).size.setWidth 64 else m.next
        let diff := stop - min - headerSize - m.size.setWidth 64
        if size + headerSize ≤ diff then
          .ok (some (h.addMinor maj min m.next (min + headerSize + m.size.setWidth 64) size reqSize))
        else takeGap maj size reqSize fuel m.next h

/-- Cases 2, 3 and 4: a place for a new block behind the major header `maj`. -/
def takeFrom (h : Heap P) (maj size reqSize : U64) : Except HeapFault (Option (U64 × Heap P)) :=
  let first := (h.major maj).first
  if first = 0 then .ok (some (h.addMinor maj 0 0 (maj + headerSize) size reqSize))
  else if size + headerSize ≤ first - maj - headerSize then
    .ok (some (h.addMinor maj 0 first (maj + headerSize) size reqSize))
  else takeGap maj size reqSize liballocMaxTurns first h

/-- `maj->next = allocate_new_page(size)`, and the way back. -/
def appendMajor (S : PageSource P) (h : Heap P) (maj size : U64) : U64 × Heap P :=
  let (new, h) := allocateNewPage S h (size.setWidth 32)
  let h := h.setMajorNext maj new
  if new = 0 then (0, h) else (new, h.setMajorPrev new maj)

/-- The way on from the major header `maj`, which has no place: the next one, the first one after the start at the best bet,
or a new one. The cases 1 and 5 take it; after case 1 the new one is used at once. -/
def advance (S : PageSource P) (size : U64) (again : U64 → Bool → Heap P → Except HeapFault (U64 × Heap P))
    (grown : U64 → Heap P → Except HeapFault (U64 × Heap P)) (maj : U64) (startedBet : Bool) (h : Heap P) :
    Except HeapFault (U64 × Heap P) :=
  if (h.major maj).next ≠ 0 then again (h.major maj).next startedBet h
  else if startedBet then again h.memRoot false h
  else
    let (new, h) := appendMajor S h maj size
    if new = 0 then .ok (0, h) else grown new h

/-- The loop over the major headers. -/
def kmallocLoop (S : PageSource P) (size reqSize : U64) :
    Nat → U64 → Bool → U64 → Heap P → Except HeapFault (U64 × Heap P)
  | 0, _, _, _, _ => .error .endless
  | fuel + 1, maj, startedBet, bestSize, h =>
      if maj = 0 then .ok (0, h)
      else
        let diff := ((h.major maj).size - (h.major maj).usage).setWidth 64
        let h := if bestSize < diff then { h with bestBet := maj } else h
        let again (maj : U64) (startedBet : Bool) (h : Heap P) :=
          kmallocLoop S size reqSize fuel maj startedBet (if bestSize < diff then diff else bestSize) h
        -- the cases 2 to 5
        let rest (maj : U64) (h : Heap P) := do
          match ← takeFrom h maj size reqSize with
          | some res => .ok res
          | none => advance S size again (again · startedBet) maj startedBet h
        -- case 1
        if diff < size + headerSize then advance S size again rest maj startedBet h else rest maj h

/-- `kmalloc` for a block of `size` bytes with the alignment information. -/
def kmallocSize (S : PageSource P) (h : Heap P) (size reqSize : U64) : Except HeapFault (U64 × Heap P) :=
  let (root, h) := if h.memRoot = 0 then allocateNewPage S h (size.setWidth 32) else (h.memRoot, h)
  let h := { h with memRoot := root }
  if root = 0 then .ok (0, h)
  else if h.bestBet ≠ 0 then
    let bestSize := ((h.major h.bestBet).size - (h.major h.bestBet).usage).setWidth 64
    if size + headerSize < bestSize then kmallocLoop S size reqSize liballocMaxTurns h.bestBet true bestSize h
    else kmallocLoop S size reqSize liballocMaxTurns root false bestSize h
  else kmallocLoop S size reqSize liballocMaxTurns root false 0 h

def kmalloc (S : PageSource P) (h : Heap P) (reqSize : U64) : Except HeapFault (U64 × Heap P) :=
  let size := reqSize + (16 + 16)
  if size = 0 then kmallocSize S { h with warningCount := h.warningCount + 1 } (1 + (16 + 16)) 1
  else kmallocSize S h size reqSize

/-! ## kfree -/

/-- The counters that a header with another magic number changes. -/
def Heap.badMagic (h : Heap P) (magic : U32) : Heap P :=
  let h := { h with errorCount := h.errorCount + 1 }
  if magic &&& 0xffffff = liballocMagic &&& 0xffffff ∨ magic &&& 0xffff = liballocMagic &&& 0xffff ∨
      magic &&& 0xff = liballocMagic &&& 0xff then
    { h with possibleOverruns := h.possibleOverruns + 1 }
  else h

/-- `if (min->next != NULL) min->next->prev = min->prev`. -/
def Heap.unlinkNext (h : Heap P) (min : U64) : Heap P :=
  if (h.minor min).next ≠ 0 then h.setMinorPrev (h.minor min).next (h.minor min).prev else h

/-- `if (min->prev != NULL) min->prev->next = min->next`, and `maj->first = min->next` if it is the first one. -/
def Heap.unlinkPrev (h : Heap P) (maj min : U64) : Heap P :=
  if (h.minor min).prev ≠ 0 then h.setMinorNext (h.minor min).prev (h.minor min).next
  else h.setFirst maj (h.minor min).next

/-- The header `min` is taken out of the list of `maj` and marked. -/
def Heap.removeMinor (h : Heap P) (maj min : U64) : Heap P :=
  let h := { h with inuse := h.inuse - (h.minor min).size.setWidth 64 }
  let h := h.setUsage maj ((h.major maj).usage - ((h.minor min).size + 40))
  let h := h.setMagic min liballocDead
  (h.unlinkNext min).unlinkPrev maj min

/-- `if (maj->prev != NULL) maj->prev->next = maj->next`. -/
def Heap.unlinkMajorPrev (h : Heap P) (maj : U64) : Heap P :=
  if (h.major maj).prev ≠ 0 then h.setMajorNext (h.major maj).prev (h.major maj).next else h

/-- `if (maj->next != NULL) maj->next->prev = maj->prev`. -/
def Heap.unlinkMajorNext (h : Heap P) (maj : U64) : Heap P :=
  if (h.major maj).next ≠ 0 then h.setMajorPrev (h.major maj).next (h.major maj).prev else h

/-- The static variables do not lead to `maj` any more. -/
def Heap.forgetMajor (h : Heap P) (maj : U64) : Heap P :=
  { h with
    memRoot := if h.memRoot = maj then (h.major maj).next else h.memRoot
    bestBet := if h.bestBet = maj then 0 else h.bestBet }

/-- The major header `maj` is taken out of the list and its pages are given back. -/
def Heap.removeMajor (S : PageSource P) (h : Heap P) (maj : U64) : Heap P :=
  let h := ((h.forgetMajor maj).unlinkMajorPrev maj).unlinkMajorNext maj
  let (pages, mem) := S.liballocFree h.pages h.mem maj (h.major maj).pages
  { h with allocated := h.allocated - (h.major maj).size.setWidth 64, pages := pages, mem := mem }

/-- The best bet is the one with more room. The sizes are compared as signed numbers. -/
def Heap.updateBestBet (h : Heap P) (maj : U64) : Heap P :=
  if h.bestBet ≠ 0 then
    let bestSize := (h.major h.bestBet).size - (h.major h.bestBet).usage
    let majSize := (h.major maj).size - (h.major maj).usage
    if bestSize.slt majSize then { h with bestBet := maj } else h
  else h

def kfree (S : PageSource P) (h : Heap P) (ptr : U64) : Heap P :=
  if ptr = 0 then { h with warningCount := h.warningCount + 1 }
  else
    let min := h.unalign ptr - headerSize
    if (h.minor min).magic ≠ liballocMagic then h.badMagic (h.minor min).magic
    else
      let maj := (h.minor min).block
      let h := h.removeMinor maj min
      if (h.major maj).first = 0 then h.removeMajor S maj else h.updateBestBet maj

/-! ## kcalloc and krealloc -/

/-- `liballoc_memset`. The index is an `unsigned int`. -/
def liballocMemset (m : Mem) (s : U64) (c : U8) (n : U64) : Except HeapFault Mem :=
  if s = 0 ∧ n ≠ 0 then .error .null else if n.toNat < 2 ^ 32 then .ok (setBytes c n.toNat m s) else .error .endless

/-- `while (n >= sizeof(unsigned int)) *ldest++ = *lsrc++`. -/
def copyWords : Nat → Mem → U64 → U64 → Mem
  | 0, m, _, _ => m
  | n + 1, m, d, s => copyWords n (m.store32 d (m.load32 s)) (d + 4) (s + 4)

/-- `liballoc_memcpy`: words first, then the bytes that are left. -/
def liballocMemcpy (m : Mem) (dest src : U64) (n : Nat) : Except HeapFault Mem :=
  if dest = 0 ∧ n ≠ 0 then .error .null
  else
    let words := BitVec.ofNat 64 (n / 4 * 4)
    .ok (copyUp (n % 4) (copyWords (n / 4) m dest src) (dest + words) (src + words))

/-- `real_size` is an `int`. -/
def kcalloc (S : PageSource P) (h : Heap P) (nobj size : U64) : Except HeapFault (U64 × Heap P) := do
  let realSize := ((nobj * size).setWidth 32).signExtend 64
  let (p, h) ← kmalloc S h realSize
  let mem ← liballocMemset h.mem p 0 realSize
  .ok (p, { h with mem := mem })

def krealloc (S : PageSource P) (h : Heap P) (p size : U64) : Except HeapFault (U64 × Heap P) :=
  if size = 0 then .ok (0, kfree S h p)
  else if p = 0 then kmalloc S h size
  else
    let min := h.unalign p - headerSize
    if (h.minor min).magic ≠ liballocMagic then .ok (0, h.badMagic (h.minor min).magic)
    else
      let realSize := (h.minor min).reqSize
      if size ≤ realSize.setWidth 64 then .ok (p, h.setReqSize min (size.setWidth 32))
      else do
        let (ptr, h) ← kmalloc S h size
        let mem ← liballocMemcpy h.mem ptr p realSize.toNat
        .ok (ptr, kfree S { h with mem := mem } p)

end ShadowOS.Mm
