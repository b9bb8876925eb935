import ShadowOS.Base.Bytes

/-!
# The state of memory management

The globals of `pmm.c` and `vmm.c` and the physical memory they live on. The kernel reaches physical memory
through the direct map: the pointer `p + hhdm_offset` names the physical byte `p`.
-/

namespace ShadowOS.Mm

/-! ## Constants and macros (`config.h`, `pmm.h`, `vmm.h`) -/

def pageSize : U64 := 0x1000
def vmaStart : U64 := pageSize

def divRoundUp (x y : U64) : U64 := (x + (y - 1)) / y
def alignUp (x y : U64) : U64 := divRoundUp x y * y
def alignDown (x y : U64) : U64 := x / y * y

def vmmPresent : U64 := (1 : U64) <<< 0
def vmmWrite : U64 := (1 : U64) <<< 1
def vmmUser : U64 := (1 : U64) <<< 2
def vmmNx : U64 := (1 : U64) <<< 63

/-! ## Globals -/

/-- The types of memory map entries that the kernel tells apart. -/
inductive MemmapType where
  | usable
  | bootloaderReclaimable
  | other
deriving DecidableEq, Repr

structure MemmapEntry where
  base : U64
  length : U64
  type : MemmapType
deriving DecidableEq, Repr

structure PageCacheEntry where
  pageAddr : U64
  isValid : Bool
  accessCount : U64
deriving DecidableEq, Repr

/-- The free stack. `pages` is the kernel pointer to its array. -/
structure PmmStack where
  pages : U64
  idx : U64
  max : U64
deriving DecidableEq, Repr

structure State where
  mem : Mem
  hhdmOffset : U64
  stack : PmmStack
  memmap : List MemmapEntry
  -- static arrays: the indices past their end stand for the data that follows them
  validPageCache : Nat → PageCacheEntry
  secondaryCache : Nat → PageCacheEntry
  cacheHead : U64
  reclaimed : Bool
  /-- `pmm_request_page` has reported "Out of memory". -/
  outOfMemory : Bool
  kernelPagemap : U64
  cr3 : U64

namespace State

/-- The statically initialised globals. -/
def boot (mem : Mem) (hhdmOffset : U64) : State where
  mem := mem
  hhdmOffset := hhdmOffset
  stack := ⟨0, 0, 0⟩
  memmap := []
  validPageCache := fun _ => ⟨0, false, 0⟩
  secondaryCache := fun _ => ⟨0, false, 0⟩
  cacheHead := 0
  reclaimed := false
  outOfMemory := false
  kernelPagemap := 0
  cr3 := 0

def higherHalf (k : State) (p : U64) : U64 := p + k.hhdmOffset
def physical (k : State) (p : U64) : U64 := p - k.hhdmOffset

/-- Reads the 64-bit object at a kernel pointer. -/
def load (k : State) (p : U64) : U64 := k.mem.load64 (k.physical p)

/-- Writes the 64-bit object at a kernel pointer. -/
def store (k : State) (p v : U64) : State := { k with mem := k.mem.store64 (k.physical p) v }

def memset (k : State) (p : U64) (c : U8) (n : Nat) : State := { k with mem := k.mem.fill (k.physical p) c n }

@[simp] theorem physical_higherHalf (k : State) (p : U64) : k.physical (k.higherHalf p) = p := by
  simp only [physical, higherHalf, BitVec.add_sub_cancel]

@[simp] theorem physical_higherHalf_add (k : State) (p d : U64) : k.physical (k.higherHalf p + d) = p + d := by
  simp only [physical, higherHalf]
  rw [BitVec.add_assoc, BitVec.add_comm k.hhdmOffset, ← BitVec.add_assoc, BitVec.add_sub_cancel]

theorem store_oom (k : State) (p v : U64) : (k.store p v).outOfMemory = k.outOfMemory := rfl

theorem memset_oom (k : State) (p : U64) (c : U8) (n : Nat) : (k.memset p c n).outOfMemory = k.outOfMemory := rfl

end State

end ShadowOS.Mm
