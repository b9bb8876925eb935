import ShadowOS.Mm.Pmm

/-!
# Page tables (`vmm.c`)
-/

namespace ShadowOS.Mm

/-- The bits of an entry that hold a frame address. -/
def addrMask : U64 := 0x000FFFFFFFFFF000

/-- The index of an address at the level whose entries cover `2 ^ shift` bytes. -/
def pmlIdx (virt : U64) (shift : Nat) : U64 := (virt &&& ((0x1ff : U64) <<< shift)) >>> shift

/-- The kernel pointer to an entry of a table. -/
def entryPtr (table idx : U64) : U64 := table + 8 * idx

def virtToPhys (k : State) (pagemap virt : U64) : U64 :=
  let pml4e := k.load (entryPtr pagemap (pmlIdx virt 39))
  if pml4e &&& 1 = 0 then 0
  else
    let pml3Table := k.higherHalf (pml4e &&& addrMask)
    let pml3e := k.load (entryPtr pml3Table (pmlIdx virt 30))
    if pml3e &&& 1 = 0 then 0
    else
      let pml2Table := k.higherHalf (pml3e &&& addrMask)
      let pml2e := k.load (entryPtr pml2Table (pmlIdx virt 21))
      if pml2e &&& 1 = 0 then 0
      else
        let pml1Table := k.higherHalf (pml2e &&& addrMask)
        k.load (entryPtr pml1Table (pmlIdx virt 12)) &&& addrMask

/-- The table that an entry names. A missing one is requested and entered first. -/
def nextTable (k : State) (table idx : U64) : U64 × State :=
  let k :=
    if k.load (entryPtr table idx) &&& 1 = 0 then
      let (page, k) := pmmRequestPage k
      k.store (entryPtr table idx) (page ||| 0b111)
    else k
  (k.higherHalf (k.load (entryPtr table idx) &&& addrMask), k)

def pml1Table (k : State) (pagemap virt : U64) : U64 × State :=
  let (pml3Table, k) := nextTable k pagemap (pmlIdx virt 39)
  let (pml2Table, k) := nextTable k pml3Table (pmlIdx virt 30)
  nextTable k pml2Table (pmlIdx virt 21)

def vmmMap (k : State) (pagemap virt phys flags : U64) : State :=
  let (pml1Table, k) := pml1Table k pagemap virt
  k.store (entryPtr pml1Table (pmlIdx virt 12)) (phys ||| flags)

def vmmUnmap (k : State) (pagemap virt : U64) : State :=
  let pml4p := entryPtr pagemap (pmlIdx virt 39)
  if k.load pml4p &&& 1 = 0 then k.store pml4p 0
  else
    let pml3p := entryPtr (k.higherHalf (k.load pml4p &&& addrMask)) (pmlIdx virt 30)
    if k.load pml3p &&& 1 = 0 then k.store pml3p 0
    else
      let pml2p := entryPtr (k.higherHalf (k.load pml3p &&& addrMask)) (pmlIdx virt 21)
      if k.load pml2p &&& 1 = 0 then k.store pml2p 0
      else
        let pml1Table := k.higherHalf (k.load pml2p &&& addrMask)
        k.store (entryPtr pml1Table (pmlIdx virt 12)) 0

/-- A pagemap whose upper 256 entries are those of the kernel's. -/
def vmmNewPagemap (k : State) : U64 × State :=
  let (page, k) := pmmRequestPage k
  let pagemap := k.higherHalf page
  if pagemap = 0 then (0, k)
  else
    let k := k.memset pagemap 0 4096
    if k.kernelPagemap ≠ 0 then
      (pagemap, { k with
        mem := k.mem.copyFrom (k.physical (pagemap + 8 * 256)) k.mem (k.physical (k.kernelPagemap + 8 * 256)) (256 * 8) })
    else (pagemap, k)

def vmmDestroyPagemap (k : State) (pagemap : U64) : State := pmmReleasePage k (k.physical pagemap)

/-- The last-level entry of an address with its flags, zero where a table is missing. -/
def leafEntry (k : State) (pagemap virt : U64) : U64 :=
  let pml4e := k.load (entryPtr pagemap (pmlIdx virt 39))
  if pml4e &&& 1 = 0 then 0
  else
    let pml3e := k.load (entryPtr (k.higherHalf (pml4e &&& addrMask)) (pmlIdx virt 30))
    if pml3e &&& 1 = 0 then 0
    else
      let pml2e := k.load (entryPtr (k.higherHalf (pml3e &&& addrMask)) (pmlIdx virt 21))
      if pml2e &&& 1 = 0 then 0
      else k.load (entryPtr (k.higherHalf (pml2e &&& addrMask)) (pmlIdx virt 12))

def vmmSwitchPagemap (k : State) (newPagemap : U64) : State := { k with cr3 := k.physical newPagemap }

end ShadowOS.Mm
