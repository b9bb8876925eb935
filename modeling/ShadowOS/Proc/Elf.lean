import ShadowOS.Mm.Vmm

/-!
# Loading programs (`proc/data/elf.c`)

An image is read only, and is given by the bytes at the offsets from `data`.
-/

namespace ShadowOS.Proc

open Mm

/-! ## Headers -/

structure ElfHeader where
  eMagic : U32
  eClass : U8
  eType : U16
  eEntry : U64
  ePhoff : U64
  ePhnum : U16
deriving DecidableEq, Repr

structure ElfPheader where
  pType : U32
  pFlags : U32
  pOffset : U64
  pVaddr : U64
  pFilesz : U64
  pMemsz : U64
deriving DecidableEq, Repr

def elfMagic : U32 := 0x464C457F
def ptLoad : U32 := 1
def pfX : U32 := 0x1
def pfW : U32 := 0x2

def elfHeader (image : Mem) : ElfHeader where
  eMagic := image.load32 0
  eClass := image 4
  eType := image.load16 16
  eEntry := image.load64 24
  ePhoff := image.load64 32
  ePhnum := image.load16 56

/-- The program header `ph[i]`. -/
def elfPheader (image : Mem) (i : Nat) : ElfPheader :=
  let ph := (elfHeader image).ePhoff + 56 * BitVec.ofNat 64 i
  { pType := image.load32 ph
    pFlags := image.load32 (ph + 4)
    pOffset := image.load64 (ph + 8)
    pVaddr := image.load64 (ph + 16)
    pFilesz := image.load64 (ph + 32)
    pMemsz := image.load64 (ph + 40) }

def elfPheaders (image : Mem) : List ElfPheader :=
  (List.range (elfHeader image).ePhnum.toNat).map (elfPheader image)

/-- The checks of the file header. -/
def ElfHeader.Valid (header : ElfHeader) : Prop := header.eMagic = elfMagic ∧ header.eClass = 2 ∧ header.eType = 2

instance (header : ElfHeader) : Decidable header.Valid := inferInstanceAs (Decidable (_ ∧ _ ∧ _))

/-! ## Segments -/

namespace ElfPheader

def vaddrStart (ph : ElfPheader) : U64 := alignDown ph.pVaddr pageSize
def vaddrEnd (ph : ElfPheader) : U64 := alignUp (ph.pVaddr + ph.pMemsz) pageSize
def pageOffset (ph : ElfPheader) : U64 := ph.pVaddr &&& (pageSize - 1)

def flags (ph : ElfPheader) : U64 :=
  let flags := vmmPresent
  let flags := if ph.pFlags &&& pfW ≠ 0 then flags ||| vmmWrite else flags
  let flags := if ph.pFlags &&& pfX = 0 then flags ||| vmmNx else flags
  flags ||| vmmUser

end ElfPheader

/-- The part of the file that goes to the page at `vaddr`, whose frame is `phys`. -/
def elfCopy (image : Mem) (ph : ElfPheader) (phys vaddr : U64) (k : State) : State :=
  let filePageOffset := ph.pOffset + (vaddr - ph.vaddrStart)
  let fileDataEnd := ph.pOffset + ph.pFilesz
  if filePageOffset < fileDataEnd then
    let bytesFromStart := vaddr - ph.vaddrStart
    let pageDataOffset := if bytesFromStart = 0 ∧ 0 < ph.pageOffset then ph.pageOffset else 0
    let copyOffset := filePageOffset
    let copySize := pageSize - pageDataOffset
    let copySize := if fileDataEnd < copyOffset + copySize then fileDataEnd - copyOffset else copySize
    if 0 < copySize then
      { k with mem := k.mem.copyFrom (k.physical (k.higherHalf phys + pageDataOffset)) image copyOffset copySize.toNat }
    else k
  else k

/-- One turn of the loop over the pages. An error stands for the return when frames run out. -/
def elfLoadPage (image : Mem) (ph : ElfPheader) (pagemap vaddr : U64) (k : State) : Except State State :=
  let (phys, k) := pmmRequestPage k
  if phys = 0 then .error k
  else
    let k := vmmMap k pagemap vaddr phys ph.flags
    let k := k.memset (k.higherHalf phys) 0 4096
    .ok (elfCopy image ph phys vaddr k)

def elfLoadPages (image : Mem) (ph : ElfPheader) (pagemap : U64) : Nat → U64 → State → Except State State
  | 0, _, k => .ok k
  | fuel + 1, vaddr, k =>
      if vaddr < ph.vaddrEnd then do
        let k ← elfLoadPage image ph pagemap vaddr k
        elfLoadPages image ph pagemap fuel (vaddr + pageSize) k
      else .ok k

/-- There are `2 ^ 52` pages below the end of the address space. -/
def elfLoadSegment (image : Mem) (pagemap : U64) (k : State) (ph : ElfPheader) : Except State State :=
  if ph.pType ≠ ptLoad then .ok k
  else elfLoadPages image ph pagemap (2 ^ 52) ph.vaddrStart k

def elfLoadBinary (k : State) (image : Mem) (pagemap : U64) : U64 × State :=
  if (elfHeader image).Valid then
    match (elfPheaders image).foldlM (elfLoadSegment image pagemap) k with
    | .ok k => ((elfHeader image).eEntry, k)
    | .error k => (0, k)
  else (0, k)

end ShadowOS.Proc
