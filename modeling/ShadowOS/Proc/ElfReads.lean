import ShadowOS.Proc.Spec

/-!
# Which bytes of an image the loader reads

The reads follow the loader in its order, up to where it returns. An index counts from `data`.
-/

namespace ShadowOS.Proc

open Mm

/-! ## Reads -/

/-- The `n` indices from `p` on. -/
def indices (p : U64) (n : Nat) : List U64 := (List.range n).map fun i => p + BitVec.ofNat 64 i

/-- The bytes that are copied to the page at `vaddr`. -/
def elfCopyReads (ph : ElfPheader) (vaddr : U64) : List U64 :=
  let filePageOffset := ph.pOffset + (vaddr - ph.vaddrStart)
  let fileDataEnd := ph.pOffset + ph.pFilesz
  if filePageOffset < fileDataEnd then
    let bytesFromStart := vaddr - ph.vaddrStart
    let pageDataOffset := if bytesFromStart = 0 ∧ 0 < ph.pageOffset then ph.pageOffset else 0
    let copyOffset := filePageOffset
    let copySize := pageSize - pageDataOffset
    let copySize := if fileDataEnd < copyOffset + copySize then fileDataEnd - copyOffset else copySize
    if 0 < copySize then indices copyOffset copySize.toNat else []
  else []

def elfPagesReads (image : Mem) (ph : ElfPheader) (pagemap : U64) : Nat → U64 → State → List U64
  | 0, _, _ => []
  | fuel + 1, vaddr, k =>
      if vaddr < ph.vaddrEnd then
        match elfLoadPage image ph pagemap vaddr k with
        | .error _ => []
        | .ok k => elfCopyReads ph vaddr ++ elfPagesReads image ph pagemap fuel (vaddr + pageSize) k
      else []

/-- Where the program header `ph[i]` is. -/
def pheaderAt (image : Mem) (i : Nat) : U64 := (elfHeader image).ePhoff + 56 * BitVec.ofNat 64 i

/-- The fields of a program header that are read when it is to be loaded, with their sizes. -/
def loadFields : List (U64 × Nat) := [(16, 8), (40, 8), (8, 8), (4, 4), (32, 8)]

def elfSegmentReads (image : Mem) (pagemap : U64) (k : State) (i : Nat) : List U64 :=
  let ph := elfPheader image i
  indices (pheaderAt image i) 4 ++
    if ph.pType ≠ ptLoad then []
    else loadFields.flatMap (fun f => indices (pheaderAt image i + f.1) f.2) ++
      elfPagesReads image ph pagemap (2 ^ 52) ph.vaddrStart k

/-- The loop over the program headers reads `e_phnum` before each of them. After the last one, `e_entry` is read. -/
def elfSegmentsReads (image : Mem) (pagemap : U64) : List Nat → State → List U64
  | [], _ => indices 56 2 ++ indices 24 8
  | i :: is, k =>
      indices 56 2 ++ (elfSegmentReads image pagemap k i ++
        match elfLoadSegment image pagemap k (elfPheader image i) with
        | .error _ => []
        | .ok k => elfSegmentsReads image pagemap is k)

/-- The bytes that `elf_load_binary` reads from `data`. -/
def elfReads (k : State) (image : Mem) (pagemap : U64) : List U64 :=
  let header := elfHeader image
  indices 0 4 ++
    if header.eMagic ≠ elfMagic then []
    else indices 4 1 ++
      if header.eClass ≠ 2 then []
      else indices 16 2 ++
        if header.eType ≠ 2 then []
        else indices 32 8 ++ elfSegmentsReads image pagemap (List.range header.ePhnum.toNat) k

/-! ## Copies -/

/-- A `memcpy` of the loader: the frame that was just requested, the offset in it, the address and the number of bytes. -/
structure FrameCopy where
  phys : U64
  offset : U64
  dest : U64
  size : Nat
deriving DecidableEq, Repr

/-- The copy writes to its frame only. -/
def FrameCopy.InFrame (c : FrameCopy) : Prop :=
  c.offset.toNat + c.size ≤ 4096 ∧ ∀ j < c.size, (c.dest + BitVec.ofNat 64 j - c.phys).toNat < 4096

def elfPageCopies (ph : ElfPheader) (phys vaddr : U64) (k : State) : List FrameCopy :=
  let filePageOffset := ph.pOffset + (vaddr - ph.vaddrStart)
  let fileDataEnd := ph.pOffset + ph.pFilesz
  if filePageOffset < fileDataEnd then
    let bytesFromStart := vaddr - ph.vaddrStart
    let pageDataOffset := if bytesFromStart = 0 ∧ 0 < ph.pageOffset then ph.pageOffset else 0
    let copyOffset := filePageOffset
    let copySize := pageSize - pageDataOffset
    let copySize := if fileDataEnd < copyOffset + copySize then fileDataEnd - copyOffset else copySize
    if 0 < copySize then
      [⟨phys, pageDataOffset, k.physical (k.higherHalf phys + pageDataOffset), copySize.toNat⟩]
    else []
  else []

def elfPagesCopies (image : Mem) (ph : ElfPheader) (pagemap : U64) : Nat → U64 → State → List FrameCopy
  | 0, _, _ => []
  | fuel + 1, vaddr, k =>
      if vaddr < ph.vaddrEnd then
        let (phys, k) := pmmRequestPage k
        if phys = 0 then []
        else
          let k := vmmMap k pagemap vaddr phys ph.flags
          let k := k.memset (k.higherHalf phys) 0 4096
          elfPageCopies ph phys vaddr k ++
            elfPagesCopies image ph pagemap fuel (vaddr + pageSize) (elfCopy image ph phys vaddr k)
      else []

def elfSegmentsCopies (image : Mem) (pagemap : U64) : List ElfPheader → State → List FrameCopy
  | [], _ => []
  | ph :: phs, k =>
      (if ph.pType ≠ ptLoad then [] else elfPagesCopies image ph pagemap (2 ^ 52) ph.vaddrStart k) ++
        match elfLoadSegment image pagemap k ph with
        | .error _ => []
        | .ok k => elfSegmentsCopies image pagemap phs k

/-- The calls of `memcpy` of `elf_load_binary`. -/
def elfCopies (k : State) (image : Mem) (pagemap : U64) : List FrameCopy :=
  if (elfHeader image).Valid then elfSegmentsCopies image pagemap (elfPheaders image) k else []

/-- The loop over the pages of a segment ends: after `n` turns its test fails, whatever the turns do to the state. -/
def PageLoopEnds (ph : ElfPheader) : Prop :=
  ∃ n ≤ 2 ^ 52, ¬ ph.vaddrStart + BitVec.ofNat 64 n * pageSize < ph.vaddrEnd ∧
    ∀ (image : Mem) (pagemap : U64) (k : State) (fuel : Nat), n ≤ fuel →
      elfLoadPages image ph pagemap fuel ph.vaddrStart k = elfLoadPages image ph pagemap n ph.vaddrStart k

/-! ## Images that hold what they name -/

/-- The part of the file for page `j` of a segment is in an image of `n` bytes. The page starts `4096 * j` bytes after the
segment, and the first page has room only after the segment's offset in it. -/
def CopyInside (n : U64) (ph : ElfPheader) (j : Nat) : Prop :=
  let start := ph.pOffset + BitVec.ofNat 64 j * pageSize
  let fileDataEnd := ph.pOffset + ph.pFilesz
  let room := pageSize - if j = 0 then ph.pageOffset else 0
  start < fileDataEnd → (fileDataEnd < start + room → fileDataEnd ≤ n) ∧
    (¬ fileDataEnd < start + room → start.toNat + room.toNat ≤ n.toNat)

/-- A program header is in the image, and so is what is copied for it. -/
def PheaderInside (image : Mem) (n : U64) (i : Nat) : Prop :=
  let ph := elfPheader image i
  (pheaderAt image i).toNat + 4 ≤ n.toNat ∧
    (ph.pType = ptLoad → (∀ f ∈ loadFields, (pheaderAt image i + f.1).toNat + f.2 ≤ n.toNat) ∧
      ∀ j < ph.pageCount, CopyInside n ph j)

/-- The header is in the image as far as its checks go, and so are the program headers. -/
def ElfInside (image : Mem) (n : U64) : Prop :=
  let header := elfHeader image
  4 ≤ n.toNat ∧ (header.eMagic = elfMagic → 5 ≤ n.toNat ∧ (header.eClass = 2 → 18 ≤ n.toNat ∧ (header.eType = 2 →
    58 ≤ n.toNat ∧ ∀ i < header.ePhnum.toNat, PheaderInside image n i)))

instance (n : U64) (ph : ElfPheader) (j : Nat) : Decidable (CopyInside n ph j) := inferInstanceAs (Decidable (_ → _))

instance (image : Mem) (n : U64) (i : Nat) : Decidable (PheaderInside image n i) := inferInstanceAs (Decidable (_ ∧ _))

instance (image : Mem) (n : U64) : Decidable (ElfInside image n) := inferInstanceAs (Decidable (_ ∧ _))

/-- The frames last to the end of the load. -/
def FramesLast (k : State) (image : Mem) (pagemap : U64) : Prop :=
  (elfHeader image).Valid → ∃ k', (elfPheaders image).foldlM (elfLoadSegment image pagemap) k = .ok k'

end ShadowOS.Proc
