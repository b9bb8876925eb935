import ShadowOS.Mm.Theorems
import ShadowOS.Proc.Lemmas.Elf

/-!
# Theorems about processes
-/

namespace ShadowOS.Proc

open Mm

/-! ## The contents of a segment -/

namespace ElfPheader

theorem pageCount_eq {ph : ElfPheader} (hwrap : ph.pVaddr.toNat + ph.pMemsz.toNat + 4095 < 2 ^ 64) :
    ph.pageCount = (ph.pVaddr.toNat % 4096 + ph.pMemsz.toNat + 4095) / 4096 := by
  have hsum : (ph.pVaddr + ph.pMemsz).toNat = ph.pVaddr.toNat + ph.pMemsz.toNat := by
    rw [BitVec.toNat_add]
    omega
  rw [pageCount, vaddrEnd, vaddrStart, alignUp_toNat, alignDown_toNat, hsum]
  omega

/-- The loop puts the byte `j` of a segment where it belongs on the first page only. -/
theorem pageByte_eq (image : Mem) (ph : ElfPheader) (j : Nat) :
    pageByte image ph ((ph.pVaddr.toNat % 4096 + j) / 4096 * 4096) ((ph.pVaddr.toNat % 4096 + j) % 4096) =
      if ph.pVaddr.toNat % 4096 + j < 4096 then ph.byte image j else ph.byte image (ph.pVaddr.toNat % 4096 + j) := by
  by_cases hlt : ph.pVaddr.toNat % 4096 + j < 4096
  · have hd : (ph.pVaddr.toNat % 4096 + j) / 4096 * 4096 = 0 := by omega
    have hb : 0 + ((ph.pVaddr.toNat % 4096 + j) % 4096 - ph.pVaddr.toNat % 4096) = j := by omega
    have hle : ph.pVaddr.toNat % 4096 ≤ (ph.pVaddr.toNat % 4096 + j) % 4096 := by omega
    simp only [pageByte, byte, hlt, hd, hb, hle, true_and, ↓reduceIte]
  · have hd : ¬ (ph.pVaddr.toNat % 4096 + j) / 4096 * 4096 = 0 := by omega
    have hb : (ph.pVaddr.toNat % 4096 + j) / 4096 * 4096 + ((ph.pVaddr.toNat % 4096 + j) % 4096 - 0) =
        ph.pVaddr.toNat % 4096 + j := by omega
    simp only [pageByte, byte, hlt, hd, ↓reduceIte, hb, Nat.zero_le, true_and]

/-- The page of the byte `j` of a segment is one of its pages. -/
theorem pageNo_add {ph : ElfPheader} (hwrap : ph.pVaddr.toNat + ph.pMemsz.toNat + 4095 < 2 ^ 64) {j : Nat}
    (hj : j < ph.pMemsz.toNat) : (ph.pVaddr.toNat % 4096 + j) / 4096 < ph.pageCount ∧
      pageNo (ph.pVaddr + BitVec.ofNat 64 j) = pageNo (pageAt ph.vaddrStart ((ph.pVaddr.toNat % 4096 + j) / 4096)) := by
  have hi : (ph.pVaddr.toNat % 4096 + j) / 4096 < ph.pageCount := by
    rw [pageCount_eq hwrap]
    omega
  have hat := ph.pageAt_toNat hi.le
  rw [vaddrStart, alignDown_toNat] at hat
  refine ⟨hi, ?_⟩
  rw [← BitVec.toNat_inj, pageNo_toNat, pageNo_toNat, vaddrStart, hat, BitVec.toNat_add, BitVec.toNat_ofNat]
  omega

/-- What a process sees at offset `j` of a segment that was just loaded. -/
theorem byteAt_eq {k : State} {all free : List Frame} {lab : Labels} {r : Frame} {image : Mem} {ph : ElfPheader}
    {shown : BitVec 36 → Option PageLoad} (h : Owned k all free lab)
    (hs : Shows all free lab r image (showLoads shown ph.loads) k.mem) (hload : ph.pType = ptLoad)
    (hwrap : ph.pVaddr.toNat + ph.pMemsz.toNat + 4095 < 2 ^ 64) (hcount : ph.pageCount ≤ 2 ^ 36)
    (hfile : ph.pOffset.toNat + ph.pFilesz.toNat ≤ 2 ^ 63) {j : Nat} (hj : j < ph.pMemsz.toNat) :
    byteAt k (k.higherHalf r.1) (ph.pVaddr + BitVec.ofNat 64 j) =
      if ph.pVaddr.toNat % 4096 + j < 4096 then ph.byte image j else ph.byte image (ph.pVaddr.toNat % 4096 + j) := by
  obtain ⟨hi, hno⟩ := pageNo_add hwrap hj
  have hoff : (ph.pVaddr + BitVec.ofNat 64 j).toNat % 4096 = (ph.pVaddr.toNat % 4096 + j) % 4096 := by
    rw [BitVec.toNat_add, BitVec.toNat_ofNat]
    omega
  have hd : (pageAt ph.vaddrStart ((ph.pVaddr.toNat % 4096 + j) / 4096) - ph.vaddrStart).toNat =
      (ph.pVaddr.toNat % 4096 + j) / 4096 * 4096 := by
    have hlt := (pageAt ph.vaddrStart ((ph.pVaddr.toNat % 4096 + j) / 4096)).isLt
    rw [BitVec.toNat_sub, ph.pageAt_toNat hi.le]
    rw [ph.pageAt_toNat hi.le] at hlt
    omega
  have hown := ph.showLoads_own hload hcount shown hi
  rw [← hno] at hown
  rw [hs.byteAt h hown, hoff, PageLoad.byte_eq image hd (by omega) hfile (by omega), pageByte_eq]

end ElfPheader

/-- Directly after a segment is loaded, the process sees its file part and then zeros exactly when the file part is placed
well. -/
theorem elf_segment_content_iff {k k' : State} {all free : List Frame} {lab : Labels} {r : Frame} {image : Mem}
    {i : Nat} {ph : ElfPheader} (size : Nat) (hown : Owned k all free lab) (hr : lab r = some (r, []))
    (hi : (elfPheaders image)[i]? = some ph) (hload : ph.pType = ptLoad) (hsz : ph.pFilesz ≤ ph.pMemsz)
    (hwrap : ph.pVaddr.toNat + ph.pMemsz.toNat + 4095 < 2 ^ 64) (hspan : ph.pVaddr.toNat % 4096 + ph.pMemsz.toNat ≤ 2 ^ 48)
    (hsize : size ≤ 2 ^ 63) (hin : ph.pOffset.toNat + ph.pFilesz.toNat ≤ size)
    (hres : ((elfPheaders image).take (i + 1)).foldlM (elfLoadSegment image (k.higherHalf r.1)) k = .ok k')
    (hoom : k'.outOfMemory = false) :
    (∀ j < ph.pMemsz.toNat, byteAt k' (k'.higherHalf r.1) (ph.pVaddr + BitVec.ofNat 64 j) = ph.byte image j) ↔
      ph.Placed image := by
  have htake : (elfPheaders image).take (i + 1) = (elfPheaders image).take i ++ [ph] := by
    rw [List.take_add_one, hi, Option.toList_some]
  rw [htake, List.foldlM_append] at hres
  -- the segments before
  cases hk₁ : ((elfPheaders image).take i).foldlM (elfLoadSegment image (k.higherHalf r.1)) k with
  | error k₁ =>
      rw [hk₁] at hres
      cases hres
  | ok k₁ =>
      rw [hk₁] at hres
      have hres' : elfLoadSegment image (k.higherHalf r.1) k₁ ph = .ok k' := by
        change [ph].foldlM (elfLoadSegment image (k.higherHalf r.1)) k₁ = .ok k' at hres
        simpa only [List.foldlM_cons, List.foldlM_nil, bind_pure] using hres
      obtain ⟨k₁', free₁, lab₁, hk₁', ho₁, hg₁, _, hs₁⟩ :=
        elfLoadSegments_loaded image hown hr (.inr ⟨k₁, hk₁, elfLoadSegment_oom hres' hoom⟩)
      cases hk₁.symm.trans hk₁'
      rw [← hg₁.globals.higherHalf r.1] at hres'
      obtain ⟨k₂, free₂, lab₂, hk₂, ho₂, hg₂, _, _, hs₂⟩ :=
        elfLoadSegment_loaded ho₁ (hg₁.keep hr) (.inr ⟨k', hres', hoom⟩)
      cases hres'.symm.trans hk₂
      have hcount : ph.pageCount ≤ 2 ^ 36 := by
        rw [ElfPheader.pageCount_eq hwrap]
        omega
      have hshows := hs₂ _ (hs₁ _ (.none _ _ _ _ _ _))
      have hbyte := fun j hj => ElfPheader.byteAt_eq ho₂ hshows hload hwrap hcount (by omega) (j := j) hj
      rw [BitVec.le_def] at hsz
      constructor
      · intro h j hj hpage
        rw [← h j (by omega), hbyte j (by omega), if_neg (by omega)]
      · intro h j hj
        rw [hbyte j hj]
        split
        · rfl
        · rename_i hge
          by_cases hjf : j < ph.pFilesz.toNat
          · exact (h j hjf (by omega)).symm
          · rw [ElfPheader.byte, ElfPheader.byte, if_neg (by omega), if_neg hjf]

/-- An executable with one segment, whose file part starts at offset 120. -/
def sampleImage (vaddr filesz memsz : U64) : Mem :=
  [(0, 0x2464C457F), (16, 2), (24, 0x400000), (32, 64), (56, 1), (64, 0x700000001), (72, 120), (80, vaddr), (96, filesz),
    (104, memsz), (120, 0x8877665544332211)].foldl (fun m (a, v) => Mem.store64 m a v) (fun _ => 0)

def samplePheader : ElfPheader := ⟨1, 7, 120, 0x400000, 2, 16⟩

theorem elf_segment_content_iff_sample : ∃ r : Frame, ∃ k', r.1 = 0x107000 ∧
    (elfPheaders (sampleImage 0x400000 2 16)).foldlM
      (elfLoadSegment (sampleImage 0x400000 2 16) (0x107000 + sampleOffset)) (pmmRequestPage sampleKernel).2 = .ok k' ∧
    ∀ j < samplePheader.pMemsz.toNat, byteAt k' (k'.higherHalf r.1) (samplePheader.pVaddr + BitVec.ofNat 64 j) =
      samplePheader.byte (sampleImage 0x400000 2 16) j := by
  obtain ⟨all, free, r, hr, hk⟩ := sampleKernel_root
  have hpm := sampleKernel_higherHalf hr
  obtain ⟨hph, hrun⟩ : elfPheaders (sampleImage 0x400000 2 16) = [samplePheader] ∧
      ((elfPheaders (sampleImage 0x400000 2 16)).foldlM
        (elfLoadSegment (sampleImage 0x400000 2 16) (0x107000 + sampleOffset)) (pmmRequestPage sampleKernel).2).toOption.any
        (fun k' => !k'.outOfMemory) = true := by
    decide
  have hi : (elfPheaders (sampleImage 0x400000 2 16))[0]? = some samplePheader := by rw [hph]; rfl
  obtain ⟨k', hload, hoom⟩ := ok_of_any hrun
  rw [Bool.not_eq_true'] at hoom
  have hres := hload
  rw [← hpm, ← List.take_length (l := elfPheaders _), hph] at hres
  rw [← hph] at hres
  have hplaced : samplePheader.Placed (sampleImage 0x400000 2 16) := by
    intro j hj hpage
    simp only [samplePheader, BitVec.reduceToNat] at hj hpage
    omega
  exact ⟨r, k', hr, hload, (elf_segment_content_iff 136 hk.owned (by simp) hi rfl (by decide) (by decide) (by decide)
    (by decide) (by decide) hres hoom).mpr hplaced⟩

/-- The second byte of a segment that starts at the end of a page is lost. -/
theorem elf_segment_misplaced :
    let k := (pmmRequestPage sampleKernel).2
    let ph : ElfPheader := ⟨1, 7, 120, 0x400fff, 2, 2⟩
    elfPheaders (sampleImage 0x400fff 2 2) = [ph] ∧
      ([ph].foldlM (elfLoadSegment (sampleImage 0x400fff 2 2) (0x107000 + sampleOffset)) k).toOption.any (fun k' =>
        !k'.outOfMemory && byteAt k' (0x107000 + sampleOffset) 0x401000 == 0) = true ∧
      ph.byte (sampleImage 0x400fff 2 2) 1 = 0x22 := by
  decide

/-! ## Segments that share a page -/

/-- The page of every byte of a segment shows a load once the segment is loaded. -/
theorem ElfPheader.shownLoads_some {ph : ElfPheader} {phs : List ElfPheader} (hmem : ph ∈ phs) (hload : ph.pType = ptLoad)
    (hwrap : ph.pVaddr.toNat + ph.pMemsz.toNat + 4095 < 2 ^ 64) {j : Nat} (hj : j < ph.pMemsz.toNat) :
    ∃ l, shownLoads phs (pageNo (ph.pVaddr + BitVec.ofNat 64 j)) = some l := by
  obtain ⟨hi, hno⟩ := pageNo_add hwrap hj
  rw [hno]
  rcases showLoads_cases (fun _ => none) (phs.flatMap ElfPheader.loads)
    (pageNo (pageAt ph.vaddrStart ((ph.pVaddr.toNat % 4096 + j) / 4096))) with ⟨l, _, _, he⟩ | ⟨hnone, _⟩
  · exact ⟨l, he⟩
  · refine absurd rfl (hnone ⟨ph, pageAt ph.vaddrStart ((ph.pVaddr.toNat % 4096 + j) / 4096)⟩ ?_)
    rw [List.mem_flatMap]
    refine ⟨ph, hmem, ?_⟩
    rw [ph.loads_eq hload]
    exact List.mem_map.mpr ⟨_, List.mem_range.mpr hi, rfl⟩

/-- Every byte of every segment survives the loading of the others, with its access, if the last segment on its page agrees
with it. When no segment reaches the last page of the address space, it survives only then. -/
theorem elf_segments_kept {k k' : State} {all free : List Frame} {lab : Labels} {r : Frame} {image : Mem} {entry : U64}
    (hown : Owned k all free lab) (hr : lab r = some (r, [])) (hres : elfLoadBinary k image (k.higherHalf r.1) = (entry, k'))
    (hentry : entry ≠ 0) (hoom : k'.outOfMemory = false) :
    (SegmentsAgree image → SegmentsKept image (k.higherHalf r.1) k k') ∧
    ((∀ ph ∈ elfPheaders image, ph.pType = ptLoad → ph.pVaddr.toNat + ph.pMemsz.toNat + 4095 < 2 ^ 64) →
      SegmentsKept image (k.higherHalf r.1) k k' → SegmentsAgree image) := by
  have hload : (elfPheaders image).foldlM (elfLoadSegment image (k.higherHalf r.1)) k = .ok k' := by
    simp only [elfLoadBinary] at hres
    split at hres
    · split at hres
      · rename_i k₁ hk₁
        rw [hk₁, (Prod.mk.inj hres).2]
      · exact absurd (Prod.mk.inj hres).1.symm hentry
    · exact absurd (Prod.mk.inj hres).1.symm hentry
  -- what is seen in the end, and after the first segments
  obtain ⟨k₂, free₂, lab₂, hk₂, ho₂, hg₂, _, hs₂⟩ := elfLoadSegments_loaded image hown hr (.inr ⟨k', hload, hoom⟩)
  cases hload.symm.trans hk₂
  have hlast := hs₂ _ (.none _ _ _ _ _ _)
  have hfirst : ∀ n k₁, ((elfPheaders image).take n).foldlM (elfLoadSegment image (k.higherHalf r.1)) k = .ok k₁ →
      ∃ free₁ lab₁, Owned k₁ all free₁ lab₁ ∧ k₁.higherHalf r.1 = k.higherHalf r.1 ∧
        Shows all free₁ lab₁ r image (shownLoads ((elfPheaders image).take n)) k₁.mem := by
    intro n k₁ hk₁
    have hrest : ((elfPheaders image).drop n).foldlM (elfLoadSegment image (k.higherHalf r.1)) k₁ = .ok k' := by
      rw [← List.take_append_drop n (elfPheaders image), List.foldlM_append, hk₁] at hload
      exact hload
    obtain ⟨k₁', free₁, lab₁, hk₁', ho₁, hg₁, _, hs₁⟩ :=
      elfLoadSegments_loaded image hown hr (.inr ⟨k₁, hk₁, elfLoadSegments_oom hrest hoom⟩)
    cases hk₁.symm.trans hk₁'
    exact ⟨free₁, lab₁, ho₁, hg₁.globals.higherHalf r.1, hs₁ _ (.none _ _ _ _ _ _)⟩
  have hhalf : k'.higherHalf r.1 = k.higherHalf r.1 := hg₂.globals.higherHalf r.1
  constructor
  · intro hagree i ph hi ht k₁ hk₁ j hj
    obtain ⟨own, last, hown', hlast', hbyte, hperm⟩ := hagree i ph hi ht j hj
    obtain ⟨free₁, lab₁, ho₁, hhalf₁, hs₁⟩ := hfirst _ _ hk₁
    have hb := hlast.byteAt ho₂ hlast'
    have hb₁ := hs₁.byteAt ho₁ hown'
    have hp := hlast.permitted ph ho₂ hlast'
    rw [hhalf] at hb hp
    rw [hhalf₁] at hb₁
    exact ⟨by rw [hb, hb₁, hbyte], hp.mpr hperm⟩
  · intro hwrap hkept i ph hi ht j hj
    have hmem : ph ∈ elfPheaders image := List.mem_of_getElem? hi
    have hmem' : ph ∈ (elfPheaders image).take (i + 1) := by
      rw [List.take_add_one, hi]
      simp
    obtain ⟨own, hown'⟩ := ElfPheader.shownLoads_some hmem' ht (hwrap ph hmem ht) hj
    obtain ⟨last, hlast'⟩ := ElfPheader.shownLoads_some hmem ht (hwrap ph hmem ht) hj
    cases hk₁ : ((elfPheaders image).take (i + 1)).foldlM (elfLoadSegment image (k.higherHalf r.1)) k with
    | error e =>
        rw [← List.take_append_drop (i + 1) (elfPheaders image), List.foldlM_append, hk₁] at hload
        cases hload
    | ok k₁ =>
        obtain ⟨hsame, hperm⟩ := hkept i ph hi ht k₁ hk₁ j hj
        obtain ⟨free₁, lab₁, ho₁, hhalf₁, hs₁⟩ := hfirst _ _ hk₁
        have hb := hlast.byteAt ho₂ hlast'
        have hb₁ := hs₁.byteAt ho₁ hown'
        have hp := hlast.permitted ph ho₂ hlast'
        rw [hhalf] at hb hp
        rw [hhalf₁] at hb₁
        exact ⟨own, last, hown', hlast', by rw [← hb, ← hb₁, hsame], hp.mp hperm⟩

/-- An executable with a segment of 16 bytes at `0x400000` and one at the given address. -/
def samplePair (vaddr : U64) : Mem :=
  [(0, 0x2464C457F), (16, 2), (24, 0x400000), (32, 64), (56, 2), (64, 0x700000001), (72, 176), (80, 0x400000), (96, 2),
    (104, 16), (120, 0x700000001), (128, 178), (136, vaddr), (152, 2), (160, 16), (176, 0x44332211)].foldl
    (fun m (a, v) => Mem.store64 m a v) (fun _ => 0)

theorem samplePair_agree : SegmentsAgree (samplePair 0x401000) := by
  obtain ⟨hph, hfirst, hsecond⟩ :
      elfPheaders (samplePair 0x401000) = [⟨1, 7, 176, 0x400000, 2, 16⟩, ⟨1, 7, 178, 0x401000, 2, 16⟩] ∧
      (∀ phs ∈ [[⟨1, 7, 176, 0x400000, 2, 16⟩], elfPheaders (samplePair 0x401000)], ∀ j < 16,
        shownLoads phs (pageNo (0x400000 + BitVec.ofNat 64 j)) = some ⟨⟨1, 7, 176, 0x400000, 2, 16⟩, 0x400000⟩) ∧
      ∀ j < 16, shownLoads (elfPheaders (samplePair 0x401000)) (pageNo (0x401000 + BitVec.ofNat 64 j)) =
        some ⟨⟨1, 7, 178, 0x401000, 2, 16⟩, 0x401000⟩ := by
    decide
  intro i ph hi _ j hj
  rw [hph] at hi
  match i with
  | 0 =>
      cases hi
      refine ⟨_, _, ?_, hfirst _ (by simp) j hj, rfl, id, id⟩
      rw [hph]
      exact hfirst _ (by simp) j hj
  | 1 =>
      cases hi
      refine ⟨_, _, ?_, hsecond j hj, rfl, id, id⟩
      rw [List.take_of_length_le (by rw [hph]; rfl)]
      exact hsecond j hj

theorem elf_segments_kept_sample :
    let k := (pmmRequestPage sampleKernel).2
    SegmentsKept (samplePair 0x401000) (0x107000 + sampleOffset) k
      (elfLoadBinary k (samplePair 0x401000) (0x107000 + sampleOffset)).2 := by
  obtain ⟨all, free, r, hr, hk⟩ := sampleKernel_root
  have hpm := sampleKernel_higherHalf hr
  obtain ⟨hentry, hoom⟩ :
      (elfLoadBinary (pmmRequestPage sampleKernel).2 (samplePair 0x401000) (0x107000 + sampleOffset)).1 ≠ 0 ∧
      (elfLoadBinary (pmmRequestPage sampleKernel).2 (samplePair 0x401000)
        (0x107000 + sampleOffset)).2.outOfMemory = false := by
    decide
  dsimp only
  rw [← hpm] at hentry hoom ⊢
  exact (elf_segments_kept hk.owned (by simp) Prod.mk.eta.symm hentry hoom).1 samplePair_agree

/-- The second of two segments on one page takes the bytes of the first away. -/
theorem elf_segments_overwritten :
    let k := (pmmRequestPage sampleKernel).2
    let pm := 0x107000 + sampleOffset
    let k' := (elfLoadBinary k (samplePair 0x400800) pm).2
    elfPheaders (samplePair 0x400800) = [⟨1, 7, 176, 0x400000, 2, 16⟩, ⟨1, 7, 178, 0x400800, 2, 16⟩] ∧
      (elfLoadBinary k (samplePair 0x400800) pm).1 ≠ 0 ∧ k'.outOfMemory = false ∧
      ¬ SegmentsKept (samplePair 0x400800) pm k k' := by
  intro k pm k'
  obtain ⟨hph, hentry, hoom, hrun, hlost⟩ :
      elfPheaders (samplePair 0x400800) = [⟨1, 7, 176, 0x400000, 2, 16⟩, ⟨1, 7, 178, 0x400800, 2, 16⟩] ∧
      (elfLoadBinary k (samplePair 0x400800) pm).1 ≠ 0 ∧ k'.outOfMemory = false ∧
      (((elfPheaders (samplePair 0x400800)).take 1).foldlM (elfLoadSegment (samplePair 0x400800) pm) k).toOption.any
        (fun k₁ => byteAt k₁ pm 0x400000 == 0x11) = true ∧ byteAt k' pm 0x400000 = 0 := by
    decide
  refine ⟨hph, hentry, hoom, fun h => ?_⟩
  obtain ⟨k₁, hk₁, hbyte⟩ := ok_of_any hrun
  rw [beq_iff_eq] at hbyte
  have hsame := (h 0 ⟨1, 7, 176, 0x400000, 2, 16⟩ (by rw [hph]; rfl) rfl k₁ hk₁ 0 (by decide)).1
  have hzero : (0x400000 : U64) + BitVec.ofNat 64 0 = 0x400000 := by decide
  simp only [hzero] at hsame
  rw [hlost, hbyte] at hsame
  exact absurd hsame (by decide)

/-! ## Loading and the kernel's pagemap -/

/-- A kernel whose pagemap maps one page of the upper half. -/
def sampleUpper : State := vmmMap sampleVma sampleVma.kernelPagemap 0xffff800000400000 0x400000 3

theorem sampleUpper_owned : ∃ all free lab r, Owned sampleUpper all free lab ∧ lab r = some (r, []) ∧ r.1 = 0x107000 := by
  obtain ⟨all, free, lab, r, ho, hr, hr1⟩ := sampleVma_owned
  obtain ⟨⟨hpm, hk⟩, _⟩ := sampleVma_eval
  replace hk : sampleVma.kernelPagemap = sampleVma.higherHalf r.1 := by rw [hr1, hpm, hk]
  have hoom : (vmmMap sampleVma (sampleVma.higherHalf r.1) 0xffff800000400000 0x400000 3).outOfMemory = false := by
    rw [← hk]
    decide
  obtain ⟨free', lab', ho', hg, _⟩ := ho.vmmMap hr (.inr hoom)
  rw [← hk] at ho'
  exact ⟨all, free', lab', r, ho', hg.keep hr, hr1⟩

end ShadowOS.Proc
