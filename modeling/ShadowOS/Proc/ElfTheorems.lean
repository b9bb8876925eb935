import ShadowOS.Proc.ElfReads
import ShadowOS.Proc.Theorems

/-!
# Results on what the loader reads
-/

namespace ShadowOS.Proc

open Mm

variable {k : State} {image image' : Mem} {n : U64} {ph : ElfPheader} {pagemap : U64}

/-! ## Ranges of bytes -/

/-- A range that wraps around has the last address, which is no index of an image. -/
theorem indices_below_iff (a n : U64) (m : Nat) : (∀ p ∈ indices a m, p < n) ↔ m = 0 ∨ a.toNat + m ≤ n.toNat := by
  have ha := a.isLt
  have hn := n.isLt
  have hnat : ∀ i, (a + BitVec.ofNat 64 i).toNat = (a.toNat + i) % 2 ^ 64 := fun i => by
    rw [BitVec.toNat_add, BitVec.toNat_ofNat]
    omega
  simp only [indices, List.mem_map, List.mem_range, forall_exists_index, and_imp, forall_apply_eq_imp_iff₂,
    BitVec.lt_def, hnat]
  constructor
  · intro h
    by_cases hwrap : a.toNat + m ≤ 2 ^ 64
    · by_cases hm : m = 0
      · exact .inl hm
      · have := h (m - 1) (by omega)
        omega
    · have := h (2 ^ 64 - 1 - a.toNat) (by omega)
      omega
  · intro h i hi
    omega

/-- What is copied for a page is in the image. -/
theorem elfCopyReads_below_iff {j : Nat} (hj : j < ph.pageCount) :
    (∀ p ∈ elfCopyReads ph (pageAt ph.vaddrStart j), p < n) ↔ CopyInside n ph j := by
  have hcount := ph.pageCount_le
  have hp : pageSize.toNat = 4096 := rfl
  have hsub : pageAt ph.vaddrStart j - ph.vaddrStart = BitVec.ofNat 64 j * pageSize := by
    rw [pageAt, BitVec.add_comm, BitVec.add_sub_cancel]
  have hzero : BitVec.ofNat 64 j * pageSize = 0 ↔ j = 0 := by
    have h0 : (0 : U64).toNat = 0 := rfl
    rw [← BitVec.toNat_inj, BitVec.toNat_mul, BitVec.toNat_ofNat, hp, h0]
    omega
  have hoff : (if j = 0 ∧ 0 < ph.pageOffset then ph.pageOffset else 0) = if j = 0 then ph.pageOffset else 0 := by
    by_cases hpos : 0 < ph.pageOffset
    · simp only [hpos, and_true]
    · have h0 : ph.pageOffset = 0 := by
        rw [BitVec.not_lt] at hpos
        exact BitVec.le_zero_iff.mp hpos
      simp only [h0, ite_self]
  have hlt := ph.dataOffset_lt (BitVec.ofNat 64 j * pageSize)
  simp only [elfCopyReads, CopyInside, hsub]
  simp only [hzero, hoff] at hlt ⊢
  generalize (if j = 0 then ph.pageOffset else 0) = d at hlt ⊢
  generalize ph.pOffset + BitVec.ofNat 64 j * pageSize = start
  generalize ph.pOffset + ph.pFilesz = stop
  have hroom : (pageSize - d).toNat = 4096 - d.toNat := by
    rw [BitVec.toNat_sub, hp]
    omega
  by_cases hin : start < stop
  · have hs := stop.isLt
    have hlen : (stop - start).toNat = stop.toNat - start.toNat := BitVec.toNat_sub_of_le (BitVec.le_of_lt hin)
    simp only [hin, ↓reduceIte, forall_const]
    rw [BitVec.lt_def] at hin
    by_cases hcut : stop < start + (pageSize - d)
    · simp only [hcut, ↓reduceIte, forall_const, not_true_eq_false, false_implies, and_true]
      rw [if_pos (by rw [BitVec.lt_def, hlen]; exact Nat.sub_pos_of_lt hin), indices_below_iff, hlen, BitVec.le_def]
      omega
    · simp only [hcut, ↓reduceIte, false_implies, not_false_eq_true, forall_const, true_and]
      rw [if_pos (by rw [BitVec.lt_def, hroom]; exact Nat.sub_pos_of_lt hlt), indices_below_iff, hroom]
      omega
  · simp [hin]

/-! ## Pages and segments

Each lemma has both directions: images that hold what they name are read inside, and when the frames last, only they are. -/

theorem elfPagesReads_below (image : Mem) (ph : ElfPheader) (pagemap n : U64) (fuel i : Nat) (k : State) (hi : i ≤ ph.pageCount) (hfuel : ph.pageCount - i ≤ fuel) :
    ((∀ j, i ≤ j → j < ph.pageCount → CopyInside n ph j) →
      ∀ p ∈ elfPagesReads image ph pagemap fuel (pageAt ph.vaddrStart i) k, p < n) ∧
    ((∃ k', elfLoadPages image ph pagemap fuel (pageAt ph.vaddrStart i) k = .ok k') →
      (∀ p ∈ elfPagesReads image ph pagemap fuel (pageAt ph.vaddrStart i) k, p < n) →
        ∀ j, i ≤ j → j < ph.pageCount → CopyInside n ph j) := by
  induction fuel generalizing i k with
  | zero =>
      refine ⟨fun _ => by simp [elfPagesReads], fun _ _ j hij hj => ?_⟩
      omega
  | succ fuel ih =>
      simp only [elfPagesReads, elfLoadPages, ph.pageAt_lt_iff hi]
      by_cases hin : i < ph.pageCount
      · simp only [hin, ↓reduceIte]
        cases hpage : elfLoadPage image ph pagemap (pageAt ph.vaddrStart i) k with
        | error k₁ =>
            refine ⟨fun _ => by simp, ?_⟩
            rintro ⟨k', hk'⟩
            cases hk'
        | ok k₁ =>
            obtain ⟨hsuff, hnec⟩ := ih (i + 1) k₁ hin (by omega)
            simp only [List.forall_mem_append, pageAt_succ, elfCopyReads_below_iff hin]
            refine ⟨fun h => ⟨h i le_rfl hin, hsuff fun j hij => h j (by omega)⟩, ?_⟩
            rintro hk' ⟨hcopy, hrest⟩ j hij hj
            rcases Nat.eq_or_lt_of_le hij with rfl | hlt
            · exact hcopy
            · exact hnec hk' hrest j hlt hj
      · simp only [hin, ↓reduceIte]
        exact ⟨fun _ => by simp, fun _ _ j hij hj => absurd (lt_of_le_of_lt hij hj) hin⟩

theorem elfSegmentReads_below (image : Mem) (n pagemap : U64) (k : State) (i : Nat) :
    (PheaderInside image n i → ∀ p ∈ elfSegmentReads image pagemap k i, p < n) ∧
    ((∃ k', elfLoadSegment image pagemap k (elfPheader image i) = .ok k') →
      (∀ p ∈ elfSegmentReads image pagemap k i, p < n) → PheaderInside image n i) := by
  simp only [elfSegmentReads, elfLoadSegment, PheaderInside, List.forall_mem_append, indices_below_iff]
  by_cases ht : (elfPheader image i).pType = ptLoad
  · have hpages := elfPagesReads_below image (elfPheader image i) pagemap n (2 ^ 52) 0 k (Nat.zero_le _)
      (by rw [Nat.sub_zero]; exact ElfPheader.pageCount_le _)
    have hfields : (∀ p ∈ loadFields.flatMap fun f => indices (pheaderAt image i + f.1) f.2, p < n) ↔
        ∀ f ∈ loadFields, (pheaderAt image i + f.1).toNat + f.2 ≤ n.toNat := by
      simp only [List.mem_flatMap, forall_exists_index, and_imp]
      constructor
      · intro h f hf
        have hne : f.2 ≠ 0 := by
          revert hf f
          decide
        exact ((indices_below_iff _ _ _).mp fun p hp => h p f hf hp).resolve_left hne
      · intro h p f hf
        exact (indices_below_iff _ _ _).mpr (.inr (h f hf)) p
    rw [pageAt_zero] at hpages
    simp only [Nat.zero_le, forall_const] at hpages
    generalize (2 : Nat) ^ 52 = fuel at hpages ⊢
    obtain ⟨hsuff, hnec⟩ := hpages
    simp only [ht, ne_eq, not_true_eq_false, ↓reduceIte, List.forall_mem_append, hfields, forall_const]
    refine ⟨fun h => ⟨.inr h.1, h.2.1, hsuff h.2.2⟩, ?_⟩
    rintro hk' ⟨htype, hall, hrest⟩
    exact ⟨htype.resolve_left (by decide), hall, hnec hk' hrest⟩
  · simp only [ht, ne_eq, not_false_eq_true, ↓reduceIte, false_implies, and_true, List.not_mem_nil, implies_true]
    omega

theorem elfSegmentsReads_below (image : Mem) (n pagemap : U64) (is : List Nat) (k : State) :
    (58 ≤ n.toNat → (∀ i ∈ is, PheaderInside image n i) → ∀ p ∈ elfSegmentsReads image pagemap is k, p < n) ∧
    ((∃ k', (is.map (elfPheader image)).foldlM (elfLoadSegment image pagemap) k = .ok k') →
      (∀ p ∈ elfSegmentsReads image pagemap is k, p < n) → 58 ≤ n.toNat ∧ ∀ i ∈ is, PheaderInside image n i) := by
  have h56 : (56 : U64).toNat = 56 := rfl
  have h24 : (24 : U64).toNat = 24 := rfl
  induction is generalizing k with
  | nil =>
      simp only [elfSegmentsReads, List.forall_mem_append, indices_below_iff, h56, h24, List.not_mem_nil, false_implies, implies_true, and_true]
      omega
  | cons i is ih =>
      obtain ⟨hsuff, hnec⟩ := elfSegmentReads_below image n pagemap k i
      simp only [elfSegmentsReads, List.forall_mem_append, indices_below_iff, h56, List.forall_mem_cons, List.map_cons,
        List.foldlM_cons]
      cases hseg : elfLoadSegment image pagemap k (elfPheader image i) with
      | error k₁ =>
          refine ⟨fun h58 h => ⟨.inr h58, hsuff h.1, by simp⟩, ?_⟩
          rintro ⟨k', hk'⟩
          cases hk'
      | ok k₁ =>
          obtain ⟨hsuff', hnec'⟩ := ih k₁
          refine ⟨fun h58 h => ⟨.inr h58, hsuff h.1, hsuff' h58 h.2⟩, ?_⟩
          rintro hk' ⟨_, hfirst, hrest⟩
          obtain ⟨h58, hall⟩ := hnec' hk' hrest
          exact ⟨h58, hnec ⟨k₁, hseg⟩ hfirst, hall⟩

/-- The loader reads inside an image of `n` bytes when every header and every part of a file that it names is there, and, when
the frames last, only then. -/
theorem elf_reads_inside_iff (k : State) (image : Mem) (pagemap n : U64) :
    (ElfInside image n → ∀ p ∈ elfReads k image pagemap, p < n) ∧
    (FramesLast k image pagemap → (∀ p ∈ elfReads k image pagemap, p < n) → ElfInside image n) := by
  have h0 : (0 : U64).toNat = 0 := rfl
  have h4 : (4 : U64).toNat = 4 := rfl
  have h16 : (16 : U64).toNat = 16 := rfl
  have h32 : (32 : U64).toNat = 32 := rfl
  have hseg := elfSegmentsReads_below image n pagemap (List.range (elfHeader image).ePhnum.toNat) k
  simp only [List.mem_range] at hseg
  simp only [elfReads, ElfInside, FramesLast, ElfHeader.Valid, elfPheaders]
  by_cases hm : (elfHeader image).eMagic = elfMagic
  · by_cases hc : (elfHeader image).eClass = 2
    · by_cases ht : (elfHeader image).eType = 2
      · simp only [hm, hc, ht, ne_eq, not_true_eq_false, ↓reduceIte, List.forall_mem_append, indices_below_iff, h0, h4, h16, h32,
          forall_const, and_self]
        obtain ⟨hsuff, hnec⟩ := hseg
        refine ⟨?_, ?_⟩
        · rintro ⟨_, _, _, h58, hall⟩
          exact ⟨by omega, by omega, by omega, by omega, hsuff h58 hall⟩
        · rintro hk' ⟨_, _, _, _, hrest⟩
          obtain ⟨h58, hall⟩ := hnec hk' hrest
          exact ⟨by omega, by omega, by omega, h58, hall⟩
      · simp only [hm, hc, ht, ne_eq, not_true_eq_false, not_false_eq_true, ↓reduceIte, List.forall_mem_append, indices_below_iff,
          h0, h4, h16, List.not_mem_nil, false_implies, forall_const, and_true, and_false]
        omega
    · simp only [hm, hc, ne_eq, not_true_eq_false, not_false_eq_true, ↓reduceIte, List.forall_mem_append, indices_below_iff,
        h0, h4, List.not_mem_nil, false_implies, forall_const, and_true, and_false, false_and]
      omega
  · simp only [hm, ne_eq, not_false_eq_true, ↓reduceIte, List.forall_mem_append, indices_below_iff, h0, List.not_mem_nil,
      false_implies, forall_const, and_true, false_and]
    omega

theorem elf_reads_inside_iff_sample : ∀ p ∈ elfReads (pmmRequestPage sampleKernel).2 (sampleImage 0x400000 2 16)
    (0x107000 + sampleOffset), p < 128 :=
  (elf_reads_inside_iff _ _ _ _).1 (by decide)

/-- An image of 64 bytes that ends with the file header, which names one program header. -/
def headerOnly : Mem :=
  [(0, 0x2464C457F), (16, 2), (32, 64), (56, 1)].foldl (fun m (a, v) => Mem.store64 m a v) (fun _ => 0)

theorem elf_reads_outside : ∃ p ∈ elfReads sampleKernel headerOnly (0x107000 + sampleOffset), ¬ p < 64 :=
  ⟨64, by decide, by decide⟩

/-! ## The reads are all that counts

Images with the same bytes where the loader reads are loaded in the same way. -/

theorem load32_of_indices {a : U64} (h : ∀ p ∈ indices a 4, image' p = image p) : image'.load32 a = image.load32 a := by
  rw [Mem.load32, Mem.load32, Mem.loadNat_congr fun i hi => h _ (List.mem_map.mpr ⟨i, List.mem_range.mpr hi, rfl⟩)]

theorem load16_of_indices {a : U64} (h : ∀ p ∈ indices a 2, image' p = image p) : image'.load16 a = image.load16 a := by
  rw [Mem.load16, Mem.load16, Mem.loadNat_congr fun i hi => h _ (List.mem_map.mpr ⟨i, List.mem_range.mpr hi, rfl⟩)]

theorem load64_of_indices {a : U64} (h : ∀ p ∈ indices a 8, image' p = image p) : image'.load64 a = image.load64 a :=
  Mem.load64_congr fun i hi => h _ (List.mem_map.mpr ⟨i, List.mem_range.mpr hi, rfl⟩)

theorem copyFrom_of_indices {m : Mem} {a s : U64} {c : Nat} (h : ∀ p ∈ indices s c, image' p = image p) :
    m.copyFrom a image' s c = m.copyFrom a image s c := by
  funext x
  simp only [Mem.copyFrom]
  split
  · rename_i hx
    refine h _ (List.mem_map.mpr ⟨_, List.mem_range.mpr hx, ?_⟩)
    rw [BitVec.ofNat_toNat, BitVec.setWidth_eq]
  · rfl

theorem elfCopy_congr {phys vaddr : U64} (k : State) (h : ∀ p ∈ elfCopyReads ph vaddr, image' p = image p) :
    elfCopy image' ph phys vaddr k = elfCopy image ph phys vaddr k := by
  simp only [elfCopyReads] at h
  simp only [elfCopy]
  split
  · rename_i hin
    rw [if_pos hin] at h
    generalize (if vaddr - ph.vaddrStart = 0 ∧ 0 < ph.pageOffset then ph.pageOffset else 0) = d at h ⊢
    generalize (if ph.pOffset + ph.pFilesz < ph.pOffset + (vaddr - ph.vaddrStart) + (pageSize - d) then
      ph.pOffset + ph.pFilesz - (ph.pOffset + (vaddr - ph.vaddrStart)) else pageSize - d) = c at h ⊢
    split
    · rename_i hpos
      rw [if_pos hpos] at h
      rw [copyFrom_of_indices h]
    · rfl
  · rfl

theorem elfLoadPage_congr {vaddr : U64}
    (h : ∀ k', elfLoadPage image ph pagemap vaddr k = .ok k' → ∀ p ∈ elfCopyReads ph vaddr, image' p = image p) :
    elfLoadPage image' ph pagemap vaddr k = elfLoadPage image ph pagemap vaddr k := by
  simp only [elfLoadPage] at h ⊢
  split
  · rfl
  · rename_i h0
    rw [if_neg h0] at h
    rw [elfCopy_congr _ (h _ rfl)]

theorem bind_congr_of_ok {ε α β : Type} {x : Except ε α} {f g : α → Except ε β} (h : ∀ a, x = .ok a → f a = g a) :
    x >>= f = x >>= g := by
  cases x with
  | error e => rfl
  | ok a => exact h a rfl

theorem elfLoadPages_congr {fuel : Nat} {vaddr : U64}
    (h : ∀ p ∈ elfPagesReads image ph pagemap fuel vaddr k, image' p = image p) :
    elfLoadPages image' ph pagemap fuel vaddr k = elfLoadPages image ph pagemap fuel vaddr k := by
  induction fuel generalizing vaddr k with
  | zero => rfl
  | succ fuel ih =>
      simp only [elfPagesReads] at h
      simp only [elfLoadPages]
      split
      · rename_i hin
        rw [if_pos hin] at h
        rw [elfLoadPage_congr fun k' hk' p hp => h p (by rw [hk']; exact List.mem_append_left _ hp)]
        refine bind_congr_of_ok fun k₁ hpage => ?_
        rw [hpage] at h
        exact ih fun p hp => h p (List.mem_append_right _ hp)
      · rfl

/-- The program headers are at the same place, and so they are the same as far as they are read. -/
theorem elfLoadSegment_congr {i : Nat} (hoff : (elfHeader image').ePhoff = (elfHeader image).ePhoff)
    (h : ∀ p ∈ elfSegmentReads image pagemap k i, image' p = image p) :
    elfLoadSegment image' pagemap k (elfPheader image' i) = elfLoadSegment image pagemap k (elfPheader image i) := by
  simp only [elfSegmentReads, List.forall_mem_append] at h
  obtain ⟨htype, hrest⟩ := h
  have ht : (elfPheader image' i).pType = (elfPheader image i).pType := by
    simp only [elfPheader, hoff]
    exact load32_of_indices htype
  by_cases hload : (elfPheader image i).pType = ptLoad
  · simp only [hload, ne_eq, not_true_eq_false, ↓reduceIte, loadFields, List.flatMap_cons, List.flatMap_nil, List.append_nil,
      List.forall_mem_append] at hrest
    obtain ⟨⟨h16, h40, h8, h4, h32⟩, hpages⟩ := hrest
    have hph : elfPheader image' i = elfPheader image i := by
      simp only [elfPheader, ElfPheader.mk.injEq] at ht ⊢
      refine ⟨ht, ?_, ?_, ?_, ?_, ?_⟩
      · rw [hoff]
        exact load32_of_indices h4
      · rw [hoff]
        exact load64_of_indices h8
      · rw [hoff]
        exact load64_of_indices h16
      · rw [hoff]
        exact load64_of_indices h32
      · rw [hoff]
        exact load64_of_indices h40
    simp only [elfLoadSegment, hph]
    rw [elfLoadPages_congr hpages]
  · simp only [elfLoadSegment, ht, hload, ne_eq, not_false_eq_true, ↓reduceIte]

theorem elfLoadSegments_congr {is : List Nat} (hoff : (elfHeader image').ePhoff = (elfHeader image).ePhoff)
    (h : ∀ p ∈ elfSegmentsReads image pagemap is k, image' p = image p) :
    (is.map (elfPheader image')).foldlM (elfLoadSegment image' pagemap) k =
      (is.map (elfPheader image)).foldlM (elfLoadSegment image pagemap) k := by
  induction is generalizing k with
  | nil => simp only [List.map_nil, List.foldlM_nil]
  | cons i is ih =>
      simp only [elfSegmentsReads, List.forall_mem_append] at h
      obtain ⟨_, hfirst, hrest⟩ := h
      simp only [List.map_cons, List.foldlM_cons]
      rw [elfLoadSegment_congr hoff hfirst]
      refine bind_congr_of_ok fun k₁ hseg => ?_
      rw [hseg] at hrest
      exact ih hrest

/-- Before the loop ends, `e_phnum` was read; after it ends, `e_entry`. -/
theorem phnum_reads (image : Mem) (pagemap : U64) (is : List Nat) (k : State) :
    ∀ p ∈ indices 56 2, p ∈ elfSegmentsReads image pagemap is k := by
  intro p hp
  cases is with
  | nil => exact List.mem_append_left _ hp
  | cons i is => exact List.mem_append_left _ hp

theorem entry_reads {is : List Nat} {k' : State}
    (h : (is.map (elfPheader image)).foldlM (elfLoadSegment image pagemap) k = .ok k') :
    ∀ p ∈ indices 24 8, p ∈ elfSegmentsReads image pagemap is k := by
  induction is generalizing k with
  | nil => exact fun p hp => List.mem_append_right _ hp
  | cons i is ih =>
      rw [List.map_cons, List.foldlM_cons] at h
      cases hseg : elfLoadSegment image pagemap k (elfPheader image i) with
      | error k₁ =>
          rw [hseg] at h
          cases h
      | ok k₁ =>
          rw [hseg] at h
          intro p hp
          simp only [elfSegmentsReads, hseg]
          exact List.mem_append_right _ (List.mem_append_right _ (ih h p hp))

/-- What is loaded depends on nothing but the bytes that are read. -/
theorem elfLoadBinary_congr (h : ∀ p ∈ elfReads k image pagemap, image' p = image p) :
    elfLoadBinary k image' pagemap = elfLoadBinary k image pagemap := by
  simp only [elfReads, List.forall_mem_append] at h
  obtain ⟨hmagic, h⟩ := h
  have hm : (elfHeader image').eMagic = (elfHeader image).eMagic := load32_of_indices hmagic
  by_cases hm' : (elfHeader image).eMagic = elfMagic
  swap
  · simp only [elfLoadBinary, ElfHeader.Valid, hm, hm', false_and, ↓reduceIte]
  simp only [hm', ne_eq, not_true_eq_false, ↓reduceIte, List.forall_mem_append] at h
  obtain ⟨hclass, h⟩ := h
  have hc : (elfHeader image').eClass = (elfHeader image).eClass := hclass 4 (by decide)
  by_cases hc' : (elfHeader image).eClass = 2
  swap
  · simp only [elfLoadBinary, ElfHeader.Valid, hc, hc', false_and, and_false, ↓reduceIte]
  simp only [hc', not_true_eq_false, ↓reduceIte, List.forall_mem_append] at h
  obtain ⟨htype, h⟩ := h
  have ht : (elfHeader image').eType = (elfHeader image).eType := load16_of_indices htype
  by_cases ht' : (elfHeader image).eType = 2
  swap
  · simp only [elfLoadBinary, ElfHeader.Valid, ht, ht', and_false, ↓reduceIte]
  simp only [ht', not_true_eq_false, ↓reduceIte, List.forall_mem_append] at h
  obtain ⟨hoff, h⟩ := h
  have hphoff : (elfHeader image').ePhoff = (elfHeader image).ePhoff := load64_of_indices hoff
  have hphnum : (elfHeader image').ePhnum = (elfHeader image).ePhnum :=
    load16_of_indices fun p hp => h p (phnum_reads _ _ _ _ p hp)
  have hsegs := elfLoadSegments_congr hphoff h
  simp only [elfLoadBinary, ElfHeader.Valid, elfPheaders, hm, hm', hc, hc', ht, ht', hphnum, hsegs, and_self, ↓reduceIte]
  cases hres : ((List.range (elfHeader image).ePhnum.toNat).map (elfPheader image)).foldlM (elfLoadSegment image pagemap) k with
  | error k' => rfl
  | ok k' =>
      have hentry : (elfHeader image').eEntry = (elfHeader image).eEntry :=
        load64_of_indices fun p hp => h p (entry_reads hres p hp)
      rw [hentry]

/-! ## Copies -/

/-- A copy for a page starts at an offset in its frame and ends before the frame does. -/
theorem elfPageCopies_cases {phys vaddr : U64} {c : FrameCopy} (hc : c ∈ elfPageCopies ph phys vaddr k) :
    ∃ d n, c = ⟨phys, d, phys + d, n⟩ ∧ d.toNat + n ≤ 4096 := by
  have hlt := ph.dataOffset_lt (vaddr - ph.vaddrStart)
  simp only [elfPageCopies, State.physical_higherHalf_add] at hc
  generalize (if vaddr - ph.vaddrStart = 0 ∧ 0 < ph.pageOffset then ph.pageOffset else 0) = d at hc hlt
  by_cases hfile : ph.pOffset + (vaddr - ph.vaddrStart) < ph.pOffset + ph.pFilesz
  · have hsize := copySize_le hlt hfile
    simp only [hfile, ↓reduceIte] at hc
    generalize (if ph.pOffset + ph.pFilesz < ph.pOffset + (vaddr - ph.vaddrStart) + (pageSize - d) then
      ph.pOffset + ph.pFilesz - (ph.pOffset + (vaddr - ph.vaddrStart)) else pageSize - d) = n at hc hsize
    by_cases hn : 0 < n
    · rw [if_pos hn, List.mem_singleton] at hc
      exact ⟨d, n.toNat, hc, by omega⟩
    · rw [if_neg hn] at hc
      exact absurd hc List.not_mem_nil
  · simp only [hfile, ↓reduceIte] at hc
    exact absurd hc List.not_mem_nil

theorem elfPageCopies_inFrame {phys vaddr : U64} {c : FrameCopy} (hc : c ∈ elfPageCopies ph phys vaddr k) : c.InFrame := by
  obtain ⟨d, n, rfl, hn⟩ := elfPageCopies_cases hc
  refine ⟨hn, fun j hj => ?_⟩
  have hsub : phys + d + BitVec.ofNat 64 j - phys = d + BitVec.ofNat 64 j := by
    rw [BitVec.add_assoc, BitVec.add_comm, BitVec.add_sub_cancel]
  replace hj : j < n := hj
  rw [hsub, BitVec.toNat_add, BitVec.toNat_ofNat]
  omega

theorem elfPagesCopies_inFrame {fuel : Nat} {vaddr : U64} {c : FrameCopy}
    (hc : c ∈ elfPagesCopies image ph pagemap fuel vaddr k) : c.InFrame := by
  induction fuel generalizing vaddr k with
  | zero => exact absurd hc List.not_mem_nil
  | succ fuel ih =>
      simp only [elfPagesCopies] at hc
      split at hc
      · split at hc
        · exact absurd hc List.not_mem_nil
        · rcases List.mem_append.mp hc with hc | hc
          · exact elfPageCopies_inFrame hc
          · exact ih hc
      · exact absurd hc List.not_mem_nil

theorem elfSegmentsCopies_inFrame {phs : List ElfPheader} {c : FrameCopy}
    (hc : c ∈ elfSegmentsCopies image pagemap phs k) : c.InFrame := by
  induction phs generalizing k with
  | nil => exact absurd hc List.not_mem_nil
  | cons ph phs ih =>
      simp only [elfSegmentsCopies, List.mem_append] at hc
      rcases hc with hc | hc
      · split at hc
        · exact absurd hc List.not_mem_nil
        · exact elfPagesCopies_inFrame hc
      · split at hc
        · exact absurd hc List.not_mem_nil
        · exact ih hc

/-- A byte that no `memcpy` writes stays. -/
theorem elfCopy_of_notMem (image : Mem) {phys vaddr p : U64}
    (h : ∀ c ∈ elfPageCopies ph phys vaddr k, ¬ (p - c.dest).toNat < c.size) :
    (elfCopy image ph phys vaddr k).mem p = k.mem p := by
  simp only [elfPageCopies] at h
  simp only [elfCopy]
  generalize (if vaddr - ph.vaddrStart = 0 ∧ 0 < ph.pageOffset then ph.pageOffset else 0) = d at h ⊢
  generalize (if ph.pOffset + ph.pFilesz < ph.pOffset + (vaddr - ph.vaddrStart) + (pageSize - d) then
    ph.pOffset + ph.pFilesz - (ph.pOffset + (vaddr - ph.vaddrStart)) else pageSize - d) = n at h ⊢
  split
  · rename_i hfile
    rw [if_pos hfile] at h
    split
    · rename_i hpos
      rw [if_pos hpos] at h
      exact if_neg (h _ (List.mem_singleton_self _))
    · rfl
  · rfl

/-- The copy for a page leaves everything but its frame as it is. -/
theorem elfCopy_outside (image : Mem) {phys vaddr p : U64} (hp : 4096 ≤ (p - phys).toNat) :
    (elfCopy image ph phys vaddr k).mem p = k.mem p := by
  refine elfCopy_of_notMem image fun c hc hlt => ?_
  obtain ⟨d, n, rfl, hn⟩ := elfPageCopies_cases hc
  replace hlt : (p - (phys + d)).toNat < n := hlt
  have hsub : p - phys = p - (phys + d) + d := by
    rw [← BitVec.sub_sub, BitVec.sub_add_cancel]
  rw [hsub, BitVec.toNat_add] at hp
  omega

/-- More turns than the segment has pages change nothing. -/
theorem elfLoadPages_enough (image : Mem) (ph : ElfPheader) (pagemap : U64) (k : State) {i fuel : Nat} (hi : i ≤ ph.pageCount)
    (hfuel : ph.pageCount - i ≤ fuel) :
    elfLoadPages image ph pagemap fuel (pageAt ph.vaddrStart i) k =
      elfLoadPages image ph pagemap (ph.pageCount - i) (pageAt ph.vaddrStart i) k := by
  induction fuel generalizing i k with
  | zero =>
      have hend : ph.pageCount - i = 0 := by omega
      rw [hend]
  | succ fuel ih =>
      by_cases hin : i < ph.pageCount
      · obtain ⟨n, hn⟩ : ∃ n, ph.pageCount - i = n + 1 := ⟨ph.pageCount - i - 1, by omega⟩
        have hrest : ph.pageCount - (i + 1) = n := by omega
        simp only [hn, elfLoadPages, ph.pageAt_lt_iff hi, hin, ↓reduceIte, pageAt_succ]
        cases elfLoadPage image ph pagemap (pageAt ph.vaddrStart i) k with
        | error k₁ => rfl
        | ok k₁ =>
            have hnext := ih k₁ hin (by omega)
            rw [hrest] at hnext
            exact hnext
      · have hend : ph.pageCount - i = 0 := by omega
        simp only [hend, elfLoadPages, ph.pageAt_lt_iff hi, hin, ↓reduceIte]

/-- For all contents of the program headers, every `memcpy` of the loader stays in the frame that was requested for its page,
and the loops over the pages end. -/
theorem elf_copies_in_frame (k : State) (image : Mem) (pagemap : U64) :
    (∀ c ∈ elfCopies k image pagemap, c.InFrame) ∧
      (∀ (ph : ElfPheader) (phys vaddr p : U64) (k : State), 4096 ≤ (p - phys).toNat →
        (elfCopy image ph phys vaddr k).mem p = k.mem p) ∧
      ∀ ph, PageLoopEnds ph := by
  refine ⟨fun c hc => ?_, fun ph phys vaddr p k hp => elfCopy_outside image hp, fun ph => ?_⟩
  · rw [elfCopies] at hc
    split at hc
    · exact elfSegmentsCopies_inFrame hc
    · exact absurd hc List.not_mem_nil
  · refine ⟨ph.pageCount, ph.pageCount_le, ?_, fun image pagemap k fuel hfuel => ?_⟩
    · exact fun hlt => Nat.lt_irrefl _ ((ph.pageAt_lt_iff le_rfl).mp hlt)
    · have henough := elfLoadPages_enough image ph pagemap k (Nat.zero_le _) hfuel
      rwa [pageAt_zero] at henough

end ShadowOS.Proc
