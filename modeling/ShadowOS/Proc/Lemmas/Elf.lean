import ShadowOS.Proc.Spec
import ShadowOS.Mm.Lemmas.Loaded

/-!
# What loading a segment does
-/

namespace ShadowOS.Proc

open Mm

variable {k k' : State} {all free free' : List Frame} {lab lab' : Labels} {r : Frame} {image : Mem} {ph : ElfPheader}

/-! ## Addresses -/

namespace ElfPheader

theorem pageOffset_toNat (ph : ElfPheader) : ph.pageOffset.toNat = ph.pVaddr.toNat % 4096 := by
  have hp : (pageSize - 1).toNat = 2 ^ 12 - 1 := rfl
  rw [pageOffset, BitVec.toNat_and, hp, Nat.and_two_pow_sub_one_eq_mod]

theorem pageCount_le (ph : ElfPheader) : ph.pageCount ≤ 2 ^ 52 := by
  have := ph.vaddrEnd.isLt
  rw [pageCount]
  omega

theorem pageAt_toNat (ph : ElfPheader) {i : Nat} (hi : i ≤ ph.pageCount) :
    (pageAt ph.vaddrStart i).toNat = ph.vaddrStart.toNat + i * 4096 := by
  have he := ph.vaddrEnd.isLt
  have hs := ph.vaddrStart.isLt
  have hp : pageSize.toNat = 4096 := rfl
  rw [pageCount] at hi
  rw [pageAt, BitVec.toNat_add, BitVec.toNat_mul, BitVec.toNat_ofNat, hp]
  omega

theorem pageAt_lt_iff (ph : ElfPheader) {i : Nat} (hi : i ≤ ph.pageCount) :
    pageAt ph.vaddrStart i < ph.vaddrEnd ↔ i < ph.pageCount := by
  have hs : ph.vaddrStart.toNat % 4096 = 0 := by
    rw [vaddrStart, alignDown_toNat]
    omega
  have he : ph.vaddrEnd.toNat % 4096 = 0 := by
    rw [vaddrEnd, alignUp_toNat]
    omega
  rw [BitVec.lt_def, ph.pageAt_toNat hi]
  rw [pageCount] at hi ⊢
  omega

theorem flags_and_addrMask (ph : ElfPheader) : ph.flags &&& addrMask = 0 := by
  simp only [flags]
  split
  · split
    · decide
    · decide
  · split
    · decide
    · decide

end ElfPheader

theorem pageAt_succ (start : U64) (i : Nat) : pageAt start i + pageSize = pageAt start (i + 1) := by
  have h1 : BitVec.ofNat 64 (i + 1) * pageSize = BitVec.ofNat 64 i * pageSize + pageSize := by
    rw [BitVec.ofNat_add, BitVec.add_mul]
    exact congrArg _ (BitVec.one_mul _)
  rw [pageAt, pageAt, h1, BitVec.add_assoc]

/-! ## The copy -/

/-- Where in the page the copy starts. -/
theorem ElfPheader.dataOffset_lt (ph : ElfPheader) (d : U64) :
    (if d = 0 ∧ 0 < ph.pageOffset then ph.pageOffset else 0).toNat < 4096 := by
  have ho := ph.pageOffset_toNat
  split
  · omega
  · decide

/-- How many bytes are copied. -/
theorem copySize_le {copyOffset fileDataEnd d : U64} (hd : d.toNat < 4096) (hlt : copyOffset < fileDataEnd) :
    (if fileDataEnd < copyOffset + (pageSize - d) then fileDataEnd - copyOffset else pageSize - d).toNat ≤
      4096 - d.toNat := by
  have hp : pageSize.toNat = 4096 := rfl
  have hsz : (pageSize - d).toNat = 4096 - d.toNat := by
    rw [BitVec.toNat_sub, hp]
    omega
  split
  · rename_i hgt
    have he := fileDataEnd.isLt
    rw [BitVec.lt_def] at hlt hgt
    rw [BitVec.toNat_add, hsz] at hgt
    rw [BitVec.toNat_sub]
    omega
  · exact hsz.le

/-- The copy stays inside the frame. -/
theorem elfCopy_eq (image : Mem) (ph : ElfPheader) (f : Frame) (vaddr : U64) (k : State) :
    ∃ m, elfCopy image ph f.1 vaddr k = { k with mem := m } ∧ Mem.EqOutside {f} k.mem m := by
  have hid : ∃ m, k = { k with mem := m } ∧ Mem.EqOutside {f} k.mem m := ⟨k.mem, rfl, Mem.EqOutside.refl _ _⟩
  have hd := ph.dataOffset_lt (vaddr - ph.vaddrStart)
  simp only [elfCopy]
  generalize (if vaddr - ph.vaddrStart = 0 ∧ 0 < ph.pageOffset then ph.pageOffset else 0) = d at hd
  by_cases hlt : ph.pOffset + (vaddr - ph.vaddrStart) < ph.pOffset + ph.pFilesz
  · have hn := copySize_le hd hlt
    simp only [hlt, ↓reduceIte]
    generalize (if ph.pOffset + ph.pFilesz < ph.pOffset + (vaddr - ph.vaddrStart) + (pageSize - d) then
      ph.pOffset + ph.pFilesz - (ph.pOffset + (vaddr - ph.vaddrStart)) else pageSize - d) = n at hn
    split
    · refine ⟨_, rfl, fun x hx => ?_⟩
      rw [State.physical_higherHalf_add, Mem.copyFrom, if_neg]
      intro hc
      refine hx ((Mem.sub_lt_iff_of f x).mp ?_)
      have hxs := BitVec.toNat_sub x (f.1 + d)
      have hfd := Frame.toNat_add f hd
      have hx64 := x.isLt
      have hf64 := f.1.isLt
      rw [BitVec.toNat_sub]
      omega
    · exact hid
  · simp only [hlt, ↓reduceIte]
    exact hid

/-- The byte that the loop puts at offset `b` of the page `d` bytes after the start of the segment. -/
def pageByte (image : Mem) (ph : ElfPheader) (d b : Nat) : U8 :=
  let pageDataOffset := if d = 0 then ph.pVaddr.toNat % 4096 else 0
  if pageDataOffset ≤ b ∧ d + (b - pageDataOffset) < ph.pFilesz.toNat then
    image (ph.pOffset + BitVec.ofNat 64 (d + (b - pageDataOffset)))
  else 0

theorem ElfPheader.dataOffset_toNat (ph : ElfPheader) (d : U64) :
    (if d = 0 ∧ 0 < ph.pageOffset then ph.pageOffset else 0).toNat =
      if d.toNat = 0 then ph.pVaddr.toNat % 4096 else 0 := by
  have hpo := ph.pageOffset_toNat
  by_cases h0 : d = 0
  · subst h0
    split
    · exact hpo
    · rename_i h
      simp only [true_and, BitVec.lt_def, BitVec.ofNat_eq_ofNat, BitVec.toNat_ofNat, Nat.zero_mod] at h ⊢
      rw [hpo] at h
      simp only [↓reduceIte]
      omega
  · have hn : ¬ d.toNat = 0 := fun h => h0 (BitVec.eq_of_toNat_eq h)
    simp only [h0, hn, false_and, ↓reduceIte]
    rfl

theorem copySize_toNat {copyOffset fileDataEnd d : U64} (hd : d.toNat < 4096) (hlt : copyOffset < fileDataEnd)
    (hend : fileDataEnd.toNat ≤ 2 ^ 63) :
    (if fileDataEnd < copyOffset + (pageSize - d) then fileDataEnd - copyOffset else pageSize - d).toNat =
      min (fileDataEnd.toNat - copyOffset.toNat) (4096 - d.toNat) := by
  have hp : pageSize.toNat = 4096 := rfl
  have hsz : (pageSize - d).toNat = 4096 - d.toNat := by
    rw [BitVec.toNat_sub, hp]
    omega
  rw [BitVec.lt_def] at hlt
  split
  · rename_i hgt
    rw [BitVec.lt_def, BitVec.toNat_add, hsz] at hgt
    rw [BitVec.toNat_sub]
    omega
  · rename_i hgt
    rw [BitVec.lt_def, BitVec.toNat_add, hsz] at hgt
    omega

/-- Bytes of a frame that a copy to its offset `o` reaches. -/
theorem copyFrom_byte (m src : Mem) (f : Frame) {o s : U64} {b n : Nat} (hb : b < 4096) (hn : n ≤ 4096 - o.toNat) :
    m.copyFrom (f.1 + o) src s n (f.1 + BitVec.ofNat 64 b) =
      if o.toNat ≤ b ∧ b - o.toNat < n then src (s + BitVec.ofNat 64 (b - o.toNat)) else m (f.1 + BitVec.ofNat 64 b) := by
  have hx : f.1 + BitVec.ofNat 64 b - (f.1 + o) = BitVec.ofNat 64 b - o := by
    bv_omega
  have ho := o.isLt
  rw [Mem.copyFrom, hx]
  by_cases hob : o.toNat ≤ b
  · have hs : BitVec.ofNat 64 b - o = BitVec.ofNat 64 (b - o.toNat) := by
      apply BitVec.eq_of_toNat_eq
      rw [BitVec.toNat_sub, BitVec.toNat_ofNat, BitVec.toNat_ofNat]
      omega
    have hs' : (BitVec.ofNat 64 (b - o.toNat)).toNat = b - o.toNat := by
      rw [BitVec.toNat_ofNat]
      omega
    simp only [hs, hs', hob, true_and]
  · have hs' : ¬ (BitVec.ofNat 64 b - o).toNat < n := by
      rw [BitVec.toNat_sub, BitVec.toNat_ofNat]
      omega
    simp only [hs', hob, false_and, ↓reduceIte]

/-- A zeroed frame gets the bytes of its page. -/
theorem elfCopy_load (image : Mem) (ph : ElfPheader) (vaddr : U64) {f : Frame} {b : Nat} (hzero : ∀ b < 4096, k.mem (f.1 + BitVec.ofNat 64 b) = 0)
    (hb : b < 4096) : (elfCopy image ph f.1 vaddr k).mem (f.1 + BitVec.ofNat 64 b) = (PageLoad.mk ph vaddr).byte image b := by
  have hd := ph.dataOffset_lt (vaddr - ph.vaddrStart)
  simp only [elfCopy, PageLoad.byte]
  generalize (if vaddr - ph.vaddrStart = 0 ∧ 0 < ph.pageOffset then ph.pageOffset else 0) = o at hd ⊢
  by_cases hlt : ph.pOffset + (vaddr - ph.vaddrStart) < ph.pOffset + ph.pFilesz
  · have hn := copySize_le hd hlt
    simp only [hlt, ↓reduceIte, true_and]
    generalize (if ph.pOffset + ph.pFilesz < ph.pOffset + (vaddr - ph.vaddrStart) + (pageSize - o) then
      ph.pOffset + ph.pFilesz - (ph.pOffset + (vaddr - ph.vaddrStart)) else pageSize - o) = n at hn ⊢
    split
    · simp only [State.physical_higherHalf_add]
      rw [copyFrom_byte _ _ _ hb hn, hzero b hb]
    · rename_i hn0
      have hn0 : n.toNat = 0 := by
        rw [BitVec.lt_def] at hn0
        simpa using hn0
      rw [hzero b hb, if_neg (by omega)]
  · simp only [hlt, ↓reduceIte, false_and]
    exact hzero b hb

/-- Without overflow, the file part of a page starts where the segment starts or at the start of the page. -/
theorem PageLoad.byte_eq (image : Mem) {vaddr : U64} {d b : Nat} (hd : (vaddr - ph.vaddrStart).toNat = d) (hd' : d ≤ 2 ^ 62)
    (hfile : ph.pOffset.toNat + ph.pFilesz.toNat ≤ 2 ^ 63) (hb : b < 4096) :
    (PageLoad.mk ph vaddr).byte image b = pageByte image ph d b := by
  have hdl := ph.dataOffset_lt (vaddr - ph.vaddrStart)
  have hdo := ph.dataOffset_toNat (vaddr - ph.vaddrStart)
  have hend : (ph.pOffset + ph.pFilesz).toNat = ph.pOffset.toNat + ph.pFilesz.toNat := by
    rw [BitVec.toNat_add]
    omega
  have hoff : (ph.pOffset + (vaddr - ph.vaddrStart)).toNat = ph.pOffset.toNat + d := by
    rw [BitVec.toNat_add, hd]
    omega
  rw [hd] at hdo
  simp only [PageLoad.byte, pageByte]
  rw [← hdo]
  generalize (if vaddr - ph.vaddrStart = 0 ∧ 0 < ph.pageOffset then ph.pageOffset else 0) = o at hdl ⊢
  have hsrc : ph.pOffset + (vaddr - ph.vaddrStart) + BitVec.ofNat 64 (b - o.toNat) =
      ph.pOffset + BitVec.ofNat 64 (d + (b - o.toNat)) := by
    rw [BitVec.add_assoc, BitVec.ofNat_add, ← hd, BitVec.ofNat_toNat, BitVec.setWidth_eq]
  rw [hsrc]
  refine if_congr ?_ rfl rfl
  by_cases hlt : ph.pOffset + (vaddr - ph.vaddrStart) < ph.pOffset + ph.pFilesz
  · have hn := copySize_toNat hdl hlt (by omega)
    rw [hoff, hend] at hn
    rw [hn]
    rw [BitVec.lt_def, hoff, hend] at hlt ⊢
    omega
  · rw [BitVec.lt_def, hoff, hend] at hlt ⊢
    omega

/-! ## One page -/

theorem elfCopy_oom (image : Mem) (ph : ElfPheader) (phys vaddr : U64) (k : State) :
    (elfCopy image ph phys vaddr k).outOfMemory = k.outOfMemory := by
  simp only [elfCopy, apply_ite State.outOfMemory, ite_self]

theorem elfLoadPage_oom {pm vaddr : U64} (hres : elfLoadPage image ph pm vaddr k = .ok k')
    (hoom : k'.outOfMemory = false) :
    (vmmMap (pmmRequestPage k).2 pm vaddr (pmmRequestPage k).1 ph.flags).outOfMemory = false := by
  simp only [elfLoadPage] at hres
  split at hres
  · cases hres
  · rw [← Except.ok.inj hres, elfCopy_oom, State.memset_oom] at hoom
    exact hoom

/-- The pages show the loads: each has a frame in use with the bytes and the flags of its load. -/
def Shows (all free : List Frame) (lab : Labels) (r : Frame) (image : Mem) (shown : BitVec 36 → Option PageLoad) (m : Mem) : Prop :=
  ∀ v l, shown (pageNo v) = some l → ∃ f, Held all free lab f ∧ leaf m r v = f.1 ||| l.ph.flags ∧
    ∀ b < 4096, m (f.1 + BitVec.ofNat 64 b) = l.byte image b

/-- A page gets a zeroed frame with its part of the file. -/
theorem elfLoadPage_loaded {vaddr : U64} (h : Owned k all free lab) (hr : lab r = some (r, []))
    (hoom : 4 ≤ free.length ∨
      ∃ k', elfLoadPage image ph (k.higherHalf r.1) vaddr k = .ok k' ∧ k'.outOfMemory = false) :
    ∃ f k' free' lab', elfLoadPage image ph (k.higherHalf r.1) vaddr k = .ok k' ∧ Owned k' all free' lab' ∧
      Grows k free lab k' free' lab' ∧ free.length ≤ free'.length + 4 ∧ Held all free' lab' f ∧
      Loaded all free lab free' lab' r {pageNo vaddr} k.mem k'.mem ∧
      (∀ v, leaf k'.mem r v = if pageNo v = pageNo vaddr then f.1 ||| ph.flags else leaf k.mem r v) ∧
      ∀ b < 4096, k'.mem (f.1 + BitVec.ofNat 64 b) = (PageLoad.mk ph vaddr).byte image b := by
  have hmap := hoom.imp_right fun ⟨k', hres, hk'⟩ => elfLoadPage_oom hres hk'
  have hleaf := h.mapPage_leaf vaddr ph.flags hr hmap
  obtain ⟨f, k₁, free₁, lab₁, hf, hf0, hff, hk₁, ho₁, hg₁, hn₁, _, hfh, hl₁⟩ := h.mapPage vaddr ph.flags hr hmap
  obtain ⟨_, hld⟩ := hl₁ ph.flags_and_addrMask
  rw [hf, hk₁] at hleaf
  have hfill := Mem.EqOutside.fill k₁.mem f 0 le_rfl
  obtain ⟨m, hm, hcopy⟩ := elfCopy_eq image ph f vaddr { k₁ with mem := k₁.mem.fill f.1 0 4096 }
  have hout : Mem.EqOutside {f} k₁.mem m := hfill.trans hcopy
  have hheld : ∀ g ∈ ({f} : Set Frame), Held all free₁ lab₁ g := by
    rintro g rfl
    exact hfh
  have hres : elfLoadPage image ph (k.higherHalf r.1) vaddr k = .ok { k₁ with mem := m } := by
    simp only [elfLoadPage, hf, hf0, ↓reduceIte, hk₁, memset_frame, hm]
  refine ⟨f, { k₁ with mem := m }, free₁, lab₁, hres, ho₁.write hout hheld, hg₁.write hout (by rintro g rfl; exact hff), hn₁,
    hfh, hld.write ho₁.tables hg₁.keep hr hout (fun g hg => (hheld g hg).notTable), fun v => ?_, fun b hb => ?_⟩
  · rw [← hleaf v]
    exact ho₁.leaf_write hout (fun g hg => (hheld g hg).notTable) (hg₁.keep hr) v
  have hzero : ∀ b < 4096, (k₁.mem.fill f.1 0 4096) (f.1 + BitVec.ofNat 64 b) = 0 := by
    intro b hb
    rw [Mem.fill_frame_apply, if_pos (Frame.of_add f (by rw [BitVec.toNat_ofNat]; omega))]
  have hbyte := elfCopy_load image ph vaddr (k := { k₁ with mem := k₁.mem.fill f.1 0 4096 }) hzero hb
  rw [hm] at hbyte
  exact hbyte

/-! ## The pages of a segment -/

theorem elfLoadPages_oom {pm : U64} {fuel : Nat} {vaddr : U64} (hres : elfLoadPages image ph pm fuel vaddr k = .ok k')
    (hoom : k'.outOfMemory = false) : k.outOfMemory = false := by
  induction fuel generalizing k vaddr with
  | zero =>
      rw [Except.ok.inj hres]
      exact hoom
  | succ fuel ih =>
      simp only [elfLoadPages] at hres
      split at hres
      · cases hp : elfLoadPage image ph pm vaddr k with
        | error k₁ =>
            rw [hp] at hres
            cases hres
        | ok k₁ =>
            rw [hp] at hres
            exact pmmRequestPage_oom (vmmMap_oom (elfLoadPage_oom hp (ih hres)))
      · rw [Except.ok.inj hres]
        exact hoom

/-- One more page is loaded. -/
theorem Shows.load {shown : BitVec 36 → Option PageLoad} {f : Frame} {vaddr : U64}
    (hs : Shows all free lab r image shown k.mem) (hg : Grows k free lab k' free' lab') (hf : Held all free' lab' f)
    (hleaf : ∀ v, leaf k'.mem r v = if pageNo v = pageNo vaddr then f.1 ||| ph.flags else leaf k.mem r v)
    (hbyte : ∀ b < 4096, k'.mem (f.1 + BitVec.ofNat 64 b) = (PageLoad.mk ph vaddr).byte image b) :
    Shows all free' lab' r image (Function.update shown (pageNo vaddr) (some ⟨ph, vaddr⟩)) k'.mem := by
  intro v l hl
  by_cases hv : pageNo v = pageNo vaddr
  · rw [hv, Function.update_self] at hl
    cases hl
    exact ⟨f, hf, by rw [hleaf, if_pos hv], hbyte⟩
  · rw [Function.update_of_ne hv] at hl
    obtain ⟨g, hg', hlg, hbg⟩ := hs v l hl
    refine ⟨g, hg.held hg', by rw [hleaf, if_neg hv, hlg], fun b hb => ?_⟩
    rw [hg.byte hg' (Frame.of_add g (by rw [BitVec.toNat_ofNat]; omega)), hbg b hb]

theorem elfLoadPages_loaded (fuel : Nat) (image : Mem) (ph : ElfPheader) (i : Nat) (h : Owned k all free lab) (hr : lab r = some (r, []))
    (hi : i ≤ ph.pageCount) (hfuel : ph.pageCount - i ≤ fuel)
    (hoom : 4 * (ph.pageCount - i) ≤ free.length ∨ ∃ k', elfLoadPages image ph (k.higherHalf r.1) fuel
      (pageAt ph.vaddrStart i) k = .ok k' ∧ k'.outOfMemory = false) :
    ∃ k' free' lab', elfLoadPages image ph (k.higherHalf r.1) fuel (pageAt ph.vaddrStart i) k = .ok k' ∧
      Owned k' all free' lab' ∧ Grows k free lab k' free' lab' ∧ free.length ≤ free'.length + 4 * (ph.pageCount - i) ∧
      Loaded all free lab free' lab' r (pagesFrom ph.vaddrStart i (ph.pageCount - i)) k.mem k'.mem ∧
      ∀ shown, Shows all free lab r image shown k.mem → Shows all free' lab' r image
        (showLoads shown ((List.range' i (ph.pageCount - i)).map fun j => ⟨ph, pageAt ph.vaddrStart j⟩)) k'.mem := by
  induction fuel generalizing k free lab i with
  | zero =>
      have hi' : ph.pageCount - i = 0 := by omega
      rw [hi', pagesFrom_zero]
      exact ⟨k, free, lab, rfl, h, .refl _ _ _, by omega, .refl _ _ _ _ _, fun _ hs => hs⟩
  | succ fuel ih =>
      have hlt := ph.pageAt_lt_iff hi
      by_cases hin : i < ph.pageCount
      · simp only [elfLoadPages, hlt, hin, ↓reduceIte] at hoom ⊢
        have hoom₁ : 4 ≤ free.length ∨ ∃ k', elfLoadPage image ph (k.higherHalf r.1) (pageAt ph.vaddrStart i) k = .ok k' ∧
            k'.outOfMemory = false := by
          refine hoom.imp (by omega) fun ⟨k', hres, hk'⟩ => ?_
          cases hp : elfLoadPage image ph (k.higherHalf r.1) (pageAt ph.vaddrStart i) k with
          | error k₁ =>
              rw [hp] at hres
              cases hres
          | ok k₁ =>
              rw [hp] at hres
              exact ⟨k₁, rfl, elfLoadPages_oom hres hk'⟩
        obtain ⟨f, k₁, free₁, lab₁, hp, ho₁, hg₁, hn₁, hf, hl₁, hleaf, hb⟩ := elfLoadPage_loaded h hr hoom₁
        rw [hp] at hoom ⊢
        simp only [pageAt_succ, ← hg₁.globals.higherHalf r.1] at hoom ⊢
        obtain ⟨k₂, free₂, lab₂, hres, ho₂, hg₂, hn₂, hl₂, hs₂⟩ := ih (i + 1) ho₁ (hg₁.keep hr) hin (by omega)
          (hoom.imp_left (by omega))
        have hsucc : ph.pageCount - i = ph.pageCount - (i + 1) + 1 := by omega
        rw [hsucc, pagesFrom_succ, List.range'_succ]
        refine ⟨k₂, free₂, lab₂, hres, ho₂, hg₁.trans hg₂, by omega, hl₁.trans hr hg₁ hl₂ hg₂, fun shown hs => ?_⟩
        exact hs₂ _ (hs.load hg₁ hf hleaf hb)
      · have hi' : ph.pageCount - i = 0 := by omega
        simp only [elfLoadPages, hlt, hin, ↓reduceIte, hi', pagesFrom_zero]
        exact ⟨k, free, lab, rfl, h, .refl _ _ _, by omega, .refl _ _ _ _ _, fun _ hs => hs⟩

/-! ## Segments -/

theorem elfLoadSegment_oom {pm : U64} (hres : elfLoadSegment image pm k ph = .ok k') (hoom : k'.outOfMemory = false) :
    k.outOfMemory = false := by
  simp only [elfLoadSegment] at hres
  split at hres
  · rw [Except.ok.inj hres]
    exact hoom
  · exact elfLoadPages_oom hres hoom

theorem elfLoadSegments_oom {pm : U64} {phs : List ElfPheader} (hres : phs.foldlM (elfLoadSegment image pm) k = .ok k')
    (hoom : k'.outOfMemory = false) : k.outOfMemory = false := by
  induction phs generalizing k with
  | nil =>
      rw [Except.ok.inj hres]
      exact hoom
  | cons ph phs ih =>
      rw [List.foldlM_cons] at hres
      cases hp : elfLoadSegment image pm k ph with
      | error k₁ =>
          rw [hp] at hres
          cases hres
      | ok k₁ =>
          rw [hp] at hres
          exact elfLoadSegment_oom hp (ih hres)

theorem ElfPheader.pages_length (ph : ElfPheader) (h : ph.pType = ptLoad) : ph.pages.length = ph.pageCount := by
  rw [pages, if_pos h, List.length_map, List.length_range]

theorem ElfPheader.pages_eq (ph : ElfPheader) (h : ph.pType = ptLoad) :
    {p | ∃ v ∈ ph.pages, pageNo v = p} = pagesFrom ph.vaddrStart 0 ph.pageCount := by
  ext p
  simp only [pages, h, ↓reduceIte, Set.mem_ofPred_eq, List.mem_map, List.mem_range, pagesFrom, Nat.zero_add, pageAt]
  constructor
  · rintro ⟨v, ⟨j, hj, rfl⟩, rfl⟩
    exact ⟨j, Nat.zero_le _, hj, rfl⟩
  · rintro ⟨j, _, hj, rfl⟩
    exact ⟨_, ⟨j, hj, rfl⟩, rfl⟩

theorem ElfPheader.loads_eq (ph : ElfPheader) (h : ph.pType = ptLoad) :
    ph.loads = (List.range ph.pageCount).map fun j => ⟨ph, pageAt ph.vaddrStart j⟩ := by
  rw [loads, pages, if_pos h, List.map_map]
  rfl

theorem pageAt_zero (start : U64) : pageAt start 0 = start := by
  have hz : BitVec.ofNat 64 0 * pageSize = 0 := by decide
  rw [pageAt, hz]
  exact BitVec.add_zero _

/-- A segment gets all its pages. -/
theorem elfLoadSegment_loaded (h : Owned k all free lab) (hr : lab r = some (r, []))
    (hoom : 4 * ph.pages.length ≤ free.length ∨
      ∃ k', elfLoadSegment image (k.higherHalf r.1) k ph = .ok k' ∧ k'.outOfMemory = false) :
    ∃ k' free' lab', elfLoadSegment image (k.higherHalf r.1) k ph = .ok k' ∧ Owned k' all free' lab' ∧
      Grows k free lab k' free' lab' ∧ free.length ≤ free'.length + 4 * ph.pages.length ∧
      Loaded all free lab free' lab' r {p | ∃ v ∈ ph.pages, pageNo v = p} k.mem k'.mem ∧
      ∀ shown, Shows all free lab r image shown k.mem → Shows all free' lab' r image (showLoads shown ph.loads) k'.mem := by
  by_cases ht : ph.pType = ptLoad
  · rw [ph.pages_length ht, ph.pages_eq ht]
    rw [ph.pages_length ht] at hoom
    simp only [elfLoadSegment, ht, ne_eq, not_true_eq_false, ↓reduceIte] at hoom ⊢
    have hp := elfLoadPages_loaded (2 ^ 52) image ph 0 h hr (Nat.zero_le _)
      (by rw [Nat.sub_zero]; exact ph.pageCount_le)
    rw [pageAt_zero, Nat.sub_zero] at hp
    obtain ⟨k', free', lab', hres, ho, hg, hn, hl, hs⟩ := hp hoom
    refine ⟨k', free', lab', hres, ho, hg, hn, hl, ?_⟩
    rw [ph.loads_eq ht, List.range_eq_range']
    exact hs
  · have hpages : ph.pages = [] := by rw [ElfPheader.pages, if_neg ht]
    have hempty : {p | ∃ v ∈ ph.pages, pageNo v = p} = ∅ := by
      rw [hpages]
      simp
    refine ⟨k, free, lab, ?_, h, .refl _ _ _, by omega, ?_, fun shown hs => ?_⟩
    · simp only [elfLoadSegment, ne_eq, ht, not_false_eq_true, ↓reduceIte]
    · rw [hempty]
      exact .refl _ _ _ _ _
    · rw [ElfPheader.loads, hpages]
      exact hs

/-- The segments of a program get all their pages. -/
theorem elfLoadSegments_loaded (image : Mem) {phs : List ElfPheader} (h : Owned k all free lab) (hr : lab r = some (r, []))
    (hoom : 4 * (phs.flatMap ElfPheader.pages).length ≤ free.length ∨
      ∃ k', phs.foldlM (elfLoadSegment image (k.higherHalf r.1)) k = .ok k' ∧ k'.outOfMemory = false) :
    ∃ k' free' lab', phs.foldlM (elfLoadSegment image (k.higherHalf r.1)) k = .ok k' ∧ Owned k' all free' lab' ∧
      Grows k free lab k' free' lab' ∧
      Loaded all free lab free' lab' r {p | ∃ v ∈ phs.flatMap ElfPheader.pages, pageNo v = p} k.mem k'.mem ∧
      ∀ shown, Shows all free lab r image shown k.mem →
        Shows all free' lab' r image (showLoads shown (phs.flatMap ElfPheader.loads)) k'.mem := by
  induction phs generalizing k free lab with
  | nil =>
      refine ⟨k, free, lab, rfl, h, .refl _ _ _, ?_, fun _ hs => hs⟩
      have hempty : {p | ∃ v ∈ ([] : List ElfPheader).flatMap ElfPheader.pages, pageNo v = p} = ∅ := by simp
      rw [hempty]
      exact .refl _ _ _ _ _
  | cons ph phs ih =>
      simp only [List.foldlM_cons, List.flatMap_cons, List.length_append] at hoom ⊢
      have hoom₁ : 4 * ph.pages.length ≤ free.length ∨
          ∃ k', elfLoadSegment image (k.higherHalf r.1) k ph = .ok k' ∧ k'.outOfMemory = false := by
        refine hoom.imp (by omega) fun ⟨k', hres, hk'⟩ => ?_
        cases hp : elfLoadSegment image (k.higherHalf r.1) k ph with
        | error k₁ =>
            rw [hp] at hres
            cases hres
        | ok k₁ =>
            rw [hp] at hres
            exact ⟨k₁, rfl, elfLoadSegments_oom hres hk'⟩
      obtain ⟨k₁, free₁, lab₁, hp, ho₁, hg₁, hn₁, hl₁, hs₁⟩ := elfLoadSegment_loaded h hr hoom₁
      rw [hp] at hoom ⊢
      simp only [← hg₁.globals.higherHalf r.1] at hoom ⊢
      obtain ⟨k₂, free₂, lab₂, hres, ho₂, hg₂, hl₂, hs₂⟩ := ih ho₁ (hg₁.keep hr) (hoom.imp_left (by omega))
      refine ⟨k₂, free₂, lab₂, hres, ho₂, hg₁.trans hg₂, ?_, fun shown hs => ?_⟩
      · have hunion : {p | ∃ v ∈ ph.pages ++ phs.flatMap ElfPheader.pages, pageNo v = p} =
            {p | ∃ v ∈ ph.pages, pageNo v = p} ∪ {p | ∃ v ∈ phs.flatMap ElfPheader.pages, pageNo v = p} := by
          ext p
          simp only [List.mem_append, or_and_right, exists_or, Set.mem_ofPred_eq, Set.mem_union]
        · rw [hunion]
          exact hl₁.trans hr hg₁ hl₂ hg₂
      · rw [showLoads, List.foldl_append]
        exact hs₂ _ (hs₁ _ hs)

/-! ## What the pages show -/

theorem showLoads_cases (shown : BitVec 36 → Option PageLoad) (ls : List PageLoad) (p : BitVec 36) :
    (∃ l ∈ ls, pageNo l.vaddr = p ∧ showLoads shown ls p = some l) ∨
      (∀ l ∈ ls, pageNo l.vaddr ≠ p) ∧ showLoads shown ls p = shown p := by
  induction ls generalizing shown with
  | nil => exact .inr ⟨by simp, rfl⟩
  | cons l ls ih =>
      rcases ih (Function.update shown (pageNo l.vaddr) (some l)) with ⟨l', hl', hp, he⟩ | ⟨hno, he⟩
      · exact .inl ⟨l', List.mem_cons_of_mem _ hl', hp, he⟩
      · by_cases hp : p = pageNo l.vaddr
        · exact .inl ⟨l, List.mem_cons_self, hp.symm, he.trans (by rw [hp, Function.update_self])⟩
        · refine .inr ⟨List.forall_mem_cons.mpr ⟨Ne.symm hp, hno⟩, he.trans ?_⟩
          rw [Function.update_of_ne hp]

/-- The pages of a segment are different pages. -/
theorem ElfPheader.pageNo_inj (ph : ElfPheader) (hn : ph.pageCount ≤ 2 ^ 36) {i j : Nat} (hi : i < ph.pageCount)
    (hj : j < ph.pageCount) (he : pageNo (pageAt ph.vaddrStart i) = pageNo (pageAt ph.vaddrStart j)) : i = j := by
  rw [← BitVec.toNat_inj, pageNo_toNat, pageNo_toNat, ph.pageAt_toNat hi.le, ph.pageAt_toNat hj.le] at he
  omega

/-- Right after a segment is loaded, its pages show it. -/
theorem ElfPheader.showLoads_own (ph : ElfPheader) (h : ph.pType = ptLoad) (hn : ph.pageCount ≤ 2 ^ 36)
    (shown : BitVec 36 → Option PageLoad) {i : Nat} (hi : i < ph.pageCount) :
    showLoads shown ph.loads (pageNo (pageAt ph.vaddrStart i)) = some ⟨ph, pageAt ph.vaddrStart i⟩ := by
  rw [ph.loads_eq h]
  rcases showLoads_cases shown ((List.range ph.pageCount).map fun j => ⟨ph, pageAt ph.vaddrStart j⟩)
    (pageNo (pageAt ph.vaddrStart i)) with ⟨l, hl, hp, he⟩ | ⟨hno, _⟩
  · obtain ⟨j, hj, rfl⟩ := List.mem_map.mp hl
    rw [he, ph.pageNo_inj hn (List.mem_range.mp hj) hi hp]
  · exact absurd rfl (hno ⟨ph, pageAt ph.vaddrStart i⟩ (List.mem_map.mpr ⟨i, List.mem_range.mpr hi, rfl⟩))

theorem Shows.none (all free : List Frame) (lab : Labels) (r : Frame) (image m : Mem) :
    Shows all free lab r image (fun _ => .none) m := by
  intro v l hl
  cases hl

/-- A process sees the bytes of the load. -/
theorem Shows.byteAt {shown : BitVec 36 → Option PageLoad} {v : U64} {l : PageLoad} (h : Owned k all free lab)
    (hs : Shows all free lab r image shown k.mem) (hl : shown (pageNo v) = some l) :
    byteAt k (k.higherHalf r.1) v = l.byte image (v.toNat % 4096) := by
  obtain ⟨f, hf, hleaf, hbyte⟩ := hs v l hl
  have hoff : v &&& (pageSize - 1) = BitVec.ofNat 64 (v.toNat % 4096) := by
    apply BitVec.eq_of_toNat_eq
    have hp : (pageSize - 1).toNat = 2 ^ 12 - 1 := rfl
    rw [BitVec.toNat_and, hp, Nat.and_two_pow_sub_one_eq_mod, BitVec.toNat_ofNat]
    omega
  rw [Proc.byteAt, virtToPhys_eq_leafEntry, leafEntry_eq_look, ← leaf, hleaf,
    or_flags_and_addrMask _ f.2 (h.small f hf.mem) l.ph.flags_and_addrMask, hoff, hbyte _ (by omega)]

/-- The address of a frame has no bits among the flags. -/
theorem Frame.or_and_flag {f : Frame} {flags c : U64} (hf : f.1.toNat < 2 ^ 52) (hc : addrMask &&& c = 0) :
    (f.1 ||| flags) &&& c = flags &&& c := by
  have haddr : (f.1 ||| 0) &&& addrMask = f.1 := or_flags_and_addrMask 0 f.2 hf (by decide)
  have hzero : f.1 &&& c = 0 := by
    rw [← haddr, BitVec.and_assoc, hc]
    exact BitVec.and_zero
  rw [BitVec.and_or_distrib_right, hzero]
  exact BitVec.zero_or

theorem ElfPheader.flags_bits (ph : ElfPheader) : ph.flags &&& vmmPresent ≠ 0 ∧ ph.flags &&& vmmUser ≠ 0 ∧
    (ph.flags &&& vmmWrite ≠ 0 ↔ ph.pFlags &&& pfW ≠ 0) ∧ (ph.flags &&& vmmNx = 0 ↔ ph.pFlags &&& pfX ≠ 0) := by
  simp only [flags]
  by_cases hw : ph.pFlags &&& pfW = 0
  · by_cases hx : ph.pFlags &&& pfX = 0
    · simp only [hw, hx, ne_eq, not_true_eq_false, ↓reduceIte]
      decide
    · simp only [hw, hx, ne_eq, not_true_eq_false, not_false_eq_true, ↓reduceIte]
      decide
  · by_cases hx : ph.pFlags &&& pfX = 0
    · simp only [hw, hx, ne_eq, not_true_eq_false, not_false_eq_true, ↓reduceIte]
      decide
    · simp only [hw, hx, ne_eq, not_false_eq_true, ↓reduceIte]
      decide

/-- The access to a page is what the segment of the load asks for. -/
theorem Shows.permitted {shown : BitVec 36 → Option PageLoad} {v : U64} {l : PageLoad}
    (hs : Shows all free lab r image shown k.mem) (ph : ElfPheader) (h : Owned k all free lab) (hl : shown (pageNo v) = some l) :
    ph.Permitted (leafEntry k (k.higherHalf r.1) v) ↔
      (ph.pFlags &&& pfW ≠ 0 → l.ph.pFlags &&& pfW ≠ 0) ∧ (ph.pFlags &&& pfX ≠ 0 → l.ph.pFlags &&& pfX ≠ 0) := by
  obtain ⟨f, hf, hleaf, _⟩ := hs v l hl
  have hsmall := h.small f hf.mem
  obtain ⟨hp, hu, hw, hx⟩ := l.ph.flags_bits
  rw [leafEntry_eq_look, ← leaf, hleaf, ElfPheader.Permitted, Frame.or_and_flag hsmall (by decide),
    Frame.or_and_flag hsmall (by decide), Frame.or_and_flag hsmall (by decide), Frame.or_and_flag hsmall (by decide), hw, hx]
  exact ⟨fun hc => hc.2.2, fun hc => ⟨hp, hu, hc⟩⟩

end ShadowOS.Proc
