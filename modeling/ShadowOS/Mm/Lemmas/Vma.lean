import ShadowOS.Mm.Vma
import ShadowOS.Mm.Lemmas.Loaded

/-!
# Regions and their pages
-/

namespace ShadowOS.Mm

variable {k : State} {all free : List Frame} {lab : Labels}

/-! ## Records -/

section Fields

variable (k) (f : Frame)

theorem VmaContext.pagemap_eq : VmaContext.pagemap k (k.higherHalf f.1) = k.mem.word f 0 := load_field_zero k f
theorem VmaContext.root_eq : VmaContext.root k (k.higherHalf f.1) = k.mem.word f 1 := load_field k f 1 rfl
theorem VmaRegion.start_eq : VmaRegion.start k (k.higherHalf f.1) = k.mem.word f 0 := load_field_zero k f
theorem VmaRegion.size_eq : VmaRegion.size k (k.higherHalf f.1) = k.mem.word f 1 := load_field k f 1 rfl
theorem VmaRegion.flags_eq : VmaRegion.flags k (k.higherHalf f.1) = k.mem.word f 2 := load_field k f 2 rfl
theorem VmaRegion.next_eq : VmaRegion.next k (k.higherHalf f.1) = k.mem.word f 3 := load_field k f 3 rfl
theorem VmaRegion.prev_eq : VmaRegion.prev k (k.higherHalf f.1) = k.mem.word f 4 := load_field k f 4 rfl

end Fields

/-- The new record `b` after the region `x`. -/
theorem vmaInsert_eq (k : State) {b x : Frame} (hbx : x ≠ b) (size flags : U64) :
    ∃ m, vmaInsert k (k.higherHalf b.1) (k.higherHalf x.1) size flags = { k with mem := m } ∧
      Mem.EqOutside {b} (k.mem.store64 (x.slot 3) (k.higherHalf b.1)) m ∧
      m.word b 0 = k.mem.word x 0 + k.mem.word x 1 ∧ m.word b 1 = size ∧ m.word b 2 = flags ∧
      m.word b 3 = k.mem.word x 3 ∧ m.word b 4 = k.higherHalf x.1 := by
  have hb : b.1 + k.hhdmOffset - k.hhdmOffset = b.1 := State.physical_higherHalf k b.1
  have hb0 : b.1 = b.slot 0 := by rw [← hb]; exact physical_field_zero k b
  have hb1 : b.1 + k.hhdmOffset + 8 - k.hhdmOffset = b.slot 1 := physical_field k b 1 rfl
  have hb2 : b.1 + k.hhdmOffset + 16 - k.hhdmOffset = b.slot 2 := physical_field k b 2 rfl
  have hb3 : b.1 + k.hhdmOffset + 24 - k.hhdmOffset = b.slot 3 := physical_field k b 3 rfl
  have hb4 : b.1 + k.hhdmOffset + 32 - k.hhdmOffset = b.slot 4 := physical_field k b 4 rfl
  have hx0 : x.1 + k.hhdmOffset - k.hhdmOffset = x.slot 0 := physical_field_zero k x
  have hx1 : x.1 + k.hhdmOffset + 8 - k.hhdmOffset = x.slot 1 := physical_field k x 1 rfl
  have hx3 : x.1 + k.hhdmOffset + 24 - k.hhdmOffset = x.slot 3 := physical_field k x 3 rfl
  have hout := Mem.EqOutside.fill k.mem b 0 (n := 40) (by omega)
  have hx : ∀ j, (k.mem.fill b.1 0 40).word x j = k.mem.word x j := hout.word hbx
  have hword : ∀ (m : Mem) (f : Frame) i, m.load64 (f.slot i) = m.word f i := fun _ _ _ => rfl
  have hbx' : ¬ b = x := fun h => hbx h.symm
  unfold vmaInsert
  simp only [VmaRegion.start, VmaRegion.size, VmaRegion.next, State.store, State.load, State.memset, State.physical,
    State.higherHalf, hb, hx0, hb1, hb2, hb3, hb4, hx1, hx3]
  generalize k.mem.fill b.1 0 40 = m₀ at hx hout ⊢
  rw [hb0]
  simp only [hword, Mem.word_store64, hbx, false_and, ↓reduceIte, hx]
  have hst : ∀ m, Mem.EqOutside {b} k.mem m → ∀ i v, Mem.EqOutside {b} k.mem (m.store64 (b.slot i) v) :=
    fun m hm i v => hm.trans (Mem.EqOutside.store64 m b i v)
  refine ⟨_, rfl, (hst _ (hst _ (hst _ (hst _ (hst _ hout _ _) _ _) _ _) _ _) _ _).store64_congr _ _, ?_, ?_, ?_, ?_, ?_⟩
  · simp [Mem.word_store64, hbx']
  · simp [Mem.word_store64, hbx']
  · simp [Mem.word_store64, hbx']
  · simp [Mem.word_store64, hbx']
  · simp [Mem.word_store64, hbx']

/-- The record and the one before it are frames in use. -/
theorem Owned.vmaInsert {b x : Frame} (h : Owned k all free lab) (hb : Held all free lab b) (hx : Held all free lab x)
    (hxb : x ≠ b) (size flags : U64) :
    ∃ k', vmaInsert k (k.higherHalf b.1) (k.higherHalf x.1) size flags = k' ∧ Owned k' all free lab ∧ SameGlobals k k' ∧
      Mem.EqOutside {b, x} k.mem k'.mem ∧ Mem.EqOutside {b} (k.mem.store64 (x.slot 3) (k.higherHalf b.1)) k'.mem ∧
      k'.mem.word b 0 = k.mem.word x 0 + k.mem.word x 1 ∧ k'.mem.word b 1 = size ∧ k'.mem.word b 2 = flags ∧
      k'.mem.word b 3 = k.mem.word x 3 ∧ k'.mem.word b 4 = k.higherHalf x.1 := by
  obtain ⟨m, hins, hout, hfields⟩ := vmaInsert_eq k hxb size flags
  have hxs : Mem.EqOutside {x} k.mem (k.mem.store64 (x.slot 3) (k.higherHalf b.1)) := Mem.EqOutside.store64 _ _ _ _
  have hbx : Mem.EqOutside {b, x} k.mem m := (hxs.mono (by simp)).trans (hout.mono (by simp))
  have hheld : ∀ f ∈ ({b, x} : Set Frame), Held all free lab f := by
    rintro f (rfl | rfl)
    · exact hb
    · exact hx
  exact ⟨_, hins, h.write hbx hheld, ⟨rfl, rfl, rfl, rfl⟩, hbx, hout, hfields⟩

/-! ## Backing the pages -/

theorem vmaMapPages_oom {ctx region : U64} {n : Nat} {i : U64} {k : State}
    (h : (vmaMapPages ctx region n i k).2.outOfMemory = false) : k.outOfMemory = false := by
  induction n generalizing i k with
  | zero => exact h
  | succ n ih =>
      simp only [vmaMapPages] at h
      split at h
      · exact pmmRequestPage_oom h
      · exact pmmRequestPage_oom (vmmMap_oom (ih h))

/-- The loop of `vma_alloc` gives every page of the region a frame of its own. -/
theorem Owned.vmaMapPages {c b r : Frame} {n : Nat} {i : Nat} {flags : U64} (h : Owned k all free lab)
    (hr : lab r = some (r, [])) (hc : Held all free lab c) (hb : Held all free lab b)
    (hpm : k.mem.word c 0 = k.higherHalf r.1) (hflags : k.mem.word b 2 = flags)
    (hoom : 4 * n ≤ free.length ∨
      (vmaMapPages (k.higherHalf c.1) (k.higherHalf b.1) n (BitVec.ofNat 64 i) k).2.outOfMemory = false) :
    ∃ k' free' lab', Mm.vmaMapPages (k.higherHalf c.1) (k.higherHalf b.1) n (BitVec.ofNat 64 i) k = (true, k') ∧
      Owned k' all free' lab' ∧ Grows k free lab k' free' lab' ∧ n + free'.length ≤ free.length ∧
      (flags &&& addrMask = 0 →
        Loaded all free lab free' lab' r (pagesFrom (k.mem.word b 0) i n) k.mem k'.mem) := by
  induction n generalizing k free lab i with
  | zero =>
      refine ⟨k, free, lab, rfl, h, .refl _ _ _, by omega, fun _ => ?_⟩
      rw [pagesFrom_zero]
      exact .refl _ _ _ _ _
  | succ n ih =>
      have hoom₁ : 1 ≤ free.length ∨ (pmmRequestPage k).2.outOfMemory = false := by
        refine hoom.imp (by omega) (fun hoom => ?_)
        simp only [Mm.vmaMapPages] at hoom
        split at hoom
        · exact hoom
        · exact vmmMap_oom (vmaMapPages_oom hoom)
      obtain ⟨_, _, f, _, heq, _, hg₁, _, hf0, _⟩ := h.requestPage hoom₁
      have hpage : k.mem.word b 0 + BitVec.ofNat 64 i * pageSize = pageAt (k.mem.word b 0) i := rfl
      have hi : BitVec.ofNat 64 i + 1 = BitVec.ofNat 64 (i + 1) := (BitVec.ofNat_add i 1).symm
      -- the context and the record are read back unchanged
      have hpm₁ : VmaContext.pagemap (pmmRequestPage k).2 (k.higherHalf c.1) = k.higherHalf r.1 := by
        rw [heq, ← hg₁.globals.higherHalf c.1, VmaContext.pagemap_eq, hg₁.word hc, hpm]
      have hst₁ : VmaRegion.start (pmmRequestPage k).2 (k.higherHalf b.1) = k.mem.word b 0 := by
        rw [heq, ← hg₁.globals.higherHalf b.1, VmaRegion.start_eq, hg₁.word hb]
      have hfl₁ : VmaRegion.flags (pmmRequestPage k).2 (k.higherHalf b.1) = flags := by
        rw [heq, ← hg₁.globals.higherHalf b.1, VmaRegion.flags_eq, hg₁.word hb, hflags]
      have hne : (pmmRequestPage k).1 ≠ 0 := by rwa [heq]
      simp only [Mm.vmaMapPages, hne, ↓reduceIte, hpm₁, hst₁, hfl₁, hpage, hi] at hoom ⊢
      obtain ⟨f', k₂, free₂, lab₂, hf', _, _, hmap, ho₂, hg₂, _, hlt₂, _, hl₂⟩ := h.mapPage _ _ hr
        (hoom.imp (by omega) vmaMapPages_oom)
      rw [hf', hmap, ← hg₂.globals.higherHalf c.1, ← hg₂.globals.higherHalf b.1] at hoom ⊢
      obtain ⟨k₃, free₃, lab₃, he₃, ho₃, hg₃, hn₃, hl₃⟩ := ih ho₂ (hg₂.keep hr) (hg₂.held hc) (hg₂.held hb)
        (by rw [hg₂.word hc, hpm, hg₂.globals.higherHalf]) (by rw [hg₂.word hb, hflags]) (hoom.imp_left (by omega))
      refine ⟨k₃, free₃, lab₃, he₃, ho₃, hg₂.trans hg₃, by omega, fun hfl => ?_⟩
      have hrest := hl₃ hfl
      rw [hg₂.word hb] at hrest
      rw [pagesFrom_succ]
      exact (hl₂ hfl).2.trans hr hg₂ hrest hg₃

/-! ## Allocation -/

theorem vmaInsert_oom (k : State) (b x s f : U64) : (vmaInsert k b x s f).outOfMemory = k.outOfMemory := rfl

theorem vmaInsertLast_oom (k : State) (n x size flags : U64) :
    (vmaInsertLast k n x size flags).outOfMemory = k.outOfMemory := by
  simp only [vmaInsertLast, State.store_oom, State.memset_oom]

theorem vmaAlloc_oom {ctx size flags ptr : U64} {k' : State} (hres : vmaAlloc k ctx size flags = some (ptr, k'))
    (hoom : k'.outOfMemory = false) : k.outOfMemory = false := by
  unfold vmaAlloc at hres
  split at hres
  · rwa [(Prod.mk.inj (Option.some.inj hres)).2]
  · simp only [Option.bind_eq_bind, Option.pure_def, ← apply_ite, Option.bind_eq_some_iff, Option.some.injEq] at hres
    obtain ⟨region, _, hres⟩ := hres
    have hins : (if region = 0 then vmaInsertLast (pmmRequestPage k).2 ((pmmRequestPage k).2.higherHalf (pmmRequestPage k).1)
        (VmaContext.root k ctx) size flags else vmaInsert (pmmRequestPage k).2
        ((pmmRequestPage k).2.higherHalf (pmmRequestPage k).1) region size flags).outOfMemory =
        (pmmRequestPage k).2.outOfMemory := by
      split
      · exact vmaInsertLast_oom _ _ _ _ _
      · exact vmaInsert_oom _ _ _ _ _
    generalize (if region = 0 then vmaInsertLast (pmmRequestPage k).2 ((pmmRequestPage k).2.higherHalf (pmmRequestPage k).1)
        (VmaContext.root k ctx) size flags else vmaInsert (pmmRequestPage k).2
        ((pmmRequestPage k).2.higherHalf (pmmRequestPage k).1) region size flags) = k₂ at hres hins
    split at hres
    · rw [← (Prod.mk.inj hres).2] at hoom
      exact pmmRequestPage_oom hoom
    · have hk₂ : k₂.outOfMemory = false := by
        split at hres
        · rw [← (Prod.mk.inj hres).2] at hoom
          exact vmaMapPages_oom hoom
        · rw [← (Prod.mk.inj hres).2] at hoom
          exact vmaMapPages_oom hoom
      exact pmmRequestPage_oom (hins.symm.trans hk₂)

/-- `vma_alloc` puts a region after the region `x` that the walk finds, and backs its pages. -/
theorem Owned.vmaAlloc {c a x r : Frame} {k' : State} {size flags ptr : U64} (h : Owned k all free lab)
    (hr : lab r = some (r, [])) (hr0 : k.higherHalf r.1 ≠ 0) (hc : Held all free lab c) (ha : Held all free lab a)
    (hx : Held all free lab x) (hcx : c ≠ x) (hpm : k.mem.word c 0 = k.higherHalf r.1)
    (hroot : k.mem.word c 1 = k.higherHalf a.1)
    (hgap : vmaFindGap k vmaMaxRegions (k.higherHalf a.1) = some (k.higherHalf x.1))
    (hres : vmaAlloc k (k.higherHalf c.1) size flags = some (ptr, k'))
    (hoom : 4 * size.toNat + 1 ≤ free.length ∨ k'.outOfMemory = false) :
    ∃ b free₁ free' lab', ptr = k.mem.word x 0 + k.mem.word x 1 ∧ free = free₁ ++ [b] ∧ Held all free₁ lab b ∧
      Held all free' lab' b ∧ Owned k' all free' lab' ∧
      Grows { k with mem := k.mem.store64 (x.slot 3) (k.higherHalf b.1) } free lab k' free' lab' ∧
      k'.mem.word b 0 = ptr ∧ k'.mem.word b 1 = size ∧ k'.mem.word b 3 = k.mem.word x 3 ∧
      k'.mem.word b 4 = k.higherHalf x.1 ∧ size.toNat ≤ free.length ∧
      (flags &&& addrMask = 0 →
        Loaded all free₁ lab free' lab' r (pagesFrom ptr 0 size.toNat) k.mem k'.mem) := by
  have hc0 := h.mapped hc
  have ha0 := h.mapped ha
  have hx0 := h.mapped hx
  unfold Mm.vmaAlloc at hres
  simp only [VmaContext.root_eq, VmaContext.pagemap_eq, hroot, hpm, hc0, ha0, hr0, or_self, ↓reduceIte, hgap, hx0,
    Option.bind_eq_bind, Option.bind_some, Option.pure_def, ← apply_ite, Option.some.injEq] at hres
  have hoom₁ : 1 ≤ free.length ∨ (pmmRequestPage k).2.outOfMemory = false := by
    refine hoom.imp (by omega) (fun hoom => ?_)
    split at hres
    · rw [← (Prod.mk.inj hres).2] at hoom
      exact hoom
    · split at hres
      · rw [← (Prod.mk.inj hres).2] at hoom
        exact (vmaInsert_oom _ _ _ _ _).symm.trans (vmaMapPages_oom hoom)
      · rw [← (Prod.mk.inj hres).2] at hoom
        exact (vmaInsert_oom _ _ _ _ _).symm.trans (vmaMapPages_oom hoom)
  obtain ⟨k₁, free₁, b, rfl, heq, ho₁, hg₁, hb, _, hm₁⟩ := h.requestPage hoom₁
  have hbf : b ∈ free₁ ++ [b] := by simp
  have hxb : x ≠ b := by rintro rfl; exact hx.notFree hbf
  have hcb : c ≠ b := by rintro rfl; exact hc.notFree hbf
  have hb0 := ho₁.mapped hb
  simp only [heq, hb0, ↓reduceIte] at hres
  -- the record is written
  obtain ⟨k₂, hins, ho₂, hgl, hbx, hout, hw0, hw1, hw2, hw3, hw4⟩ := ho₁.vmaInsert hb (hg₁.held hx) hxb size flags
  rw [← hg₁.globals.higherHalf x.1, hins] at hres
  have hwx : ∀ j, k₁.mem.word x j = k.mem.word x j := hg₁.word hx
  have hwc : k₂.mem.word c 0 = k.mem.word c 0 := by
    rw [hout.word (by simpa using hcb), Mem.word_store64, hg₁.word hc]
    simp [hcx]
  have hgl₂ : SameGlobals k k₂ := hg₁.globals.trans hgl
  have hh₂ : ∀ p, k₂.higherHalf p = k.higherHalf p := hgl₂.higherHalf
  rw [hg₁.globals.higherHalf b.1, ← hh₂ b.1, ← hh₂ c.1] at hres
  have hoom₂ : 4 * size.toNat ≤ free₁.length ∨ (Mm.vmaMapPages (k₂.higherHalf c.1) (k₂.higherHalf b.1) size.toNat
      (BitVec.ofNat 64 0) k₂).2.outOfMemory = false := by
    rw [List.length_append, List.length_singleton] at hoom
    refine hoom.imp (by omega) (fun hoom => ?_)
    split at hres
    · rw [← (Prod.mk.inj hres).2] at hoom
      exact hoom
    · rw [← (Prod.mk.inj hres).2] at hoom
      exact hoom
  obtain ⟨k₃, free₃, lab₃, he₃, ho₃, hg₃, hn₃, hbk⟩ := ho₂.vmaMapPages hr (hg₁.held hc) hb
    (by rw [hwc, hpm, hh₂]) hw2 hoom₂
  have he₃' : Mm.vmaMapPages (k₂.higherHalf c.1) (k₂.higherHalf b.1) size.toNat 0 k₂ = (true, k₃) := he₃
  simp only [he₃', Bool.not_true, Bool.false_eq_true, ↓reduceIte] at hres
  obtain ⟨hptr, rfl⟩ := Prod.mk.inj hres
  have hwb : ∀ j, k₃.mem.word b j = k₂.mem.word b j := hg₃.word hb
  have hptr' : ptr = k₂.mem.word b 0 := by
    rw [← hptr, ← hg₃.globals.higherHalf, VmaRegion.start_eq, hwb]
  have hgrow : Grows { k with mem := k.mem.store64 (x.slot 3) (k.higherHalf b.1) } (free₁ ++ [b]) lab k₂ free₁ lab := by
    refine ⟨⟨hgl₂.hhdm, hgl₂.pages, hgl₂.kernel, hgl₂.oom⟩, ⟨[b], rfl, fun _ => .inl⟩, fun hl => hl, ?_⟩
    have hfill : Mem.EqOutside {b} k.mem k₁.mem := by
      rw [hm₁]
      exact Mem.EqOutside.fill _ _ _ le_rfl
    have hsub : ({b} : Set Frame) ⊆ {f | lab f ≠ none ∨ f ∈ free₁ ++ [b]} := by
      rintro f rfl
      exact .inr hbf
    rw [hg₁.globals.higherHalf] at hout
    exact ((hfill.store64_congr _ _).trans hout).mono hsub
  refine ⟨b, free₁, free₃, lab₃, ?_, rfl, hb, hg₃.held hb, ho₃, hgrow.trans hg₃, ?_, ?_, ?_, ?_, ?_, fun hfl => ?_⟩
  · rw [hptr', hw0, hwx, hwx]
  · rw [hwb, hptr']
  · rw [hwb, hw1]
  · rw [hwb, hw3, hwx]
  · rw [hwb, hw4, hg₁.globals.higherHalf]
  · rw [List.length_append]
    omega
  · have hload := hbk hfl
    rw [← hptr'] at hload
    have hfill : Mem.EqOutside {b, x} k.mem k₁.mem := by
      rw [hm₁]
      exact (Mem.EqOutside.fill k.mem b 0 le_rfl).mono (by simp)
    refine hload.before h.tables hr (hfill.trans hbx) ?_
    rintro f (rfl | rfl)
    · exact hb.notTable
    · exact hx.notTable

end ShadowOS.Mm
