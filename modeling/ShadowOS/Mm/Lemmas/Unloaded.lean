import ShadowOS.Mm.Runs
import ShadowOS.Mm.Lemmas.Vma

/-!
# Pages that give their frames back

The loop of `vma_free`: the frame of a page is looked up under the root `s`, released, and the page is unmapped under
the root `r`. The two roots need not be the same.
-/

namespace ShadowOS.Mm

variable {k : State} {all free freed freed' : List Frame} {lab : Labels} {c b d g r s : Frame} {S S' T : Set (BitVec 36)}
  {m m₁ m₂ : Mem}

theorem Held.append (hg : Held all free lab g) (hn : g ∉ freed) : Held all (free ++ freed) lab g :=
  ⟨hg.mem, by simpa using ⟨hg.notFree, hn⟩, hg.notTable⟩

theorem Held.release (hg : Held all free lab g) (hne : g ≠ d) : Held all (free ++ [d]) lab g := hg.append (by simpa using hne)

theorem sharesTable_iff {k : State} {r s : Frame} (hne : s ≠ r) (v : U64) :
    SharesTable k (k.higherHalf r.1) (k.higherHalf s.1) v ↔ Sees k.mem s r (ix v 39) := by
  have hr := load_entryPtr k r (pmlIdx_toNat v 39 (by omega))
  have hs := load_entryPtr k s (pmlIdx_toNat v 39 (by omega))
  simp only [SharesTable, Sees, hr, hs, hne, false_or]
  by_cases he : k.mem.word r (ix v 39) &&& 1 = 0
  · simp only [he, ne_eq, not_true_eq_false, false_and, pte_next_absent he]
  · rw [pte_next_present he]
    by_cases he' : k.mem.word s (ix v 39) &&& 1 = 0
    · rw [pte_next_absent he']
      simp only [he', ne_eq, not_true_eq_false, false_and, and_false, reduceCtorEq]
    · rw [pte_next_present he']
      simp only [ne_eq, he, not_false_eq_true, he', true_and, reduceCtorEq, Option.some.injEq, Subtype.mk.injEq]
      exact eq_comm

/-! ## Frames of pages -/

/-- Every page of `S` is unmapped or has a frame of its own that is in use. -/
structure Backing (all free : List Frame) (lab : Labels) (S : Set (BitVec 36)) (T : U64 → U64) : Prop where
  page : ∀ {v}, pageNo v ∈ S → T v = 0 ∨ ∃ d : Frame, T v = d.1 ∧ Held all free lab d
  inj : ∀ {v w}, pageNo v ∈ S → pageNo w ∈ S → T v = T w → T v ≠ 0 → pageNo v = pageNo w

theorem Backing.empty (all free : List Frame) (lab : Labels) (f : U64 → U64) : Backing all free lab ∅ f :=
  ⟨fun hv => absurd hv (Set.notMem_empty _), fun hv => absurd hv (Set.notMem_empty _)⟩

/-- Loading gives a page that the root `s` sees a fresh frame, and leaves the other pages their frames. -/
theorem Loaded.backing {free₁ free' : List Frame} {lab' : Labels} (hl : Loaded all free₁ lab free' lab' r S m m₁)
    (hs : lab s = some (s, [])) (hsub : free₁ ⊆ free) (hheld : ∀ {g}, Held all free lab g → Held all free' lab' g)
    (hb : Backing all free lab T (translation m s))
    (hcover : ∀ {v}, pageNo v ∈ S' → pageNo v ∈ S ∧ Sees m s r (ix v 39) ∨ pageNo v ∈ T) :
    Backing all free' lab' S' (translation m₁ s) := by
  have hcase : ∀ {v}, pageNo v ∈ S' →
      (pageNo v ∈ S ∧ translation m₁ s v = translation m₁ r v ∧ ∃ d : Frame, translation m₁ s v = d.1 ∧ d ∈ free₁ ∧
        Held all free' lab' d) ∨ (pageNo v ∈ T ∧ translation m₁ s v = translation m s v) := by
    intro v hv
    by_cases hc : pageNo v ∈ S ∧ Sees m s r (ix v 39)
    · have he := hl.shared hs hc.1 hc.2
      obtain ⟨d, hd, hdf, hdh⟩ := hl.page hc.1
      exact .inl ⟨hc.1, he, d, he.trans hd, hdf, hdh⟩
    · exact .inr ⟨(hcover hv).resolve_left hc, hl.other hs hc⟩
  -- a fresh frame is none that was in use
  have hfresh : ∀ {v w} {d : Frame}, pageNo w ∈ T → d ∈ free₁ → translation m₁ s v = d.1 →
      translation m₁ s w = translation m s w → translation m₁ s v ≠ 0 → translation m₁ s v ≠ translation m₁ s w := by
    intro v w d hw hd hvd hww hne heq
    rcases hb.page hw with hz | ⟨d', hd', hdh'⟩
    · exact hne (heq.trans (hww.trans hz))
    · have hdd : d = d' := Subtype.ext (hvd.symm.trans (heq.trans (hww.trans hd')))
      exact hdh'.notFree (hsub (hdd ▸ hd))
  refine ⟨fun {v} hv => ?_, fun {v w} hv hw heq hne => ?_⟩
  · rcases hcase hv with ⟨_, _, d, hd, _, hdh⟩ | ⟨hv', he⟩
    · exact .inr ⟨d, hd, hdh⟩
    · rw [he]
      exact (hb.page hv').imp_right (fun ⟨d, hd, hdh⟩ => ⟨d, hd, hheld hdh⟩)
  · rcases hcase hv with ⟨hvS, hvr, d, hd, hdf, _⟩ | ⟨hv', he⟩
    · rcases hcase hw with ⟨hwS, hwr, _⟩ | ⟨hw', he'⟩
      · exact hl.inj hvS hwS (hvr.symm.trans (heq.trans hwr))
      · exact absurd heq (hfresh hw' hdf hd he' hne)
    · rcases hcase hw with ⟨_, _, d, hd, hdf, _⟩ | ⟨hw', he'⟩
      · exact absurd heq.symm (hfresh hv' hdf hd he (heq ▸ hne))
      · rw [he, he'] at heq
        rw [he] at hne
        exact hb.inj hv' hw' heq hne

/-- No page has a frame afterwards that was in use before, unless it had it before. -/
theorem Loaded.ne_held {free₁ free' : List Frame} {lab' : Labels} {f : Frame} (hl : Loaded all free₁ lab free' lab' r S m m₁)
    (hs : lab s = some (s, [])) (hf : Held all free₁ lab f) {v : U64}
    (hold : ¬ (pageNo v ∈ S ∧ Sees m s r (ix v 39)) → translation m s v ≠ f.1) : translation m₁ s v ≠ f.1 := by
  by_cases hc : pageNo v ∈ S ∧ Sees m s r (ix v 39)
  · obtain ⟨d, hd, hdf, _⟩ := hl.page hc.1
    rw [hl.shared hs hc.1 hc.2, hd]
    intro he
    rw [Subtype.ext he] at hdf
    exact hf.notFree hdf
  · rw [hl.other hs hc]
    exact hold hc

/-- The pages of `S` that are mapped under the root `s` gave back the frames `freed` and are unmapped under the root `r`
and under all roots that share the table. -/
structure Unloaded (all free freed : List Frame) (lab : Labels) (r s : Frame) (S : Set (BitVec 36)) (m m' : Mem) : Prop where
  freed_iff : ∀ d, d ∈ freed ↔ d.1 ≠ 0 ∧ ∃ v, pageNo v ∈ S ∧ translation m s v = d.1
  cleared : ∀ {r'}, lab r' = some (r', []) → ∀ {v}, pageNo v ∈ S → translation m s v ≠ 0 → Sees m r' r (ix v 39) →
    translation m' r' v = 0
  other : ∀ {r'}, lab r' = some (r', []) → ∀ {v}, ¬ (pageNo v ∈ S ∧ translation m s v ≠ 0 ∧ Sees m r' r (ix v 39)) →
    translation m' r' v = translation m r' v
  sees : ∀ {r'}, lab r' = some (r', []) → ∀ i, Sees m' r' r i ↔ Sees m r' r i
  word : ∀ {g}, Held all free lab g → g ∉ freed → ∀ j, m'.word g j = m.word g j

namespace Unloaded

theorem refl (all free : List Frame) (lab : Labels) (r s : Frame) (m : Mem) (h : ∀ {v}, pageNo v ∈ S → translation m s v = 0) :
    Unloaded all free [] lab r s S m m where
  freed_iff := fun _ => ⟨fun hd => absurd hd List.not_mem_nil, fun ⟨hd, _, hv, he⟩ => absurd (he.symm.trans (h hv)) hd⟩
  cleared := fun _ _ hv hne => absurd (h hv) hne
  other := fun _ _ _ => rfl
  sees := fun _ _ => Iff.rfl
  word := fun _ _ _ => rfl

/-- What a root sees afterwards is what it saw before, or nothing. -/
theorem eq_or_zero (h : Unloaded all free freed lab r s S m m₁) {r' : Frame} (hr' : lab r' = some (r', [])) (v : U64) :
    translation m₁ r' v = translation m r' v ∨ translation m₁ r' v = 0 := by
  by_cases hc : pageNo v ∈ S ∧ translation m s v ≠ 0 ∧ Sees m r' r (ix v 39)
  · exact .inr (h.cleared hr' hc.1 hc.2.1 hc.2.2)
  · exact .inl (h.other hr' hc)

theorem trans (hs : lab s = some (s, [])) (h : Unloaded all free freed lab r s S m m₁)
    (h' : Unloaded all (free ++ freed) freed' lab r s T m₁ m₂) :
    Unloaded all free (freed ++ freed') lab r s (S ∪ T) m m₂ := by
  -- a page that the first part leaves out has its frame in the second one
  have hkeep : ∀ {v}, pageNo v ∉ S → translation m₁ s v = translation m s v := fun hv => h.other hs (fun hc => hv hc.1)
  have hne : ∀ {v}, translation m₁ s v ≠ 0 → translation m₁ s v = translation m s v :=
    fun hv => (h.eq_or_zero hs _).resolve_right hv
  refine ⟨fun d => ?_, fun {r'} hr' {v} hv hz hsee => ?_, fun {r'} hr' {v} hn => ?_,
    fun hr' i => (h'.sees hr' i).trans (h.sees hr' i), fun hg hn j => ?_⟩
  · rw [List.mem_append, h.freed_iff, h'.freed_iff]
    constructor
    · rintro (⟨hd, v, hv, he⟩ | ⟨hd, v, hv, he⟩)
      · exact ⟨hd, v, .inl hv, he⟩
      · exact ⟨hd, v, .inr hv, (hne (by rwa [he])).symm.trans he⟩
    · rintro ⟨hd, v, hv, he⟩
      by_cases hvS : pageNo v ∈ S
      · exact .inl ⟨hd, v, hvS, he⟩
      · exact .inr ⟨hd, v, hv.resolve_left hvS, (hkeep hvS).trans he⟩
  · by_cases hvS : pageNo v ∈ S
    · have h0 := h.cleared hr' hvS hz hsee
      rcases h'.eq_or_zero hr' v with he | he
      · exact he.trans h0
      · exact he
    · exact h'.cleared hr' (hv.resolve_left hvS) (by rwa [hkeep hvS]) ((h.sees hr' _).mpr hsee)
  · have h₂ : translation m₂ r' v = translation m₁ r' v := by
      refine h'.other hr' (fun ⟨hv, hz, hsee⟩ => hn ⟨.inr hv, ?_, (h.sees hr' _).mp hsee⟩)
      rwa [← hne hz]
    exact h₂.trans (h.other hr' (fun ⟨hv, hz⟩ => hn ⟨.inl hv, hz⟩))
  · rw [List.mem_append, not_or] at hn
    rw [h'.word (hg.append hn.1) hn.2, h.word hg hn.1]

/-- Other pages keep frames of their own. A page that is met again must be unmapped under `s`, too. -/
theorem backing (h : Unloaded all free freed lab r s S m m₁) (hs : lab s = some (s, []))
    (hb : Backing all free lab T (translation m s)) (hST : S ⊆ T) (hsub : S' ⊆ T)
    (hsee : ∀ {v}, pageNo v ∈ S' → pageNo v ∈ S → Sees m s r (ix v 39)) :
    Backing all (free ++ freed) lab S' (translation m₁ s) := by
  have hcase : ∀ {v}, pageNo v ∈ S' → translation m₁ s v = 0 ∨
      translation m₁ s v = translation m s v ∧ (translation m s v ≠ 0 → pageNo v ∉ S) := by
    intro v hv
    by_cases hc : pageNo v ∈ S ∧ translation m s v ≠ 0
    · exact .inl (h.cleared hs hc.1 hc.2 (hsee hv hc.1))
    · exact .inr ⟨h.other hs (fun hx => hc ⟨hx.1, hx.2.1⟩), fun hz hx => hc ⟨hx, hz⟩⟩
  refine ⟨fun {v} hv => ?_, fun {v w} hv hw heq hne => ?_⟩
  · rcases hcase hv with hz | ⟨he, hn⟩
    · exact .inl hz
    · rcases hb.page (hsub hv) with hz | ⟨d, hd, hdh⟩
      · exact .inl (he.trans hz)
      · refine .inr ⟨d, he.trans hd, hdh.append (fun hdf => ?_)⟩
        obtain ⟨hd0, w, hw, hwd⟩ := (h.freed_iff d).mp hdf
        have hz : translation m s v ≠ 0 := by rwa [hd]
        have hvw := hb.inj (hsub hv) (hST hw) (hd.trans hwd.symm) hz
        exact hn hz (by rwa [hvw])
  · rcases hcase hv with hz | ⟨he, _⟩
    · exact absurd hz hne
    · rcases hcase hw with hz | ⟨he', _⟩
      · exact absurd (heq.trans hz) hne
      · rw [he, he'] at heq
        rw [he] at hne
        exact hb.inj (hsub hv) (hsub hw) heq hne

end Unloaded

/-! ## One page -/

/-- The frame of a page is released and the page unmapped. -/
theorem Owned.releaseUnmap (virt : U64) (h : Owned k all free lab) (hr : lab r = some (r, []))
    (hc : Held all free lab c) (hpm : k.mem.word c 0 = k.higherHalf r.1) (hd : Held all free lab d)
    (hvd : translation k.mem s virt = d.1) :
    ∃ k', Mm.vmmUnmap (pmmReleasePage k d.1) (VmaContext.pagemap (pmmReleasePage k d.1) (k.higherHalf c.1)) virt = k' ∧
      Owned k' all (free ++ [d]) lab ∧ SameGlobals k k' ∧
      Unloaded all free [d] lab r s {pageNo virt} k.mem k'.mem := by
  obtain ⟨k₁, he₁, ho₁, hg₁, hm₁⟩ := h.releasePage hd
  have hword : ∀ g, Held all free lab g → ∀ j, k₁.mem.word g j = k.mem.word g j :=
    fun g hg j => hm₁.word (h.stack.not_isArray hg.mem) j
  have htable : ∀ n, lab n ≠ none → k₁.mem.word n = k.mem.word n :=
    fun n hn => funext (hm₁.word (fun hc => (h.held n hn).2 hc))
  have hlook₁ : ∀ {r'}, lab r' = some (r', []) → ∀ v, translation k₁.mem r' v = translation k.mem r' v :=
    fun hr' v => h.tables.look_congr htable hr' (by simp [path])
  have hsees₁ : ∀ {r'}, lab r' = some (r', []) → ∀ i, Sees k₁.mem r' r i ↔ Sees k.mem r' r i := by
    intro r' hr' i
    simp only [Sees, htable r (by simp [hr]), htable r' (by simp [hr'])]
  rw [he₁, ← hg₁.higherHalf c.1, VmaContext.pagemap_eq, hword c hc, hpm, ← hg₁.higherHalf r.1]
  obtain ⟨ho₂, hg₂, hm₂⟩ := ho₁.vmmUnmap hr virt
  generalize Mm.vmmUnmap k₁ (k₁.higherHalf r.1) virt = k₂ at ho₂ hg₂ hm₂
  have hlook : ∀ {r'}, lab r' = some (r', []) → ∀ v, translation k₂.mem r' v =
      if pageNo v = pageNo virt ∧ Sees k.mem r' r (ix virt 39) then 0 else translation k.mem r' v := by
    intro r' hr' v
    have h0 : (0 : U64) &&& addrMask = 0 := by decide
    have hl := hm₂.look hr' v
    rw [h0] at hl
    exact hl.trans (if_congr (and_congr_right fun _ => hsees₁ hr' _) rfl (hlook₁ hr' v))
  refine ⟨k₂, rfl, ho₂, hg₁.trans hg₂.globals, fun f => ?_, fun {r'} hr' {v} hv _ hsee => ?_, fun {r'} hr' {v} hn => ?_,
    fun {r'} hr' i => (hm₂.sees_iff hr hr' i).trans (hsees₁ hr' i), fun {g} hg hne j => ?_⟩
  · rw [List.mem_singleton]
    constructor
    · rintro rfl
      exact ⟨h.stack.nonzero f hd.mem, virt, rfl, hvd⟩
    · rintro ⟨_, v, hv, he⟩
      rw [translation_congr hv, hvd] at he
      exact Subtype.ext he.symm
  · rw [ix_congr hv] at hsee
    rw [hlook hr', if_pos ⟨hv, hsee⟩]
  · rw [hlook hr', if_neg]
    rintro ⟨hv, hsee⟩
    refine hn ⟨hv, ?_, by rwa [ix_congr hv]⟩
    rw [translation_congr hv, hvd]
    exact h.stack.nonzero d hd.mem
  · rw [hg₂.word (hg.append hne), hword g hg]

/-! ## All pages of a region -/

/-- Where the kernel's pagemap has no page of the region, the loop does nothing. -/
theorem vmaUnmapPages_unmapped {ctx region : U64} (n : Nat) {i : Nat} (hi : i ≤ (VmaRegion.size k region).toNat)
    (h : ∀ j, i ≤ j → j < (VmaRegion.size k region).toNat →
      virtToPhys k k.kernelPagemap (pageAt (VmaRegion.start k region) j) = 0) :
    vmaUnmapPages ctx region n (BitVec.ofNat 64 i) k = k := by
  induction n generalizing i with
  | zero => rfl
  | succ n ih =>
      have hlt := (VmaRegion.size k region).isLt
      have hs : BitVec.ofNat 64 i + 1 = BitVec.ofNat 64 (i + 1) := (BitVec.ofNat_add i 1).symm
      simp only [vmaUnmapPages]
      split
      · rename_i hc
        rw [BitVec.lt_def, BitVec.toNat_ofNat] at hc
        have hi' : i < (VmaRegion.size k region).toNat := by omega
        have hz := h i le_rfl hi'
        rw [pageAt] at hz
        simp only [hz, ne_eq, not_true_eq_false, ↓reduceIte, hs]
        exact ih hi' (fun j hj => h j (by omega))
      · rfl

/-- The loop of `vma_free` from page `i` on. A page that it meets twice must be unmapped under the kernel's root as well,
else its frame would be released twice. -/
theorem Owned.vmaUnmapPages {start size : U64} (n : Nat) {i : Nat} (h : Owned k all free lab) (hr : lab r = some (r, []))
    (hs : lab s = some (s, [])) (hc : Held all free lab c) (hb : Held all free lab b)
    (hpm : k.mem.word c 0 = k.higherHalf r.1) (hk : k.kernelPagemap = k.higherHalf s.1) (hstart : k.mem.word b 0 = start)
    (hsize : k.mem.word b 1 = size) (hi : i ≤ size.toNat) (hn : size.toNat ≤ i + n)
    (hback : Backing all free lab (pagesFrom start i (size.toNat - i)) (translation k.mem s))
    (hcv : ∀ v, pageNo v ∈ pagesFrom start i (size.toNat - i) →
      translation k.mem s v ≠ c.1 ∧ translation k.mem s v ≠ b.1)
    (hsee : ∀ {j j'}, i ≤ j → j < j' → j' < size.toNat → pageNo (pageAt start j) = pageNo (pageAt start j') →
      Sees k.mem s r (ix (pageAt start j) 39)) :
    ∃ k' freed, Mm.vmaUnmapPages (k.higherHalf c.1) (k.higherHalf b.1) n (BitVec.ofNat 64 i) k = k' ∧
      Owned k' all (free ++ freed) lab ∧ SameGlobals k k' ∧
      Unloaded all free freed lab r s (pagesFrom start i (size.toNat - i)) k.mem k'.mem := by
  induction n generalizing k free i with
  | zero =>
      refine ⟨k, [], rfl, by rwa [List.append_nil], .refl k, .refl _ _ _ _ _ _ (fun hv => ?_)⟩
      have hz : size.toNat - i = 0 := by omega
      rw [hz, pagesFrom_zero] at hv
      exact absurd hv (Set.notMem_empty _)
  | succ n ih =>
      have hlt := size.isLt
      have hnext : BitVec.ofNat 64 i + 1 = BitVec.ofNat 64 (i + 1) := (BitVec.ofNat_add i 1).symm
      have hpage : start + BitVec.ofNat 64 i * pageSize = pageAt start i := rfl
      simp only [Mm.vmaUnmapPages, VmaRegion.size_eq, VmaRegion.start_eq, hk, virtToPhys_eq, hnext, hstart, hsize, hpage]
      by_cases hlast : BitVec.ofNat 64 i < size
      · simp only [hlast, ↓reduceIte]
        rw [BitVec.lt_def, BitVec.toNat_ofNat] at hlast
        have hlen : size.toNat - i = (size.toNat - (i + 1)) + 1 := by omega
        have hsplit := pagesFrom_succ start i (size.toNat - (i + 1))
        rw [← hlen] at hsplit
        have hin : {pageNo (pageAt start i)} ⊆ pagesFrom start i (size.toNat - i) := by
          rw [hsplit]
          exact Set.subset_union_left
        have hrest : pagesFrom start (i + 1) (size.toNat - (i + 1)) ⊆ pagesFrom start i (size.toNat - i) := by
          rw [hsplit]
          exact Set.subset_union_right
        -- one turn of the loop
        obtain ⟨k₁, freed₁, he₁, ho₁, hg₁, hu₁⟩ : ∃ k₁ freed₁,
            (if translation k.mem s (pageAt start i) ≠ 0 then
              Mm.vmmUnmap (pmmReleasePage k (translation k.mem s (pageAt start i)))
                (VmaContext.pagemap (pmmReleasePage k (translation k.mem s (pageAt start i))) (k.higherHalf c.1))
                (pageAt start i)
              else k) = k₁ ∧ Owned k₁ all (free ++ freed₁) lab ∧ SameGlobals k k₁ ∧
            Unloaded all free freed₁ lab r s {pageNo (pageAt start i)} k.mem k₁.mem := by
          rcases hback.page (hin rfl) with hz | ⟨d, hd, hdh⟩
          · refine ⟨k, [], by simp only [hz, ne_eq, not_true_eq_false, ↓reduceIte], by rwa [List.append_nil], .refl k,
              .refl _ _ _ _ _ _ (fun hv => ?_)⟩
            rw [translation_congr hv, hz]
          · obtain ⟨k₁, he₁, h₁⟩ := h.releaseUnmap (pageAt start i) hr hc hpm hdh hd
            refine ⟨k₁, [d], ?_, h₁⟩
            rw [hd, if_pos (h.stack.nonzero d hdh.mem), he₁]
        rw [he₁]
        have hapart : ∀ {g}, (∀ v, pageNo v ∈ pagesFrom start i (size.toNat - i) → translation k.mem s v ≠ g.1) →
            g ∉ freed₁ := by
          intro g hg hgf
          obtain ⟨_, v, hv, he⟩ := (hu₁.freed_iff g).mp hgf
          exact hg v (hin hv) he
        have hcf : c ∉ freed₁ := hapart (fun v hv => (hcv v hv).1)
        have hbf : b ∉ freed₁ := hapart (fun v hv => (hcv v hv).2)
        have hback₁ := hu₁.backing hs hback hin hrest (fun {v} hv hvi => by
          obtain ⟨j, hj, hj', hvj⟩ := hv
          rw [Set.mem_singleton_iff] at hvi
          rw [ix_congr hvi]
          exact hsee le_rfl (by omega) (by omega) (hvi.symm.trans hvj))
        have hcv₁ : ∀ v, pageNo v ∈ pagesFrom start (i + 1) (size.toNat - (i + 1)) →
            translation k₁.mem s v ≠ c.1 ∧ translation k₁.mem s v ≠ b.1 := by
          intro v hv
          rcases hu₁.eq_or_zero hs v with he | he
          · rw [he]
            exact hcv v (hrest hv)
          · rw [he]
            exact ⟨(h.stack.nonzero c hc.mem).symm, (h.stack.nonzero b hb.mem).symm⟩
        obtain ⟨k', freed₂, he, ho, hg, hu⟩ := ih (i := i + 1) ho₁ (hc.append hcf) (hb.append hbf)
          (by rw [hu₁.word hc hcf, hpm, hg₁.higherHalf]) (by rw [hg₁.kernel, hk, hg₁.higherHalf])
          (by rw [hu₁.word hb hbf, hstart]) (by rw [hu₁.word hb hbf, hsize]) (by omega) (by omega) hback₁ hcv₁
          (fun hj hjj hj' heq => (hu₁.sees hs _).mpr (hsee (by omega) hjj hj' heq))
        rw [hg₁.higherHalf, hg₁.higherHalf] at he
        refine ⟨k', freed₁ ++ freed₂, he, ?_, hg₁.trans hg, ?_⟩
        · rwa [← List.append_assoc]
        · rw [hsplit]
          exact hu₁.trans hs hu
      · simp only [hlast, ↓reduceIte]
        rw [BitVec.lt_def, BitVec.toNat_ofNat] at hlast
        refine ⟨k, [], rfl, by rwa [List.append_nil], .refl k, .refl _ _ _ _ _ _ (fun hv => ?_)⟩
        have hz : size.toNat - i = 0 := by omega
        rw [hz, pagesFrom_zero] at hv
        exact absurd hv (Set.notMem_empty _)

end ShadowOS.Mm
