import ShadowOS.Mm.Lemmas.Held

/-!
# Pages with frames of their own

Loops that request a frame for every page and map it: the stack of a process, a region of the heap, a segment of
a program.
-/

namespace ShadowOS.Mm

variable {k k₁ k₂ : State} {all free free₁ free₂ : List Frame} {lab lab₁ lab₂ : Labels} {r : Frame}

/-- What an address translates to from the root `r`. -/
def translation (m : Mem) (r : Frame) (v : U64) : U64 := pte.look m.word r (path v) (ix v 12)

theorem virtToPhys_eq (k : State) (r : Frame) (v : U64) :
    virtToPhys k (k.higherHalf r.1) v = translation k.mem r v := virtToPhys_eq_look k r v

theorem ix_congr {v w : U64} (h : pageNo v = pageNo w) : ix v 39 = ix w 39 := by
  have hp := (pageNo_eq_iff.mp h).1
  simp only [path, List.cons.injEq] at hp
  exact hp.1

theorem translation_congr {v w : U64} (h : pageNo v = pageNo w) (m : Mem) (r : Frame) :
    translation m r v = translation m r w := by
  obtain ⟨hp, hi⟩ := pageNo_eq_iff.mp h
  rw [translation, translation, hp, hi]

/-- The pages `S` under the root `r` got frames out of `free`, one each. All roots that share a table see them. -/
structure Loaded (all free : List Frame) (lab : Labels) (free' : List Frame) (lab' : Labels) (r : Frame)
    (S : Set (BitVec 36)) (m m' : Mem) : Prop where
  page : ∀ {v}, pageNo v ∈ S → ∃ d : Frame, translation m' r v = d.1 ∧ d ∈ free ∧ Held all free' lab' d
  inj : ∀ {v w}, pageNo v ∈ S → pageNo w ∈ S → translation m' r v = translation m' r w → pageNo v = pageNo w
  shared : ∀ {r'}, lab r' = some (r', []) → ∀ {v}, pageNo v ∈ S → Sees m r' r (ix v 39) →
    translation m' r' v = translation m' r v
  other : ∀ {r'}, lab r' = some (r', []) → ∀ {v}, ¬ (pageNo v ∈ S ∧ Sees m r' r (ix v 39)) →
    translation m' r' v = translation m r' v
  sees : ∀ {r'}, lab r' = some (r', []) → ∀ i, Sees m' r' r i ↔ Sees m r' r i

namespace Loaded

theorem refl (all free : List Frame) (lab : Labels) (r : Frame) (m : Mem) : Loaded all free lab free lab r ∅ m m where
  page := fun hv => absurd hv (Set.notMem_empty _)
  inj := fun hv => absurd hv (Set.notMem_empty _)
  shared := fun _ _ hv => absurd hv (Set.notMem_empty _)
  other := fun _ _ _ => rfl
  sees := fun _ _ => Iff.rfl

/-- Pages outside `S` keep their translation from the root itself. -/
theorem notMem {S : Set (BitVec 36)} {m m' : Mem} (h : Loaded all free lab free₁ lab₁ r S m m')
    (hr : lab r = some (r, [])) {v : U64} (hv : pageNo v ∉ S) : translation m' r v = translation m r v :=
  h.other hr (fun hc => hv hc.1)

theorem trans {S T : Set (BitVec 36)} (hr : lab r = some (r, [])) (h : Loaded all free lab free₁ lab₁ r S k.mem k₁.mem)
    (hg : Grows k free lab k₁ free₁ lab₁) (h' : Loaded all free₁ lab₁ free₂ lab₂ r T k₁.mem k₂.mem)
    (hg' : Grows k₁ free₁ lab₁ k₂ free₂ lab₂) : Loaded all free lab free₂ lab₂ r (S ∪ T) k.mem k₂.mem := by
  have hr₁ := hg.keep hr
  refine ⟨fun {v} hv => ?_, fun {v w} hv hw heq => ?_, fun {r'} hr' {v} hv hs => ?_, fun {r'} hr' {v} hn => ?_,
    fun {r'} hr' i => (h'.sees (hg.keep hr') i).trans (h.sees hr' i)⟩
  · by_cases hvT : pageNo v ∈ T
    · obtain ⟨d, hd, hdf, hdh⟩ := h'.page hvT
      exact ⟨d, hd, hg.free_sub hdf, hdh⟩
    · obtain ⟨d, hd, hdf, hdh⟩ := h.page (hv.resolve_right hvT)
      exact ⟨d, (h'.notMem hr₁ hvT).trans hd, hdf, hg'.held hdh⟩
  · by_cases hvT : pageNo v ∈ T
    · by_cases hwT : pageNo w ∈ T
      · exact h'.inj hvT hwT heq
      · obtain ⟨d, hd, hdf, _⟩ := h'.page hvT
        obtain ⟨d', hd', _, hdh'⟩ := h.page (hw.resolve_right hwT)
        rw [h'.notMem hr₁ hwT, hd, hd'] at heq
        rw [Subtype.ext heq] at hdf
        exact absurd hdf hdh'.notFree
    · by_cases hwT : pageNo w ∈ T
      · obtain ⟨d, hd, hdf, _⟩ := h'.page hwT
        obtain ⟨d', hd', _, hdh'⟩ := h.page (hv.resolve_right hvT)
        rw [h'.notMem hr₁ hvT, hd, hd'] at heq
        rw [← Subtype.ext heq] at hdf
        exact absurd hdf hdh'.notFree
      · rw [h'.notMem hr₁ hvT, h'.notMem hr₁ hwT] at heq
        exact h.inj (hv.resolve_right hvT) (hw.resolve_right hwT) heq
  · have hs₁ := (h.sees hr' (ix v 39)).mpr hs
    by_cases hvT : pageNo v ∈ T
    · exact h'.shared (hg.keep hr') hvT hs₁
    · rw [h'.notMem hr₁ hvT, h'.other (hg.keep hr') (fun hc => hvT hc.1)]
      exact h.shared hr' (hv.resolve_right hvT) hs
  · by_cases hs : Sees k.mem r' r (ix v 39)
    · have hv : pageNo v ∉ S ∪ T := fun hc => hn ⟨hc, hs⟩
      rw [Set.mem_union, not_or] at hv
      rw [h'.other (hg.keep hr') (fun hc => hv.2 hc.1), h.other hr' (fun hc => hv.1 hc.1)]
    · rw [h'.other (hg.keep hr') (fun hc => hs ((h.sees hr' _).mp hc.2)), h.other hr' (fun hc => hs hc.2)]

/-- Frames that are no tables may have been written before. -/
theorem before {S : Set (BitVec 36)} {m₀ m m' : Mem} {T : Set Frame} (h : Loaded all free lab free₁ lab₁ r S m m')
    (ho : pte.Forest 3 m₀.word lab) (hr : lab r = some (r, [])) (hm : Mem.EqOutside T m₀ m) (hT : ∀ f ∈ T, lab f = none) :
    Loaded all free lab free₁ lab₁ r S m₀ m' := by
  have hword : ∀ n, lab n ≠ none → m.word n = m₀.word n := fun n hn => funext (hm.word (fun hc => hn (hT n hc)))
  have hsees : ∀ {r'}, lab r' = some (r', []) → ∀ i, Sees m r' r i ↔ Sees m₀ r' r i := by
    intro r' hr' i
    simp only [Sees, hword r (by simp [hr]), hword r' (by simp [hr'])]
  refine ⟨h.page, h.inj, fun hr' _ hv hs => h.shared hr' hv ((hsees hr' _).mpr hs), fun {r'} hr' {v} hn => ?_,
    fun hr' i => (h.sees hr' i).trans (hsees hr' i)⟩
  rw [h.other hr' (fun hc => hn ⟨hc.1, (hsees hr' _).mp hc.2⟩)]
  exact ho.look_congr hword hr' (by simp [path])

/-- Frames that are in use may be written afterwards. -/
theorem write {S : Set (BitVec 36)} {m m' m'' : Mem} {T : Set Frame} (h : Loaded all free lab free₁ lab₁ r S m m')
    (ho : pte.Forest 3 m'.word lab₁) (hkeep : ∀ {f l}, lab f = some l → lab₁ f = some l) (hr : lab r = some (r, []))
    (hm : Mem.EqOutside T m' m'') (hT : ∀ f ∈ T, lab₁ f = none) : Loaded all free lab free₁ lab₁ r S m m'' := by
  have hword : ∀ n, lab₁ n ≠ none → m''.word n = m'.word n := fun n hn => funext (hm.word (fun hc => hn (hT n hc)))
  have hlook : ∀ {r'}, lab r' = some (r', []) → ∀ v, translation m'' r' v = translation m' r' v :=
    fun hr' v => ho.look_congr hword (hkeep hr') (by simp [path])
  have hsees : ∀ {r'}, lab r' = some (r', []) → ∀ i, Sees m'' r' r i ↔ Sees m' r' r i := by
    intro r' hr' i
    simp only [Sees, hword r (by simp [hkeep hr]), hword r' (by simp [hkeep hr'])]
  refine ⟨fun hv => ?_, fun hv hw heq => ?_, fun hr' _ hv hs => ?_, fun hr' _ hn => ?_, fun hr' i => ?_⟩
  · rw [hlook hr]
    exact h.page hv
  · rw [hlook hr, hlook hr] at heq
    exact h.inj hv hw heq
  · rw [hlook hr', hlook hr]
    exact h.shared hr' hv hs
  · rw [hlook hr']
    exact h.other hr' hn
  · rw [hsees hr', h.sees hr']

end Loaded

/-! ## One page -/

/-- A frame is requested for a page and mapped. -/
theorem Owned.mapPage (virt flags : U64) (h : Owned k all free lab) (hr : lab r = some (r, []))
    (hoom : 4 ≤ free.length ∨
      (Mm.vmmMap (pmmRequestPage k).2 (k.higherHalf r.1) virt (pmmRequestPage k).1 flags).outOfMemory = false) :
    ∃ f k' free' lab', (pmmRequestPage k).1 = f.1 ∧ f.1 ≠ 0 ∧ f ∈ free ∧
      Mm.vmmMap (pmmRequestPage k).2 (k.higherHalf r.1) virt f.1 flags = k' ∧ Owned k' all free' lab' ∧
      Grows k free lab k' free' lab' ∧ free.length ≤ free'.length + 4 ∧ free'.length < free.length ∧
      Held all free' lab' f ∧ (flags &&& addrMask = 0 →
        translation k'.mem r virt = f.1 ∧ Loaded all free lab free' lab' r {pageNo virt} k.mem k'.mem) := by
  obtain ⟨k₁, free₁, f, rfl, heq, ho₁, hg₁, hf, hf0, hm₁⟩ := h.requestPage (hoom.imp (by omega) vmmMap_oom)
  simp only [heq, List.length_append, List.length_singleton] at hoom ⊢
  rw [← hg₁.globals.higherHalf r.1] at hoom ⊢
  obtain ⟨free₂, lab₂, ho₂, hg₂, hn₂, hm₂⟩ := ho₁.vmmMap hr (hoom.imp_left (by omega))
  generalize hk₂ : Mm.vmmMap k₁ (k₁.higherHalf r.1) virt f.1 flags = k₂ at ho₂ hg₂ hm₂ ⊢
  have hlen : free₂.length ≤ free₁.length := by
    obtain ⟨used, hu, _⟩ := hg₂.taken
    rw [hu, List.length_append]
    omega
  refine ⟨f, k₂, free₂, lab₂, rfl, hf0, by simp, hk₂, ho₂, hg₁.trans hg₂, by omega, by omega, hg₂.held hf, fun hfl => ?_⟩
  have hfill := Mem.EqOutside.fill k.mem f 0 le_rfl
  -- the request itself changes no translation
  have hlook₁ : ∀ {r'}, lab r' = some (r', []) → ∀ v, translation k₁.mem r' v = translation k.mem r' v := by
    intro r' hr' v
    rw [hm₁]
    exact h.look_frame hfill (by rintro g rfl; exact hf.notTable) hr' v
  have hword₁ : ∀ {r'}, lab r' = some (r', []) → ∀ i, k₁.mem.word r' i = k.mem.word r' i := by
    intro r' hr' i
    rw [hm₁]
    refine hfill.word ?_ i
    rintro rfl
    rw [hf.notTable] at hr'
    cases hr'
  have hsees₁ : ∀ {r'}, lab r' = some (r', []) → ∀ i, Sees k₁.mem r' r i ↔ Sees k.mem r' r i := by
    intro r' hr' i
    simp only [Sees, hword₁ hr, hword₁ hr']
  have hlook : ∀ {r'}, lab r' = some (r', []) → ∀ v, translation k₂.mem r' v =
      if pageNo v = pageNo virt ∧ Sees k.mem r' r (ix virt 39) then f.1 else translation k.mem r' v := by
    intro r' hr' v
    have hl := hm₂.look hr' v
    rw [or_flags_and_addrMask flags f.2 (h.small f hf.mem) hfl] at hl
    rw [← hlook₁ hr' v]
    refine hl.trans (if_congr (and_congr_right fun _ => hsees₁ hr' _) rfl rfl)
  have hself : ∀ {v}, pageNo v = pageNo virt → translation k₂.mem r v = f.1 := by
    intro v hv
    rw [hlook hr, if_pos ⟨hv, .inl rfl⟩]
  refine ⟨hself rfl, fun hv => ⟨f, hself hv, by simp, hg₂.held hf⟩, fun hv hw _ => hv.trans hw.symm, ?_, ?_, ?_⟩
  · intro r' hr' v hv hs
    rw [ix_congr hv] at hs
    rw [hlook hr', if_pos ⟨hv, hs⟩, hself hv]
  · intro r' hr' v hn
    rw [hlook hr', if_neg]
    rintro ⟨hv, hs⟩
    exact hn ⟨hv, by rwa [ix_congr hv]⟩
  · intro r' hr' i
    rw [← hsees₁ hr']
    exact hm₂.sees_iff hr hr' i

/-- Frames that are no tables may be written. -/
theorem Owned.leaf_write {m : Mem} {T : Set Frame} (h : Owned k all free lab) (hm : Mem.EqOutside T k.mem m)
    (hT : ∀ f ∈ T, lab f = none) (hr : lab r = some (r, [])) (v : U64) : leaf m r v = leaf k.mem r v :=
  h.flagged.look_congr (fun _ hn => funext (hm.word (fun hc => hn (hT _ hc)))) hr (by simp [path])

/-- The entry of the page has the frame with the flags, and the other entries stay. -/
theorem Owned.mapPage_leaf (virt flags : U64) (h : Owned k all free lab) (hr : lab r = some (r, []))
    (hoom : 4 ≤ free.length ∨
      (Mm.vmmMap (pmmRequestPage k).2 (k.higherHalf r.1) virt (pmmRequestPage k).1 flags).outOfMemory = false) (v : U64) :
    leaf (Mm.vmmMap (pmmRequestPage k).2 (k.higherHalf r.1) virt (pmmRequestPage k).1 flags).mem r v =
      if pageNo v = pageNo virt then (pmmRequestPage k).1 ||| flags else leaf k.mem r v := by
  obtain ⟨k₁, free₁, f, rfl, heq, ho₁, hg₁, hf, _, hm₁⟩ := h.requestPage (hoom.imp (by omega) vmmMap_oom)
  simp only [heq, List.length_append, List.length_singleton] at hoom ⊢
  rw [← hg₁.globals.higherHalf r.1] at hoom ⊢
  rw [ho₁.vmmMap_leaf hr (hoom.imp_left (by omega)), hm₁]
  refine if_congr Iff.rfl rfl (h.leaf_write (Mem.EqOutside.fill k.mem f 0 le_rfl) ?_ hr v)
  rintro g rfl
  exact hf.notTable

/-! ## Consecutive pages -/

/-- The `j`-th page from `start` on. -/
def pageAt (start : U64) (j : Nat) : U64 := start + BitVec.ofNat 64 j * pageSize

/-- The pages `i`, …, `i + n - 1` from `start` on. -/
def pagesFrom (start : U64) (i n : Nat) : Set (BitVec 36) := {p | ∃ j, i ≤ j ∧ j < i + n ∧ p = pageNo (pageAt start j)}

theorem pagesFrom_zero (start : U64) (i : Nat) : pagesFrom start i 0 = ∅ := by
  ext p
  simp only [pagesFrom, Set.mem_ofPred_eq, Set.mem_empty_iff_false, iff_false]
  rintro ⟨j, hi, hj, _⟩
  omega

theorem pagesFrom_succ (start : U64) (i n : Nat) :
    pagesFrom start i (n + 1) = {pageNo (pageAt start i)} ∪ pagesFrom start (i + 1) n := by
  ext p
  simp only [pagesFrom, Set.mem_ofPred_eq, Set.mem_union, Set.mem_singleton_iff]
  constructor
  · rintro ⟨j, hi, hj, hp⟩
    rcases Nat.eq_or_lt_of_le hi with rfl | hlt
    · exact .inl hp
    · exact .inr ⟨j, hlt, by omega, hp⟩
  · rintro (hp | ⟨j, hi, hj, hp⟩)
    · exact ⟨i, le_rfl, by omega, hp⟩
    · exact ⟨j, by omega, by omega, hp⟩

end ShadowOS.Mm
