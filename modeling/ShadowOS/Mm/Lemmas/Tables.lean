import ShadowOS.Mm.Init
import ShadowOS.Mm.Lemmas.Spaces

/-!
# The tables under one root

Under a single root the tables are counted by their paths, and the free stack shrinks by one frame for each.
-/

namespace ShadowOS.Mm

variable {k : State} {all free : List Frame} {lab : Labels} {r n : Frame} {paths : List (List (Fin 512))}

/-- All tables are under the root `r` and have the given paths; the frames were taken from the end of `all`. -/
structure Tabled (k : State) (all free : List Frame) (lab : Labels) (r : Frame) (paths : List (List (Fin 512))) : Prop where
  base : Tables k all free lab
  root : lab r = some (r, [])
  only : ∀ {f o p}, lab f = some (o, p) → o = r
  mem : ∀ {p}, p ∈ paths ↔ ∃ f, lab f = some (r, p)
  count : free.length + paths.length = all.length
  order : free <+: all

theorem length_insert_le (paths : List (List (Fin 512))) (p : List (Fin 512)) : paths.length ≤ (paths.insert p).length := by
  by_cases hp : p ∈ paths
  · rw [List.insert_of_mem hp]
  · rw [List.insert_of_not_mem hp, List.length_cons]
    exact Nat.le_succ _

theorem length_addTables_le (paths : List (List (Fin 512))) (op : VmmOp) : paths.length ≤ (addTables paths op).length := by
  cases op with
  | map virt phys flags =>
      exact ((length_insert_le _ _).trans (length_insert_le _ _)).trans (length_insert_le _ _)
  | unmap virt => exact le_rfl

namespace Tabled

/-- What is free is what is left at the bottom of the stack. -/
theorem free_eq (h : Tabled k all free lab r paths) : free = all.take (all.length - paths.length) := by
  have hc := h.count
  rw [List.prefix_iff_eq_take.mp h.order]
  congr 1
  omega

/-- The entry of a table names a table exactly if its path is there. -/
theorem mem_iff_present {p : List (Fin 512)} {i : Fin 512} (h : Tabled k all free lab r paths) (hn : lab n = some (r, p))
    (hp : p.length < 3) : p ++ [i] ∈ paths ↔ ¬ k.mem.word n i &&& 1 = 0 := by
  rw [h.mem]
  constructor
  · rintro ⟨f, hf⟩ hc
    obtain ⟨n', hn', hx⟩ := h.base.tables.home hf
    rw [h.base.tables.inj hn' hn, pte_next_absent hc] at hx
    cases hx
  · intro hc
    obtain ⟨o, ho, _⟩ := h.base.tables.step hn hp (pte_next_present hc)
    cases h.only ho
    exact ⟨_, ho⟩

/-- One level of `vmm_map`: the path of the next table is there, or the frames have run out. -/
theorem nextTable {p : List (Fin 512)} {i : Fin 512} {idx : U64} (h : Tabled k all free lab r paths)
    (hn : lab n = some (r, p)) (hp : p.length < 3) (hi : idx.toNat = i.1) :
    (∃ k' free' lab' m, Mm.nextTable k (k.higherHalf n.1) idx = (k'.higherHalf m.1, k') ∧
      Tabled k' all free' lab' r (paths.insert (p ++ [i])) ∧ lab' m = some (r, p ++ [i]) ∧ SameGlobals k k' ∧
      SameLeaf lab k.mem k'.mem) ∨
    (Mm.nextTable k (k.higherHalf n.1) idx).2.outOfMemory = true ∧ all.length < (paths.insert (p ++ [i])).length := by
  have hmem := h.mem_iff_present (i := i) hn hp
  have hcount := h.count
  by_cases he : k.mem.word n i &&& 1 = 0
  · have hnew : p ++ [i] ∉ paths := fun hc => hmem.mp hc he
    rw [List.insert_of_not_mem hnew]
    rcases List.eq_nil_or_concat free with rfl | ⟨free', f, rfl⟩
    · refine .inr ⟨?_, ?_⟩
      · unfold Mm.nextTable
        simp only [load_entryPtr k n hi, he, ↓reduceIte, h.base.stack.request_empty]
        rfl
      · simp only [List.length_nil, List.length_cons] at hcount ⊢
        omega
    · rw [List.concat_eq_append] at h hcount
      obtain ⟨k', heq, ho, hg, _, hl, hf, _⟩ := h.base.nextTable_absent hn hp hi he
      refine .inl ⟨k', free', _, f, heq, ⟨ho, hg.keep h.root, fun {g o q} hq => ?_, fun {q} => ?_, ?_, ?_⟩, ?_, hg.globals, hl⟩
      · split at hq
        · cases hq
          rfl
        · exact h.only hq
      · rw [List.mem_cons, h.mem]
        constructor
        · rintro (rfl | ⟨g, hq⟩)
          · exact ⟨f, if_pos rfl⟩
          · refine ⟨g, (if_neg ?_).trans hq⟩
            rintro rfl
            rw [hf] at hq
            cases hq
        · rintro ⟨g, hq⟩
          split at hq
          · cases hq
            exact .inl rfl
          · exact .inr ⟨g, hq⟩
      · simp only [List.length_append, List.length_cons, List.length_nil] at hcount ⊢
        omega
      · exact (List.prefix_append free' [f]).trans h.order
      · exact if_pos rfl
  · have heq : Mm.nextTable k (k.higherHalf n.1) idx = (k.higherHalf (k.mem.word n i &&& addrMask), k) := by
      unfold Mm.nextTable
      simp only [load_entryPtr k n hi, he, ↓reduceIte]
    obtain ⟨o, ho, _⟩ := h.base.tables.step hn hp (pte_next_present he)
    cases h.only ho
    rw [List.insert_of_mem (hmem.mpr he)]
    exact .inl ⟨k, free, lab, ⟨_, and_addrMask_toNat _⟩, heq, h, ho, .refl k, fun _ _ _ => rfl⟩

/-- The three levels above the last: the tables of the path are there, or the frames have run out. -/
theorem pml1Table (h : Tabled k all free lab r paths) (virt : U64) :
    (∃ k' free' lab' t, Mm.pml1Table k (k.higherHalf r.1) virt = (k'.higherHalf t.1, k') ∧
      Tabled k' all free' lab' r (((paths.insert [ix virt 39]).insert [ix virt 39, ix virt 30]).insert (path virt)) ∧
      lab' t = some (r, path virt) ∧ SameGlobals k k' ∧ ∀ v, leaf k'.mem r v = leaf k.mem r v) ∨
    (Mm.pml1Table k (k.higherHalf r.1) virt).2.outOfMemory = true ∧
      all.length < (((paths.insert [ix virt 39]).insert [ix virt 39, ix virt 30]).insert (path virt)).length := by
  simp only [Mm.pml1Table]
  have hoom : ∀ {k : State} {t i : U64}, k.outOfMemory = true → (Mm.nextTable k t i).2.outOfMemory = true :=
    fun hk => by_contra fun hc => by
      rw [nextTable_oom (Bool.eq_false_iff.mpr hc)] at hk
      cases hk
  rcases h.nextTable h.root (by simp) (pmlIdx_toNat virt 39 (by omega)) with
    ⟨k₁, free₁, lab₁, t₃, he₁, h₁, hl₁, hg₁, hs₁⟩ | ⟨ho, hlt⟩
  · simp only [he₁]
    rw [List.nil_append] at h₁ hl₁
    rcases h₁.nextTable hl₁ (by simp) (pmlIdx_toNat virt 30 (by omega)) with
      ⟨k₂, free₂, lab₂, t₂, he₂, h₂, hl₂, hg₂, hs₂⟩ | ⟨ho, hlt⟩
    · simp only [he₂]
      rw [List.singleton_append] at h₂ hl₂
      rcases h₂.nextTable hl₂ (by simp) (pmlIdx_toNat virt 21 (by omega)) with
        ⟨k₃, free₃, lab₃, t₁, he₃, h₃, hl₃, hg₃, hs₃⟩ | ⟨ho, hlt⟩
      · rw [List.cons_append, List.singleton_append] at h₃ hl₃
        refine .inl ⟨k₃, free₃, lab₃, t₁, he₃, h₃, hl₃, (hg₁.trans hg₂).trans hg₃, fun v => ?_⟩
        rw [hs₃ r h₂.root v, hs₂ r h₁.root v, hs₁ r h.root v]
      · rw [List.cons_append, List.singleton_append] at hlt
        exact .inr ⟨ho, hlt⟩
    · rw [List.singleton_append] at hlt
      exact .inr ⟨hoom ho, hlt.trans_le (length_insert_le _ _)⟩
  · rw [List.nil_append] at hlt
    exact .inr ⟨hoom (hoom ho), hlt.trans_le ((length_insert_le _ _).trans (length_insert_le _ _))⟩

/-- A store to the last-level table of `virt` is seen on its page. -/
theorem storeLeaf {t : Frame} {virt : U64} (h : Tabled k all free lab r paths) (ht : lab t = some (r, path virt)) (e : U64) :
    Tabled { k with mem := k.mem.store64 (t.slot (ix virt 12)) e } all free lab r paths ∧
      ∀ v, leaf (k.mem.store64 (t.slot (ix virt 12)) e) r v = if pageNo v = pageNo virt then e else leaf k.mem r v := by
  refine ⟨⟨h.base.storeLeaf ht (by simp [path]) _ _, h.root, h.only, h.mem, h.count, h.order⟩, fun v => ?_⟩
  rw [leaf, word_store64_eq_set, h.base.flagged.look_set_leaf ht (by simp [path]) h.root (by simp [path])]
  refine if_congr ?_ rfl rfl
  rw [flagged_walk, walk_eq_iff h.base.tables h.root h.root (h.base.tables.walk_of_lab ht)]
  exact ⟨fun hc => hc.1, fun hc => ⟨hc, .inl rfl⟩⟩

/-- `vmm_map` makes the tables that are missing and maps the page, or the frames run out. -/
theorem vmmMap (h : Tabled k all free lab r paths) (virt phys flags : U64) :
    (∃ free' lab', Tabled (Mm.vmmMap k (k.higherHalf r.1) virt phys flags) all free' lab' r
        (addTables paths (.map virt phys flags)) ∧ SameGlobals k (Mm.vmmMap k (k.higherHalf r.1) virt phys flags) ∧
      ∀ v, leaf (Mm.vmmMap k (k.higherHalf r.1) virt phys flags).mem r v =
        if pageNo v = pageNo virt then phys ||| flags else leaf k.mem r v) ∨
    (Mm.vmmMap k (k.higherHalf r.1) virt phys flags).outOfMemory = true ∧
      all.length < (addTables paths (.map virt phys flags)).length := by
  simp only [Mm.vmmMap]
  rcases h.pml1Table virt with ⟨k₁, free₁, lab₁, t, he, h₁, ht, hg, hleaf⟩ | ⟨ho, hlt⟩
  · simp only [he, store_entryPtr k₁ t (pmlIdx_toNat virt 12 (by omega))]
    obtain ⟨h₂, hleaf₂⟩ := h₁.storeLeaf ht (phys ||| flags)
    refine .inl ⟨free₁, lab₁, h₂, ⟨hg.hhdm, hg.pages, hg.kernel, hg.oom⟩, fun v => ?_⟩
    rw [hleaf₂, hleaf]
  · exact .inr ⟨ho, hlt⟩

/-- After a sequence of maps the tables are those it needs, or it needs more than there are frames. -/
theorem foldl {pm : U64} (h : Tabled k all free lab r paths) (hpm : k.higherHalf r.1 = pm) {ops : List VmmOp}
    (hops : ∀ op ∈ ops, op.IsMap) (hzero : ∀ v, leaf k.mem r v = 0) :
    (∃ free' lab', Tabled (ops.foldl (VmmOp.apply pm) k) all free' lab' r (ops.foldl addTables paths) ∧
      SameGlobals k (ops.foldl (VmmOp.apply pm) k) ∧
      ∀ v, leaf (ops.foldl (VmmOp.apply pm) k).mem r v &&& addrMask = VmmOp.lookup ops v) ∨
    (ops.foldl (VmmOp.apply pm) k).outOfMemory = true ∧ all.length < (ops.foldl addTables paths).length := by
  induction ops using List.reverseRecOn with
  | nil =>
      refine .inl ⟨free, lab, h, .refl k, fun v => ?_⟩
      rw [List.foldl_nil, hzero]
      exact BitVec.zero_and
  | append_singleton ops op ih =>
      rw [List.foldl_concat, List.foldl_concat]
      rw [List.forall_mem_append, List.forall_mem_singleton] at hops
      rcases ih hops.1 with ⟨free₁, lab₁, h₁, hg₁, hl₁⟩ | ⟨ho, hlt⟩
      · cases op with
        | map virt phys flags =>
            have hmap := h₁.vmmMap virt phys flags
            rw [(hg₁.higherHalf r.1).trans hpm] at hmap
            rcases hmap with ⟨free₂, lab₂, h₂, hg₂, hl₂⟩ | hout
            · refine .inl ⟨free₂, lab₂, h₂, hg₁.trans hg₂, fun v => ?_⟩
              rw [VmmOp.lookup_concat, ← hl₁ v]
              refine (congrArg (· &&& addrMask) (hl₂ v)).trans ?_
              rw [apply_ite (· &&& addrMask)]
              rfl
            · exact .inr hout
        | unmap virt => exact hops.2.elim
      · refine .inr ⟨by_contra fun hc => ?_, hlt.trans_le (length_addTables_le _ _)⟩
        rw [VmmOp.apply_oom (Bool.eq_false_iff.mpr hc)] at ho
        cases ho

end Tabled

end ShadowOS.Mm
