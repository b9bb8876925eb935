import ShadowOS.Mm.Runs
import ShadowOS.Mm.Lemmas.Loaded

/-!
# Address spaces

The lower half of a pagemap leads to tables of its own: no other pagemap has an entry for one of them.
-/

namespace ShadowOS.Mm

theorem vmmUnmap_oom (k : State) (pm v : U64) : (vmmUnmap k pm v).outOfMemory = k.outOfMemory := by
  simp only [vmmUnmap]
  split
  · rfl
  · split
    · rfl
    · split
      · rfl
      · rfl

theorem VmmOp.apply_oom {pm : U64} {k : State} {op : VmmOp} (h : (op.apply pm k).outOfMemory = false) :
    k.outOfMemory = false := by
  cases op with
  | map virt phys flags => exact vmmMap_oom h
  | unmap virt => exact (vmmUnmap_oom k pm virt).symm.trans h

variable {k : State} {all free : List Frame} {lab : Labels} {r r' s : Frame}

/-- An operation writes the entry of its own page. -/
theorem Owned.vmmOp {op : VmmOp} (h : Owned k all free lab) (hr : lab r = some (r, []))
    (hoom : (op.apply (k.higherHalf r.1) k).outOfMemory = false) :
    ∃ free' lab', Owned (op.apply (k.higherHalf r.1) k) all free' lab' ∧
      Grows k free lab (op.apply (k.higherHalf r.1) k) free' lab' ∧
      Maps lab r op.virt op.entry k.mem (op.apply (k.higherHalf r.1) k).mem := by
  cases op with
  | map virt phys flags =>
      obtain ⟨free', lab', ho, hg, _, hm⟩ := h.vmmMap hr (.inr hoom)
      exact ⟨free', lab', ho, hg, hm⟩
  | unmap virt =>
      obtain ⟨ho, hg, hm⟩ := h.vmmUnmap hr virt
      exact ⟨free, lab, ho, hg, hm⟩

namespace VmmOp

theorem lookup_concat (ops : List VmmOp) (op : VmmOp) (v : U64) :
    lookup (ops ++ [op]) v = if pageNo v = pageNo op.virt then op.entry &&& addrMask else lookup ops v := by
  simp only [lookup, List.reverse_append, List.reverse_singleton, List.singleton_append, List.find?_cons]
  by_cases h : pageNo v = pageNo op.virt
  · simp [h]
  · have h' : ¬ pageNo op.virt = pageNo v := fun hc => h hc.symm
    simp [h, h']

/-- One operation changes the translation of its own page only. -/
theorem apply_look {pm : U64} {op : VmmOp} (h : Owned k all free lab) (hr : lab r = some (r, []))
    (hpm : k.higherHalf r.1 = pm) (hoom : (op.apply pm k).outOfMemory = false) :
    ∃ free' lab', Owned (op.apply pm k) all free' lab' ∧ Grows k free lab (op.apply pm k) free' lab' ∧
      ∀ v, pte.look (op.apply pm k).mem.word r (path v) (ix v 12) =
        if pageNo v = pageNo op.virt then op.entry &&& addrMask else pte.look k.mem.word r (path v) (ix v 12) := by
  subst hpm
  obtain ⟨free', lab', ho, hg, hm⟩ := h.vmmOp hr hoom
  refine ⟨free', lab', ho, hg, fun v => ?_⟩
  have hl := hm.look hr v
  simp only [Sees, true_or, and_true] at hl
  exact hl

/-- The tables after a sequence of operations hold what the last operation on a page says. -/
theorem foldl_look {pm : U64} {ops : List VmmOp} (h : Owned k all free lab) (hr : lab r = some (r, []))
    (hpm : k.higherHalf r.1 = pm) (hzero : ∀ v, pte.look k.mem.word r (path v) (ix v 12) = 0)
    (hoom : (ops.foldl (apply pm) k).outOfMemory = false) :
    ∃ free' lab', Owned (ops.foldl (apply pm) k) all free' lab' ∧ Grows k free lab (ops.foldl (apply pm) k) free' lab' ∧
      ∀ v, pte.look (ops.foldl (apply pm) k).mem.word r (path v) (ix v 12) = lookup ops v := by
  induction ops using List.reverseRecOn with
  | nil => exact ⟨free, lab, h, .refl _ _ _, hzero⟩
  | append_singleton ops op ih =>
      rw [List.foldl_concat] at hoom ⊢
      obtain ⟨free₁, lab₁, ho₁, hg₁, hl₁⟩ := ih (apply_oom hoom)
      have hpm₁ := (hg₁.globals.higherHalf r.1).trans hpm
      obtain ⟨free₂, lab₂, ho₂, hg₂, hl₂⟩ := apply_look ho₁ (hg₁.keep hr) hpm₁ hoom
      refine ⟨free₂, lab₂, ho₂, hg₁.trans hg₂, fun v => ?_⟩
      rw [hl₂, hl₁, lookup_concat]

end VmmOp

/-- Bit 47 of an address tells the halves of a pagemap apart. -/
theorem ix_lt_iff (v : U64) : (ix v 39).1 < 256 ↔ v.getLsbD 47 = false := by
  rw [← BitVec.testBit_toNat, Nat.testBit_eq_decide_div_mod_eq, decide_eq_false_iff_not]
  simp only [ix, Nat.reducePow]
  omega

theorem Sees.symm {m : Mem} {i : Fin 512} (h : Sees m r' r i) : Sees m r r' i := by
  rcases h with rfl | ⟨hn, he⟩
  · exact .inl rfl
  · rw [← he] at hn
    exact .inr ⟨hn, he.symm⟩

/-- An empty entry leads nowhere. -/
theorem not_sees_of_zero {m : Mem} {i : Fin 512} (hne : r' ≠ r) (h : m.word r i = 0) : ¬ Sees m r' r i := by
  have hnone : pte.next (m.word r i) = none := by
    rw [h]
    exact pte_next_absent (by decide)
  rintro (hc | hc)
  · exact hne hc
  · exact hc.1 hnone

/-- The kernel's root `s` and the roots `rs` of the pagemaps made so far. -/
structure Spaces (k : State) (pagemaps : List U64) (all free : List Frame) (lab : Labels) (s : Frame) (rs : List Frame) :
    Prop where
  owned : Owned k all free lab
  kernel : k.kernelPagemap = k.higherHalf s.1
  kernel_ne : k.kernelPagemap ≠ 0
  pagemaps : pagemaps = rs.map fun r => k.higherHalf r.1
  root : ∀ r ∈ s :: rs, lab r = some (r, [])
  nodup : (s :: rs).Nodup
  apart : ∀ r ∈ rs, ∀ r' ∈ s :: rs, r' ≠ r → ∀ i : Fin 512, i.1 < 256 → ¬ Sees k.mem r' r i

namespace Spaces

variable {pagemaps : List U64} {rs : List Frame}

/-- The root of a pagemap. -/
theorem getElem? (h : Spaces k pagemaps all free lab s rs) {a : Nat} {pagemap : U64}
    (ha : pagemaps[a]? = some pagemap) : ∃ r, rs[a]? = some r ∧ r ∈ rs ∧ k.higherHalf r.1 = pagemap := by
  rw [h.pagemaps, List.getElem?_map, Option.map_eq_some_iff] at ha
  obtain ⟨r, hr, hp⟩ := ha
  exact ⟨r, hr, List.mem_of_getElem? hr, hp⟩

theorem new {k' : State} {pagemap : U64} (h : Spaces k pagemaps all free lab s rs)
    (hres : vmmNewPagemap k = (pagemap, k')) (hoom : k'.outOfMemory = false) :
    ∃ free' lab' rs', Spaces k' (pagemaps ++ [pagemap]) all free' lab' s rs' := by
  obtain ⟨k₁, free', r, -, he, ho, hg, hl, hm, hw⟩ := h.owned.vmmNewPagemap (h.root s (by simp)) h.kernel h.kernel_ne
    (.inr (vmmNewPagemap_oom hres hoom))
  rw [hres] at he
  obtain ⟨rfl, rfl⟩ := Prod.mk.inj he
  have hne : ∀ r' ∈ s :: rs, r' ≠ r := by
    rintro r' hr' rfl
    rw [h.root r' hr'] at hl
    cases hl
  have hword : ∀ r' ∈ s :: rs, ∀ i, k'.mem.word r' i = k.mem.word r' i := fun r' hr' i => hm.word (hne r' hr') i
  have hzero : ∀ i : Fin 512, i.1 < 256 → k'.mem.word r i = 0 := by
    intro i hi
    rw [hw, if_neg]
    rw [Fin.le_def]
    exact Nat.not_le.mpr hi
  refine ⟨free', _, rs ++ [r], ho, ?_, ?_, ?_, ?_, ?_, ?_⟩
  · rw [hg.kernel, h.kernel, hg.higherHalf]
  · rw [hg.kernel]
    exact h.kernel_ne
  · rw [h.pagemaps, List.map_append, List.map_singleton]
    simp only [hg.higherHalf]
  · intro r' hr'
    by_cases hrr : r' = r
    · simp [hrr]
    · rw [if_neg hrr]
      refine h.root r' ?_
      simpa [hrr] using hr'
  · rw [← List.cons_append, List.nodup_append']
    refine ⟨h.nodup, List.nodup_singleton r, ?_⟩
    intro r' hr' hc
    exact hne r' hr' (List.mem_singleton.mp hc)
  · intro r₁ hr₁ r₂ hr₂ hd i hi
    rw [List.mem_append, List.mem_singleton] at hr₁
    rw [← List.cons_append, List.mem_append, List.mem_singleton] at hr₂
    rcases hr₁ with hr₁ | rfl
    · rcases hr₂ with hr₂ | rfl
      · have hs := h.apart r₁ hr₁ r₂ hr₂ hd i hi
        simpa only [Sees, hword r₁ (.tail _ hr₁), hword r₂ hr₂] using hs
      · exact fun hc => not_sees_of_zero hd.symm (hzero i hi) hc.symm
    · exact not_sees_of_zero hd (hzero i hi)

theorem call {op : VmmOp} {k' : State} (h : Spaces k pagemaps all free lab s rs) (hr : r ∈ rs)
    (hk' : op.apply (k.higherHalf r.1) k = k') (hoom : k'.outOfMemory = false) :
    ∃ free' lab', Spaces k' pagemaps all free' lab' s rs ∧ Maps lab r op.virt op.entry k.mem k'.mem ∧
      SameGlobals k k' := by
  subst hk'
  have hroot := h.root r (.tail _ hr)
  obtain ⟨free', lab', ho, hg, hm⟩ := h.owned.vmmOp hroot hoom
  refine ⟨free', lab', ⟨ho, ?_, ?_, ?_, fun r' hr' => hg.keep (h.root r' hr'), h.nodup, ?_⟩, hm, hg.globals⟩
  · rw [hg.globals.kernel, h.kernel, hg.globals.higherHalf]
  · rw [hg.globals.kernel]
    exact h.kernel_ne
  · simp only [h.pagemaps, hg.globals.higherHalf]
  · intro r₁ hr₁ r₂ hr₂ hd i hi hc
    have hroot₁ := h.root r₁ (.tail _ hr₁)
    have hroot₂ := h.root r₂ hr₂
    by_cases h₁ : r₁ = r
    · subst h₁
      exact h.apart r₁ hr r₂ hr₂ hd i hi ((hm.sees_iff hroot hroot₂ i).mp hc)
    · by_cases h₂ : r₂ = r
      -- the other way round: the root that was written does not see the tables of the other one
      · subst h₂
        exact h.apart r₂ hr r₁ (.tail _ hr₁) hd.symm i hi ((hm.sees_iff hroot hroot₁ i).mp hc.symm)
      · simp only [Sees, hm.slot hroot₁ i (.inl h₁), hm.slot hroot₂ i (.inl h₂)] at hc
        exact h.apart r₁ hr₁ r₂ hr₂ hd i hi hc

/-- An operation in the lower half changes nothing that another root translates. -/
theorem look_other {k' : State} {virt entry : U64} (h : Spaces k pagemaps all free lab s rs) (hr : r ∈ rs)
    (hr' : r' ∈ s :: rs) (hne : r' ≠ r) (hm : Maps lab r virt entry k.mem k'.mem) (hg : SameGlobals k k')
    (hv : virt.getLsbD 47 = false) (v : U64) :
    virtToPhys k' (k.higherHalf r'.1) v = virtToPhys k (k.higherHalf r'.1) v := by
  rw [virtToPhys_eq, ← hg.higherHalf, virtToPhys_eq]
  refine (hm.look (h.root r' hr') v).trans (if_neg fun hc => ?_)
  exact h.apart r hr r' hr' hne _ ((ix_lt_iff _).mpr hv) hc.2

/-- An operation in the lower half changes nothing in the upper half. -/
theorem look_upper {k' : State} {virt entry : U64} (h : Spaces k pagemaps all free lab s rs) (hr : r ∈ rs)
    (hm : Maps lab r virt entry k.mem k'.mem) (hg : SameGlobals k k') (hv : virt.getLsbD 47 = false) {v : U64}
    (hup : v.getLsbD 47 = true) : virtToPhys k' (k.higherHalf r.1) v = virtToPhys k (k.higherHalf r.1) v := by
  rw [virtToPhys_eq, ← hg.higherHalf, virtToPhys_eq]
  refine (hm.look (h.root r (.tail _ hr)) v).trans (if_neg fun hc => ?_)
  have hlt := (ix_lt_iff virt).mpr hv
  rw [← ix_congr hc.1, ix_lt_iff, hup] at hlt
  cases hlt

/-- What a step of a run does. -/
theorem exec_cases {k k' : State} {pagemaps pagemaps' : List U64} {op : SpaceOp}
    (h : SpaceOp.exec (k, pagemaps) op = some (k', pagemaps')) : k'.outOfMemory = false ∧
      ((op = .new ∧ ∃ pagemap, vmmNewPagemap k = (pagemap, k') ∧ pagemaps' = pagemaps ++ [pagemap]) ∨
      ∃ a vop pagemap, op = .call a vop ∧ pagemaps[a]? = some pagemap ∧ vop.apply pagemap k = k' ∧
        pagemaps' = pagemaps) := by
  cases op with
  | new =>
      simp only [SpaceOp.exec] at h
      split at h
      · cases h
      · rename_i hoom
        cases h
        exact ⟨Bool.eq_false_iff.mpr hoom, .inl ⟨rfl, _, rfl, rfl⟩⟩
  | call a vop =>
      simp only [SpaceOp.exec] at h
      split at h
      · cases h
      · rename_i pagemap ha
        split at h
        · cases h
        · rename_i hoom
          cases h
          exact ⟨Bool.eq_false_iff.mpr hoom, .inr ⟨a, vop, pagemap, rfl, ha, rfl, rfl⟩⟩

/-- Every step keeps the address spaces apart. -/
theorem step {t t' : State × List U64} {op : SpaceOp} (h : ∃ free lab rs, Spaces t.1 t.2 all free lab s rs)
    (hs : SpaceOp.exec t op = some t') : ∃ free lab rs, Spaces t'.1 t'.2 all free lab s rs := by
  obtain ⟨free, lab, rs, h⟩ := h
  obtain ⟨hoom, ⟨-, pagemap, hres, he⟩ | ⟨a, vop, pagemap, -, ha, hres, he⟩⟩ := exec_cases hs
  · rw [he]
    exact h.new hres hoom
  · obtain ⟨r, -, hr, rfl⟩ := h.getElem? ha
    obtain ⟨free', lab', h', -, -⟩ := h.call hr hres hoom
    rw [he]
    exact ⟨free', lab', rs, h'⟩

theorem independent {t : State × List U64} {op : SpaceOp} (h : ∃ free lab rs, Spaces t.1 t.2 all free lab s rs)
    (hop : op.Lower) : op.Independent t := by
  obtain ⟨free, lab, rs, h⟩ := h
  cases op with
  | new => trivial
  | call a op =>
      intro t' hs
      obtain ⟨hoom, ⟨hc, -⟩ | ⟨_, _, pagemap, hc, ha, hres, -⟩⟩ := exec_cases hs
      · cases hc
      cases hc
      obtain ⟨r, hra, hr, rfl⟩ := h.getElem? ha
      obtain ⟨free', lab', -, hm, hg⟩ := h.call hr hres hoom
      have hnd := List.nodup_cons.mp h.nodup
      refine ⟨fun b hb pagemap' hpb v => ?_, fun v => ?_, fun pagemap' hpa v hup => ?_⟩
      · obtain ⟨r', hrb, hr', rfl⟩ := h.getElem? hpb
        refine h.look_other hr (.tail _ hr') ?_ hm hg hop.2 v
        rintro rfl
        exact hb ((List.getElem?_inj (List.getElem?_eq_some_iff.mp hrb).1 hnd.2).mp (hrb.trans hra.symm))
      · rw [hg.kernel, h.kernel]
        refine h.look_other hr (by simp) ?_ hm hg hop.2 v
        rintro rfl
        exact hnd.1 hr
      · cases ha.symm.trans hpa
        exact h.look_upper hr hm hg hop.2 hup

end Spaces

end ShadowOS.Mm
