import ShadowOS.Mm.Exhaustion
import ShadowOS.Mm.VmaTheorems

/-!
# Theorems about running out of page frames
-/

namespace ShadowOS.Mm

variable {k k' : State} {all free : List Frame} {lab : Labels} {r c n t : Frame} {fs : List Frame} {i j : Fin 512}
  {ctx size flags idx : U64}

/-! ## An empty stack -/

theorem request_of_idx (h0 : k.stack.idx = 0) : pmmRequestPage k = (0, { k with outOfMemory := true }) := by
  rw [pmmRequestPage, if_pos h0]

theorem freePages_of_idx (h0 : k.stack.idx = 0) : k.freePages = [] := by
  rw [State.freePages, h0]
  rfl

theorem isPageValid_hhdm (k : State) (page : U64) : (isPageValid k page).2.hhdmOffset = k.hhdmOffset := by
  obtain ⟨v, s, hc⟩ := updateCacheAccess_eq k page
  unfold isPageValid
  split
  · rw [hc]
  · split
    · rw [hc]
    · rfl

theorem pmmRequestPage_hhdm (k : State) : (pmmRequestPage k).2.hhdmOffset = k.hhdmOffset := by
  unfold pmmRequestPage
  split
  · rfl
  · split
    · rfl
    · have hv := isPageValid_hhdm { k with stack.idx := k.stack.idx - 1 }
        (State.load { k with stack.idx := k.stack.idx - 1 } (k.stack.pages + 8 * (k.stack.idx - 1)))
      simp only at hv ⊢
      split
      · exact hv
      · split
        · exact hv
        · exact hv

theorem nextTable_hhdm (k : State) (t i : U64) : (nextTable k t i).2.hhdmOffset = k.hhdmOffset := by
  unfold nextTable
  dsimp only
  split
  · exact pmmRequestPage_hhdm k
  · rfl

/-! ## Tables that are missing -/

/-- An entry that names the frame 0 as a table, in a state without free frames. -/
structure NullTable (k : State) (n : Frame) (i : Fin 512) : Prop where
  idx : k.stack.idx = 0
  entry : k.mem.word n i = 0b111

/-- The next table is at a frame, even if it was never handed out. -/
theorem nextTable_frame (k : State) (t i : U64) : ∃ m : Frame, (nextTable k t i).1 = (nextTable k t i).2.higherHalf m.1 :=
  ⟨⟨_, and_addrMask_toNat _⟩, rfl⟩

/-- With no free frame a missing table is the frame 0. -/
theorem nextTable_null (hj : idx.toNat = j.1) (h0 : k.stack.idx = 0) (habs : k.mem.word t j &&& 1 = 0) :
    (nextTable k (k.higherHalf t.1) idx).2 = { k with outOfMemory := true, mem := k.mem.store64 (t.slot j) 0b111 } := by
  have hor : (0 : U64) ||| 0b111 = 0b111 := by decide
  have hst := store_entryPtr { k with outOfMemory := true } t hj (0 ||| 0b111)
  unfold nextTable
  rw [load_entryPtr k t hj, if_pos habs, request_of_idx h0]
  rw [hor] at hst
  exact hst

/-- The level at which no frame is left. -/
theorem NullTable.start (hj : idx.toNat = j.1) (h0 : k.stack.idx = 0) (habs : k.mem.word t j &&& 1 = 0) :
    NullTable (nextTable k (k.higherHalf t.1) idx).2 t j := by
  rw [nextTable_null hj h0 habs]
  refine ⟨h0, ?_⟩
  rw [Mem.word_store64, if_pos ⟨rfl, rfl⟩]

/-- The levels below leave the entry alone: they fill missing entries only. -/
theorem NullTable.nextTable (h : NullTable k n i) (hj : idx.toNat = j.1) :
    NullTable (nextTable k (k.higherHalf t.1) idx).2 n i := by
  by_cases habs : k.mem.word t j &&& 1 = 0
  · rw [nextTable_null hj h.idx habs]
    refine ⟨h.idx, ?_⟩
    rw [Mem.word_store64]
    split
    · rfl
    · exact h.entry
  · unfold Mm.nextTable
    rw [load_entryPtr k t hj, if_neg habs]
    exact h

/-- The last store leaves the entry or replaces it. -/
theorem NullTable.leaf (h : NullTable k n i) (hj : idx.toNat = j.1) (v : U64) :
    (k.store (entryPtr (k.higherHalf t.1) idx) v).mem.word n i = 0b111 ∨
      (k.store (entryPtr (k.higherHalf t.1) idx) v).mem.word n i = v := by
  rw [store_entryPtr k t hj]
  simp only [Mem.word_store64]
  split
  · exact .inr rfl
  · exact .inl h.entry

theorem mem_fillOf {f : Fill} (h : f ∈ fillOf k (k.higherHalf t.1) idx) (hj : idx.toNat = j.1) :
    f.entry = entryPtr (k.higherHalf t.1) idx ∧ f.before = k ∧ k.mem.word t j &&& 1 = 0 := by
  unfold fillOf at h
  rw [load_entryPtr k t hj] at h
  split at h
  · rename_i habs
    rw [List.mem_singleton] at h
    subst h
    exact ⟨rfl, rfl, habs⟩
  · cases h

/-- The entry for which no frame is left is present at the end. It names the frame 0 or what was asked to be mapped. -/
theorem vmmMap_runsOut {virt : U64} (p w : U64) (hrun : RunsOut k (k.higherHalf r.1) virt) :
    ∃ f ∈ fills k (k.higherHalf r.1) virt, (vmmMap k (k.higherHalf r.1) virt p w).load f.entry = 0b111 ∨
      (vmmMap k (k.higherHalf r.1) virt p w).load f.entry = p ||| w := by
  obtain ⟨f, hf, h0⟩ := hrun
  refine ⟨f, hf, ?_⟩
  have hj₄ := pmlIdx_toNat virt 39 (by omega)
  have hj₃ := pmlIdx_toNat virt 30 (by omega)
  have hj₂ := pmlIdx_toNat virt 21 (by omega)
  have hj₁ := pmlIdx_toNat virt 12 (by omega)
  unfold fills at hf
  unfold vmmMap pml1Table
  simp only at hf ⊢
  have hh₃ := nextTable_hhdm k (k.higherHalf r.1) (pmlIdx virt 39)
  obtain ⟨t₃, ht₃⟩ := nextTable_frame k (k.higherHalf r.1) (pmlIdx virt 39)
  have hnull₄ := fun h0 habs => NullTable.start (k := k) (t := r) hj₄ h0 habs
  generalize nextTable k (k.higherHalf r.1) (pmlIdx virt 39) = s₃ at hf hh₃ ht₃ hnull₄ ⊢
  obtain ⟨pml3Table, k₃⟩ := s₃
  simp only at hf hh₃ ht₃ hnull₄ ⊢
  subst ht₃
  have hh₂ := nextTable_hhdm k₃ (k₃.higherHalf t₃.1) (pmlIdx virt 30)
  obtain ⟨t₂, ht₂⟩ := nextTable_frame k₃ (k₃.higherHalf t₃.1) (pmlIdx virt 30)
  have hnull₃ := fun h0 habs => NullTable.start (k := k₃) (t := t₃) hj₃ h0 habs
  have hkeep₃ := fun n i (h : NullTable k₃ n i) => h.nextTable (t := t₃) hj₃
  generalize nextTable k₃ (k₃.higherHalf t₃.1) (pmlIdx virt 30) = s₂ at hf hh₂ ht₂ hnull₃ hkeep₃ ⊢
  obtain ⟨pml2Table, k₂⟩ := s₂
  simp only at hf hh₂ ht₂ hnull₃ hkeep₃ ⊢
  subst ht₂
  have hh₁ := nextTable_hhdm k₂ (k₂.higherHalf t₂.1) (pmlIdx virt 21)
  obtain ⟨t₁, ht₁⟩ := nextTable_frame k₂ (k₂.higherHalf t₂.1) (pmlIdx virt 21)
  have hnull₂ := fun h0 habs => NullTable.start (k := k₂) (t := t₂) hj₂ h0 habs
  have hkeep₂ := fun n i (h : NullTable k₂ n i) => h.nextTable (t := t₂) hj₂
  generalize nextTable k₂ (k₂.higherHalf t₂.1) (pmlIdx virt 21) = s₁ at hh₁ ht₁ hnull₂ hkeep₂ ⊢
  obtain ⟨pml1Table, k₁⟩ := s₁
  simp only at hh₁ ht₁ hnull₂ hkeep₂ ⊢
  subst ht₁
  -- the entry is read back through the direct map, which no call moves
  have hread : ∀ {s : State} {m : Frame} {x : U64} {i : Fin 512}, x.toNat = i.1 → s.hhdmOffset = k₁.hhdmOffset →
      NullTable k₁ m i →
      (k₁.store (entryPtr (k₁.higherHalf t₁.1) (pmlIdx virt 12)) (p ||| w)).load (entryPtr (s.higherHalf m.1) x) = 0b111 ∨
      (k₁.store (entryPtr (k₁.higherHalf t₁.1) (pmlIdx virt 12)) (p ||| w)).load (entryPtr (s.higherHalf m.1) x) =
        p ||| w := by
    intro s m x i hx hs hn
    have hld := load_entryPtr (k₁.store (entryPtr (k₁.higherHalf t₁.1) (pmlIdx virt 12)) (p ||| w)) m hx
    have hbase : (k₁.store (entryPtr (k₁.higherHalf t₁.1) (pmlIdx virt 12)) (p ||| w)).higherHalf m.1 = s.higherHalf m.1 :=
      congrArg (m.1 + ·) hs.symm
    rw [← hbase, hld]
    exact hn.leaf hj₁ _
  rw [List.mem_append, List.mem_append] at hf
  rcases hf with (hf | hf) | hf
  · obtain ⟨he, hb, habs⟩ := mem_fillOf hf hj₄
    rw [he]
    exact hread hj₄ (by rw [hh₁, hh₂, hh₃]) (hkeep₂ _ _ (hkeep₃ _ _ (hnull₄ (hb ▸ h0) habs)))
  · obtain ⟨he, hb, habs⟩ := mem_fillOf hf hj₃
    rw [he]
    exact hread hj₃ (by rw [hh₁, hh₂]) (hkeep₂ _ _ (hnull₃ (hb ▸ h0) habs))
  · obtain ⟨he, hb, habs⟩ := mem_fillOf hf hj₂
    rw [he]
    exact hread hj₂ hh₁.symm (hnull₂ (hb ▸ h0) habs)

theorem not_filledFromPmm {virt phys : U64} (hrun : RunsOut k (k.higherHalf r.1) virt)
    (hother : MapsOther k (k.higherHalf r.1) virt phys flags) :
    ¬ FilledFromPmm k (k.higherHalf r.1) virt (vmmMap k (k.higherHalf r.1) virt phys flags) := by
  intro hfill
  obtain ⟨f, hf, hentry⟩ := vmmMap_runsOut phys flags hrun
  rcases hentry with he | he
  · obtain ⟨g, _, hg0, hg⟩ := hfill f hf (by rw [he]; decide)
    rw [he] at hg
    exact hg0 hg.symm
  · obtain ⟨g, hg, _, hge⟩ := hfill f hf (by rw [he]; exact hother.1)
    rw [he] at hge
    exact hother.2 g hg hge

/-! ## Null pages behind the direct map -/

theorem higherHalf_zero (k : State) : k.higherHalf 0 = k.hhdmOffset := BitVec.zero_add _

theorem vmmNewPagemap_of_idx (h0 : k.stack.idx = 0) (hh : k.hhdmOffset ≠ 0) : (vmmNewPagemap k).1 = k.hhdmOffset := by
  unfold vmmNewPagemap
  rw [request_of_idx h0]
  simp only [higherHalf_zero, hh, ↓reduceIte]
  split
  · rfl
  · rfl

theorem vmaCreateContext_of_idx (pagemap : U64) (h0 : k.stack.idx = 0) (hh : k.hhdmOffset ≠ 0) :
    (vmaCreateContext k pagemap).1 = k.hhdmOffset := by
  have hreq : ∀ m, pmmRequestPage { k with outOfMemory := true, mem := m } = (0, { k with outOfMemory := true, mem := m }) :=
    fun m => request_of_idx h0
  have hroot : ∀ (k : State) (p v : U64), VmaContext.root (k.store (p + 8) v) p = v :=
    fun k p v => Mem.load64_store64_self _ _ _
  unfold vmaCreateContext
  rw [request_of_idx h0]
  simp only [higherHalf_zero, hh, ↓reduceIte, State.memset, hreq, hroot]

theorem vmaMapPages_of_idx {c p : U64} {m : Nat} {x : U64} (h0 : k.stack.idx = 0) :
    (vmaMapPages c p m x k).2.mem = k.mem ∧ (vmaMapPages c p m x k).2.hhdmOffset = k.hhdmOffset := by
  cases m with
  | zero => exact ⟨rfl, rfl⟩
  | succ m => simp only [vmaMapPages, request_of_idx h0, ↓reduceIte, and_self]

/-- The walk ends at one of the regions. -/
theorem vmaFindGap_mem {p q : U64} {fuel : Nat} {rs : List U64} (h : Chain (VmaRegion.next k) 0 p rs) (hp : p ≠ 0)
    (hq : vmaFindGap k fuel p = some q) : q ∈ rs := by
  induction fuel generalizing p rs with
  | zero => cases hq
  | succ fuel ih =>
      cases rs with
      | nil => exact absurd h hp
      | cons a rs =>
          obtain ⟨rfl, _, h⟩ := h
          rw [vmaFindGap, if_neg hp] at hq
          split at hq
          · cases hq
            exact List.mem_cons_self
          · rename_i hgap
            exact List.mem_cons_of_mem _ (ih h (fun hz => hgap (.inl hz)) hq)

theorem next_mem {q : U64} {rs : List U64} {p : U64} (h : Chain (VmaRegion.next k) 0 p rs) (hq : q ∈ rs) :
    VmaRegion.next k q = 0 ∨ VmaRegion.next k q ∈ rs := by
  obtain ⟨pre, post, rfl⟩ := List.append_of_mem hq
  rw [h.suffix.head_eq]
  cases post with
  | nil => exact .inl rfl
  | cons a post => exact .inr (by simp)

theorem next_vmaInsert (k : State) (newRegion region size flags : U64) :
    (vmaInsert k newRegion region size flags).mem.load64 (k.physical (region + 24)) = newRegion :=
  Mem.load64_store64_self _ _ _

/-- With no frame left the region after which the new one comes leads to the physical address 0. -/
theorem vmaAlloc_of_idx {p : U64} {rs : List U64} (h0 : k.stack.idx = 0) (hh : k.hhdmOffset ≠ 0) (hlist : RegionsOf k ctx rs)
    (hc : ¬ (ctx = 0 ∨ VmaContext.root k ctx = 0 ∨ VmaContext.pagemap k ctx = 0))
    (hres : vmaAlloc k ctx size flags = some (p, k')) :
    ∃ region ∈ rs, k'.mem.load64 (k.physical (region + 24)) = k.hhdmOffset := by
  have hroot : VmaContext.root k ctx ≠ 0 := fun hz => hc (.inr (.inl hz))
  unfold vmaAlloc at hres
  simp only [hc, ↓reduceIte, Option.bind_eq_bind, Option.pure_def, ← apply_ite, Option.bind_eq_some_iff, Option.some.injEq]
    at hres
  obtain ⟨region, hgap, hres⟩ := hres
  have hmem := vmaFindGap_mem hlist hroot hgap
  have hne : region ≠ 0 := hlist.ne_null region hmem
  refine ⟨region, hmem, ?_⟩
  rw [request_of_idx h0] at hres
  simp only [show State.higherHalf { k with outOfMemory := true } 0 = k.hhdmOffset from higherHalf_zero k, hh, hne,
    ↓reduceIte] at hres
  have hins := next_vmaInsert { k with outOfMemory := true } k.hhdmOffset region size flags
  have hidx : (vmaInsert { k with outOfMemory := true } k.hhdmOffset region size flags).stack.idx = 0 := h0
  generalize vmaInsert { k with outOfMemory := true } k.hhdmOffset region size flags = k₁ at hres hins hidx
  have hk' : k'.mem = k₁.mem := by
    split at hres
    · rw [← (Prod.mk.inj hres).2]
      exact (vmaMapPages_of_idx hidx).1
    · rw [← (Prod.mk.inj hres).2]
      exact (vmaMapPages_of_idx hidx).1
  rw [hk']
  exact hins

/-- No call that asks for a page reports that there is none. -/
theorem PageCall.reported_iff (h0 : k.stack.idx = 0) (hh : k.hhdmOffset ≠ 0) {call : PageCall} (hcall : call.Listed k) :
    call.Reported k ↔ call.AsksNothing k := by
  refine ⟨fun ⟨k', he, hm⟩ => ?_, fun h => ?_⟩
  · cases call with
    | newPagemap =>
        have hp := congrArg (Option.map Prod.fst) he
        exact hh ((vmmNewPagemap_of_idx h0 hh).symm.trans (Option.some.inj hp))
    | createContext pagemap =>
        have hp := congrArg (Option.map Prod.fst) he
        exact hh ((vmaCreateContext_of_idx pagemap h0 hh).symm.trans (Option.some.inj hp))
    | alloc ctx size flags =>
        obtain ⟨rs, hlist, hzero⟩ := hcall
        by_contra hc
        obtain ⟨region, hr, hload⟩ := vmaAlloc_of_idx h0 hh hlist hc he
        rw [hm] at hload
        have hnext : VmaRegion.next k region = k.hhdmOffset := hload
        rw [higherHalf_zero, ← hnext] at hzero
        exact (next_mem hlist hr).elim (fun hz => hh (hnext.symm.trans hz)) hzero
  · cases call with
    | newPagemap => cases h
    | createContext pagemap => cases h
    | alloc ctx size flags =>
        refine ⟨k, ?_, rfl⟩
        exact if_pos h

/-! ## The mark of earlier calls -/

/-- The state without the mark that a request was refused, which no function reads. -/
def State.clear (k : State) : State := { k with outOfMemory := false }

theorem updateCacheAccess_clear (k : State) (p : U64) : updateCacheAccess k.clear p = (updateCacheAccess k p).clear := by
  by_cases h₁ : isInPrimaryCache k p = true
  · have h₁' : isInPrimaryCache k.clear p = true := h₁
    rw [updateCacheAccess, updateCacheAccess, if_pos h₁, if_pos h₁']
    rfl
  · have h₁' : ¬ isInPrimaryCache k.clear p = true := h₁
    by_cases h₂ : isInSecondaryCache k p = true
    · have h₂' : isInSecondaryCache k.clear p = true := h₂
      rw [updateCacheAccess, updateCacheAccess, if_neg h₁, if_neg h₁', if_pos h₂, if_pos h₂']
      simp only [State.clear]
      split
      · rfl
      · rfl
    · have h₂' : ¬ isInSecondaryCache k.clear p = true := h₂
      rw [updateCacheAccess, updateCacheAccess, if_neg h₁, if_neg h₁', if_neg h₂, if_neg h₂']

theorem isPageValid_clear (k : State) (p : U64) : isPageValid k.clear p = ((isPageValid k p).1, (isPageValid k p).2.clear) := by
  have h₁ : isInPrimaryCache k.clear p = isInPrimaryCache k p := rfl
  have h₂ : isInMemmap k.clear.memmap k.clear.reclaimed p = isInMemmap k.memmap k.reclaimed p := rfl
  unfold isPageValid
  rw [h₁, h₂, updateCacheAccess_clear]
  split
  · rfl
  · split
    · rfl
    · rfl

theorem pmmRequestPage_clear (k : State) : (pmmRequestPage k.clear).1 = (pmmRequestPage k).1 ∧
    (pmmRequestPage k.clear).2.clear = (pmmRequestPage k).2.clear := by
  by_cases h0 : k.stack.idx = 0
  · rw [request_of_idx h0, request_of_idx (k := k.clear) h0]
    exact ⟨rfl, rfl⟩
  · have h0' : ¬ k.clear.stack.idx = 0 := h0
    unfold pmmRequestPage
    rw [if_neg h0, if_neg h0']
    by_cases h1 : k.stack.idx - 1 = -1
    · have h1' : k.clear.stack.idx - 1 = -1 := h1
      rw [if_pos h1, if_pos h1']
      exact ⟨rfl, rfl⟩
    · have h1' : ¬ k.clear.stack.idx - 1 = -1 := h1
      have hv : isPageValid { k.clear with stack.idx := k.clear.stack.idx - 1 }
          (State.load { k.clear with stack.idx := k.clear.stack.idx - 1 }
            (k.clear.stack.pages + 8 * (k.clear.stack.idx - 1))) = _ :=
        isPageValid_clear { k with stack.idx := k.stack.idx - 1 } _
      rw [if_neg h1, if_neg h1']
      simp only [hv]
      have hload : State.load { k with stack.idx := k.stack.idx - 1 } (k.stack.pages + 8 * (k.stack.idx - 1)) =
        State.load { k.clear with stack.idx := k.clear.stack.idx - 1 } (k.clear.stack.pages + 8 * (k.clear.stack.idx - 1)) := rfl
      rw [hload]
      generalize isPageValid { k with stack.idx := k.stack.idx - 1 } _ = s
      split
      · exact ⟨rfl, rfl⟩
      · have hh : State.higherHalf s.2.clear = s.2.higherHalf := rfl
        rw [hh]
        split
        · exact ⟨rfl, rfl⟩
        · exact ⟨rfl, rfl⟩

section Alike

variable {k₁ k₂ : State} (h : k₁.clear = k₂.clear)
include h

theorem load_alike (p : U64) : k₁.load p = k₂.load p := by
  have hl := congrArg (fun k => State.load k p) h
  exact hl

theorem higherHalf_alike (p : U64) : k₁.higherHalf p = k₂.higherHalf p := by
  have hp := congrArg (fun k => State.higherHalf k p) h
  exact hp

theorem store_alike (p v : U64) : (k₁.store p v).clear = (k₂.store p v).clear := congrArg (fun k => State.store k p v) h

theorem pmmRequestPage_alike : (pmmRequestPage k₁).1 = (pmmRequestPage k₂).1 ∧
    (pmmRequestPage k₁).2.clear = (pmmRequestPage k₂).2.clear := by
  obtain ⟨hp₁, hs₁⟩ := pmmRequestPage_clear k₁
  obtain ⟨hp₂, hs₂⟩ := pmmRequestPage_clear k₂
  rw [h] at hp₁ hs₁
  exact ⟨hp₁.symm.trans hp₂, hs₁.symm.trans hs₂⟩

theorem nextTable_alike (t i : U64) : (nextTable k₁ t i).1 = (nextTable k₂ t i).1 ∧
    (nextTable k₁ t i).2.clear = (nextTable k₂ t i).2.clear := by
  have hst : (nextTable k₁ t i).2.clear = (nextTable k₂ t i).2.clear := by
    unfold nextTable
    rw [load_alike h]
    dsimp only
    split
    · obtain ⟨hp, hs⟩ := pmmRequestPage_alike h
      rw [hp]
      exact store_alike hs _ _
    · exact h
  have heq : ∀ k, (nextTable k t i).1 =
      (nextTable k t i).2.higherHalf ((nextTable k t i).2.load (entryPtr t i) &&& addrMask) := fun _ => rfl
  refine ⟨?_, hst⟩
  rw [heq, heq, load_alike hst, higherHalf_alike hst]

theorem vmmMap_alike (pm v p fl : U64) : (vmmMap k₁ pm v p fl).clear = (vmmMap k₂ pm v p fl).clear := by
  obtain ⟨ht₃, hs₃⟩ := nextTable_alike h pm (pmlIdx v 39)
  obtain ⟨ht₂, hs₂⟩ := nextTable_alike hs₃ (nextTable k₂ pm (pmlIdx v 39)).1 (pmlIdx v 30)
  obtain ⟨ht₁, hs₁⟩ := nextTable_alike hs₂ (nextTable (nextTable k₂ pm (pmlIdx v 39)).2 (nextTable k₂ pm (pmlIdx v 39)).1
    (pmlIdx v 30)).1 (pmlIdx v 21)
  simp only [vmmMap, pml1Table, ht₃, ht₂, ht₁]
  exact store_alike hs₁ _ _

theorem vmaMapPages_alike (ctx region : U64) (n : Nat) (i : U64) :
    (vmaMapPages ctx region n i k₁).1 = (vmaMapPages ctx region n i k₂).1 ∧
      (vmaMapPages ctx region n i k₁).2.clear = (vmaMapPages ctx region n i k₂).2.clear := by
  induction n generalizing i k₁ k₂ with
  | zero => exact ⟨rfl, h⟩
  | succ n ih =>
      obtain ⟨hp, hs⟩ := pmmRequestPage_alike h
      simp only [vmaMapPages, hp]
      split
      · exact ⟨rfl, hs⟩
      · have hl := load_alike hs
        simp only [VmaContext.pagemap, VmaRegion.start, VmaRegion.flags, hl]
        exact ih (vmmMap_alike hs _ _ _ _) _

end Alike

/-! ## Once a request was refused, the stack is empty -/

def Spent (k : State) : Prop := k.outOfMemory = true → k.stack.idx = 0

namespace Spent

theorem clear (k : State) : Spent k.clear := fun h => absurd h Bool.false_ne_true

theorem request (h : Spent k) : Spent (pmmRequestPage k).2 := by
  by_cases h0 : k.stack.idx = 0
  · rw [request_of_idx h0]
    exact fun _ => h0
  · -- the stack is not empty, so the mark was not set, and the request does not set it
    have hoom : (pmmRequestPage k).2.outOfMemory = k.outOfMemory := by
      unfold pmmRequestPage
      rw [if_neg h0]
      split
      · rfl
      · have hv := isPageValid_oom { k with stack.idx := k.stack.idx - 1 }
          (State.load { k with stack.idx := k.stack.idx - 1 } (k.stack.pages + 8 * (k.stack.idx - 1)))
        simp only at hv ⊢
        split
        · exact hv
        · split
          · exact hv
          · exact hv
    intro hc
    rw [hoom] at hc
    exact absurd (h hc) h0

theorem nextTable (h : Spent k) (t i : U64) : Spent (nextTable k t i).2 := by
  unfold Mm.nextTable
  dsimp only
  split
  · exact h.request
  · exact h

theorem vmmMap (h : Spent k) (pm v p fl : U64) : Spent (vmmMap k pm v p fl) :=
  ((h.nextTable _ _).nextTable _ _).nextTable _ _

theorem vmaMapPages (h : Spent k) (ctx region : U64) (n : Nat) (i : U64) : Spent (vmaMapPages ctx region n i k).2 := by
  induction n generalizing i k with
  | zero => exact h
  | succ n ih =>
      simp only [Mm.vmaMapPages]
      split
      · exact h.request
      · exact ih (h.request.vmmMap _ _ _ _) _

end Spent

theorem Owned.clear (h : Owned k all free lab) : Owned k.clear all free lab :=
  ⟨⟨h.stack.sub, h.stack.nodup, h.stack.all_nodup, h.stack.idx, h.stack.max, h.stack.slot, h.stack.valid, h.stack.nonzero,
    h.stack.mapped, h.stack.array, h.stack.fits, h.stack.apart⟩, h.tables, h.small, h.held⟩

/-- The loop over the pages fails on an empty stack only. -/
theorem Owned.vmaMapPages_false {b : Frame} {m : Nat} (h : Owned k all free lab) (hr : lab r = some (r, []))
    (hc : Held all free lab c) (hb : Held all free lab b) (hpm : k.mem.word c 0 = k.higherHalf r.1)
    (hres : Mm.vmaMapPages (k.higherHalf c.1) (k.higherHalf b.1) m 0 k = (false, k')) : k'.stack.idx = 0 := by
  have hclear : k.clear.clear = k.clear := rfl
  obtain ⟨hok, hs⟩ := vmaMapPages_alike hclear (k.higherHalf c.1) (k.higherHalf b.1) m 0
  have hspent := (Spent.clear k).vmaMapPages (k.higherHalf c.1) (k.higherHalf b.1) m 0
  rw [hres] at hok hs
  have hoom : (Mm.vmaMapPages (k.higherHalf c.1) (k.higherHalf b.1) m 0 k.clear).2.outOfMemory = true := by
    rw [← Bool.not_eq_false]
    intro hoom
    obtain ⟨_, _, _, he, _⟩ := h.clear.vmaMapPages (n := m) (i := 0) hr hc hb hpm rfl (.inr hoom)
    have htrue := congrArg Prod.fst he
    exact Bool.false_ne_true (hok.symm.trans htrue)
  have hidx : (Mm.vmaMapPages (k.higherHalf c.1) (k.higherHalf b.1) m 0 k.clear).2.stack = k'.stack := by
    have hst := congrArg State.stack hs
    exact hst
  rw [← hidx]
  exact hspent hoom

/-! ## Allocation that fails -/

theorem vmaAlloc_of_failsOnPage (h : FailsOnPage k ctx size flags k') : vmaAlloc k ctx size flags = some (0, k') := by
  obtain ⟨page, newRegion, k₁, hatt, hne, hres⟩ := h
  unfold vmaAttempt at hatt
  unfold vmaAlloc
  split at hatt
  · cases hatt
  · rename_i hc
    simp only [Option.bind_eq_bind, Option.bind_eq_some_iff, Option.pure_def, Option.some.injEq, Prod.mk.injEq] at hatt
    obtain ⟨region, hgap, hpage, hnew, hk₁⟩ := hatt
    subst hnew hk₁
    simp only [hc, ↓reduceIte, hgap, Option.bind_eq_bind, Option.bind_some, hne, hres, Bool.not_false, Option.pure_def]

/-- The attempt puts a record after the region that the walk finds. -/
theorem VmaRecords.attempt {page newRegion : U64} {k₁ : State} (h : VmaRecords k ctx all free lab r c fs)
    (hatt : vmaAttempt k ctx size flags = some (page, newRegion, k₁)) : ∃ pre x post, fs = pre ++ x :: post ∧
      page = (pmmRequestPage k).1 ∧ newRegion = (pmmRequestPage k).2.higherHalf page ∧
      k₁ = vmaInsert (pmmRequestPage k).2 newRegion (k.higherHalf x.1) size flags := by
  unfold vmaAttempt at hatt
  split at hatt
  · cases hatt
  · rename_i hc
    have hne : fs ≠ [] := by
      rintro rfl
      exact hc (.inr (.inl h.root_eq))
    obtain ⟨pre, x, post, rfl, hgap, _⟩ := h.gap hne
    have hx0 := h.owned.mapped (h.held x (by simp))
    simp only [hgap, hx0, ↓reduceIte, Option.bind_eq_bind, Option.bind_some, Option.pure_def, Option.some.injEq,
      Prod.mk.injEq] at hatt
    obtain ⟨rfl, rfl, rfl⟩ := hatt
    exact ⟨pre, x, post, rfl, rfl, rfl, rfl⟩

/-- The stack is empty afterwards, so the frame of the record is not on it. -/
theorem VmaRecords.lost {newRegion : U64} {k₁ : State} (h : VmaRecords k ctx all free lab r c fs) (hfree : free ≠ [])
    {page : U64} (hatt : vmaAttempt k ctx size flags = some (page, newRegion, k₁))
    (hres : vmaMapPages ctx newRegion size.toNat 0 k₁ = (false, k')) : page ≠ 0 ∧ k'.stack.idx = 0 := by
  obtain ⟨pre, x, post, rfl, hpage, hnew, hk₁⟩ := h.attempt hatt
  obtain ⟨k₂, free₂, b, rfl, heq, ho₂, hg₂, hb, hb0, _⟩ :=
    h.owned.requestPage (.inl (List.length_pos_iff.mpr hfree))
  rw [heq] at hpage hnew hk₁
  simp only at hpage hnew hk₁
  subst hpage hnew
  have hbf : b ∈ free₂ ++ [b] := by simp
  have hxheld := h.held x (by simp)
  have hxb : x ≠ b := by rintro rfl; exact hxheld.notFree hbf
  have hcb : c ≠ b := by rintro rfl; exact h.ctxHeld.notFree hbf
  have hcx : c ≠ x := by rintro rfl; exact h.notMem (by simp)
  obtain ⟨k₃, hins, ho₃, hgl, _, hout, _⟩ := ho₂.vmaInsert hb (hg₂.held hxheld) hxb size flags
  rw [← hg₂.globals.higherHalf x.1, hins] at hk₁
  subst hk₁
  have hh := (hg₂.globals.trans hgl).higherHalf
  rw [← h.ctx_eq, ← hh c.1, ← hgl.higherHalf b.1] at hres
  refine ⟨hb0, ho₃.vmaMapPages_false h.pm (hg₂.held h.ctxHeld) hb ?_ hres⟩
  rw [hout.word (by simpa using hcb), Mem.word_store64, hg₂.word h.ctxHeld, h.pagemap, hh]
  simp [hcx]

/-- With no frame at all the list leads to the physical address 0. -/
theorem VmaRecords.spoiled {page newRegion : U64} {k₁ : State} (h : VmaRecords k ctx all [] lab r c fs)
    (hatt : vmaAttempt k ctx size flags = some (page, newRegion, k₁)) (hne : newRegion ≠ 0)
    (hres : vmaMapPages ctx newRegion size.toNat 0 k₁ = (false, k')) : ¬ RegionsOf k' ctx (k.pointers fs) := by
  intro hlist
  obtain ⟨pre, x, post, rfl, hpage, hnew, hk₁⟩ := h.attempt hatt
  rw [h.owned.request_none] at hpage hnew hk₁
  simp only at hpage hnew hk₁
  subst hpage
  have h0 : k.stack.idx = 0 := BitVec.eq_of_toNat_eq h.owned.stack.idx
  have hnew' : newRegion = k.hhdmOffset := hnew.trans (higherHalf_zero k)
  have hidx : k₁.stack.idx = 0 := by
    rw [hk₁]
    exact h0
  have hhdm : k₁.hhdmOffset = k.hhdmOffset := by
    rw [hk₁]
    rfl
  have hkept := vmaMapPages_of_idx (m := size.toNat) (x := 0) (c := ctx) (p := newRegion) hidx
  rw [hres] at hkept
  have hnext : VmaRegion.next k' (k.higherHalf x.1) = k.hhdmOffset := by
    have hphys : k'.physical (k.higherHalf x.1 + 24) = State.physical { k with outOfMemory := true } (k.higherHalf x.1 + 24) :=
      congrArg (k.higherHalf x.1 + 24 - ·) (hkept.2.trans hhdm)
    rw [VmaRegion.next, State.load, hkept.1, hphys, hk₁, next_vmaInsert, hnew']
  have hx : k.higherHalf x.1 ∈ k.pointers (pre ++ x :: post) := higherHalf_mem_pointers.mpr (by simp)
  rcases next_mem hlist hx with hz | hm
  · exact hne (hnew'.trans (hnext.symm.trans hz))
  · -- no record is at the physical address 0
    rw [hnext, ← higherHalf_zero] at hm
    obtain ⟨f, hf, hf0⟩ := mem_pointers.mp hm
    refine h.owned.stack.nonzero f (h.held f hf).mem ?_
    have hp := congrArg k.physical hf0
    rwa [State.physical_higherHalf, State.physical_higherHalf] at hp

/-! ## Results -/

/-- With no frame left, the calls that ask for a page use the physical page 0 instead of failing. A table for which there is
no frame is the physical page 0, too, and stays in the entry. -/
theorem exhaustion_is_used (k : State) :
    (∀ call : PageCall, k.stack.idx = 0 → k.hhdmOffset ≠ 0 → call.Listed k → (call.Reported k ↔ call.AsksNothing k)) ∧
    ∀ (r : Frame) (virt phys flags : U64), RunsOut k (k.higherHalf r.1) virt →
      MapsOther k (k.higherHalf r.1) virt phys flags →
        ¬ FilledFromPmm k (k.higherHalf r.1) virt (vmmMap k (k.higherHalf r.1) virt phys flags) :=
  ⟨fun _ h0 hh hcall => PageCall.reported_iff h0 hh hcall, fun _ _ _ _ hrun hother => not_filledFromPmm hrun hother⟩

/-- The sample kernel with no free page left. -/
def drainedKernel : State := Nat.repeat (fun k => (pmmRequestPage k).2) 15 sampleVma

/-- The drained kernel, evaluated: a page mapped in it gets tables at the page 0. -/
theorem drainedKernel_eval :
    let pm := 0x107000 + sampleOffset
    (drainedKernel.stack.idx = 0 ∧ drainedKernel.hhdmOffset ≠ 0 ∧ drainedKernel.higherHalf 0x107000 = pm) ∧
    ((vmmNewPagemap drainedKernel).1 = sampleOffset ∧ RegionsOf drainedKernel 0 []) ∧
    (fills drainedKernel pm 0x1000).any (fun f => f.before.stack.idx = 0 ∧
      (vmmMap drainedKernel pm 0x1000 0x5000 0b111).load f.entry = 0b111) = true ∧
    (fills drainedKernel pm 0x1000).all (fun g => ((0x5000 : U64) ||| 0b111) &&& addrMask ≠ g.page) = true := by
  decide

theorem exhaustion_is_used_sample :
    ((PageCall.alloc 0 1 3).Reported drainedKernel ∧ ¬ PageCall.newPagemap.Reported drainedKernel) ∧
    ¬ FilledFromPmm drainedKernel (0x107000 + sampleOffset) 0x1000
      (vmmMap drainedKernel (0x107000 + sampleOffset) 0x1000 0x5000 0b111) := by
  obtain ⟨⟨h0, hh, hpm⟩, ⟨_, hregions⟩, hfill, hother⟩ := drainedKernel_eval
  have hlist : (PageCall.alloc 0 1 3).Listed drainedKernel := ⟨[], hregions, by simp⟩
  obtain ⟨f, hf, hf0⟩ := List.any_eq_true.mp hfill
  rw [← hpm] at hf hother ⊢
  refine ⟨⟨((exhaustion_is_used drainedKernel).1 (.alloc 0 1 3) h0 hh hlist).2 (.inl rfl),
    fun h => ((exhaustion_is_used drainedKernel).1 .newPagemap h0 hh trivial).1 h⟩, ?_⟩
  exact (exhaustion_is_used drainedKernel).2 ⟨0x107000, by decide⟩ 0x1000 0x5000 0b111 ⟨f, hf, (of_decide_eq_true hf0).1⟩
    ⟨by decide, fun g hg => of_decide_eq_true (List.all_eq_true.mp hother g hg)⟩

/-- A new pagemap is the page 0, and so is the first table of a page that is mapped. -/
theorem page_zero_is_used : drainedKernel.stack.idx = 0 ∧ drainedKernel.hhdmOffset ≠ 0 ∧
    ¬ PageCall.newPagemap.Reported drainedKernel ∧ RunsOut drainedKernel (0x107000 + sampleOffset) 0x1000 ∧
    ¬ FilledFromPmm drainedKernel (0x107000 + sampleOffset) 0x1000
      (vmmMap drainedKernel (0x107000 + sampleOffset) 0x1000 0x5000 0b111) := by
  obtain ⟨⟨h0, hh, _⟩, ⟨hnew, _⟩, hfill, _⟩ := drainedKernel_eval
  obtain ⟨f, hf, hf0⟩ := List.any_eq_true.mp hfill
  obtain ⟨hidx, hentry⟩ := of_decide_eq_true hf0
  refine ⟨h0, hh, fun ⟨k', he, _⟩ => ?_, ⟨f, hf, hidx⟩, fun h => ?_⟩
  · have hp : (vmmNewPagemap drainedKernel).1 = 0 := Option.some.inj (congrArg (Option.map Prod.fst) he)
    rw [hnew] at hp
    exact absurd hp (by decide)
  · obtain ⟨g, _, hg0, hg⟩ := h f hf (by rw [hentry]; decide)
    rw [hentry] at hg
    exact hg0 hg.symm

/-- When a page of a region has no frame, something of the region is left. -/
theorem vma_alloc_never_rolls_back (h : VmaRecords k ctx all free lab r c fs) (hfail : FailsOnPage k ctx size flags k') :
    vmaAlloc k ctx size flags = some (0, k') ∧ ¬ RolledBack k ctx size flags k' := by
  refine ⟨vmaAlloc_of_failsOnPage hfail, fun hback => ?_⟩
  obtain ⟨page, newRegion, k₁, hatt, hne, hres⟩ := hfail
  obtain ⟨hlist, hfrees, _⟩ := hback page newRegion k₁ hatt
  by_cases hfree : free = []
  · subst hfree
    exact h.spoiled hatt hne hres (hlist _ h.list)
  · obtain ⟨hp0, hidx⟩ := h.lost hfree hatt hres
    have hmem := hfrees page List.mem_cons_self hp0
    rw [freePages_of_idx hidx] at hmem
    cases hmem

/-- Thirteen frames are left, and eleven pages need a record and three tables as well. The record stays in the list, no frame is
free, and the first page stays mapped. -/
theorem sampleContext_attempt :
    let ctx := 0x106000 + sampleOffset
    (vmaAttempt sampleContext ctx 11 3).any (fun s => s.1 = 0x104000 ∧ s.2.1 ≠ 0 ∧
      (vmaMapPages ctx s.2.1 11 0 s.2.2).1 = false ∧
      RegionsOf (vmaMapPages ctx s.2.1 11 0 s.2.2).2 ctx [0x105000 + sampleOffset, 0x104000 + sampleOffset] ∧
      (vmaMapPages ctx s.2.1 11 0 s.2.2).2.freePages = [] ∧
      virtToPhys (vmaMapPages ctx s.2.1 11 0 s.2.2).2 (0x107000 + sampleOffset) 0x1000 = 0x103000) = true := by
  decide

theorem vma_alloc_never_rolls_back_sample : ∃ k', vmaAlloc sampleContext (0x106000 + sampleOffset) 11 3 = some (0, k') ∧
    ¬ RolledBack sampleContext (0x106000 + sampleOffset) 11 3 k' := by
  obtain ⟨all, free, lab, r, ho, hr, hpm0, hcreate⟩ := sampleContext_create
  obtain ⟨all, free, lab, r, c, fs, hl, _⟩ := VmaLinkInv.create ho hr hpm0 hcreate sampleContext_outOfMemory
  obtain ⟨⟨page, newRegion, k₁⟩, hatt, hs⟩ := (Option.any_eq_true _ _).mp sampleContext_attempt
  obtain ⟨_, hne, hres, _⟩ := of_decide_eq_true hs
  exact ⟨_, vma_alloc_never_rolls_back hl.records ⟨page, newRegion, k₁, hatt, hne, Prod.ext hres rfl⟩⟩

theorem vma_alloc_leaves_region : ∃ k', FailsOnPage sampleContext (0x106000 + sampleOffset) 11 3 k' ∧
    RegionsOf k' (0x106000 + sampleOffset) [0x105000 + sampleOffset, 0x104000 + sampleOffset] ∧ k'.freePages = [] ∧
    virtToPhys k' (0x107000 + sampleOffset) 0x1000 = 0x103000 ∧
    ¬ RolledBack sampleContext (0x106000 + sampleOffset) 11 3 k' := by
  obtain ⟨⟨page, newRegion, k₁⟩, hatt, hs⟩ := (Option.any_eq_true _ _).mp sampleContext_attempt
  obtain ⟨hpage, hne, hres, hlist, hfree, hmapped⟩ := of_decide_eq_true hs
  simp only at hpage hne hres hlist hfree hmapped
  refine ⟨_, ⟨page, newRegion, k₁, hatt, hne, Prod.ext hres rfl⟩, hlist, hfree, hmapped, fun hback => ?_⟩
  have hmem := (hback page newRegion k₁ hatt).2.1 page List.mem_cons_self (by rw [hpage]; decide)
  have hnil : page ∈ ([] : List U64) := hfree ▸ hmem
  cases hnil

end ShadowOS.Mm
