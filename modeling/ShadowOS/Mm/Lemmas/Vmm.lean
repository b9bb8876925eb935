import ShadowOS.Mm.Lemmas.Pmm
import ShadowOS.Mm.Lemmas.PageTable

/-!
# Mapping and unmapping

`Owned` says who owns the frames: the free stack, the page tables with their labels, and the rest. The
operations on page tables keep it, and change translations only where they should.
-/

namespace ShadowOS.Mm

abbrev Labels := Frame → Option (Frame × List (Fin 512))

/-- Nothing changed but the memory and the bookkeeping of the free stack. -/
structure SameGlobals (k k' : State) : Prop where
  hhdm : k'.hhdmOffset = k.hhdmOffset
  pages : k'.stack.pages = k.stack.pages
  kernel : k'.kernelPagemap = k.kernelPagemap
  oom : k'.outOfMemory = k.outOfMemory

theorem SameGlobals.refl (k : State) : SameGlobals k k := ⟨rfl, rfl, rfl, rfl⟩

theorem SameGlobals.trans {k₁ k₂ k₃ : State} (h : SameGlobals k₁ k₂) (h' : SameGlobals k₂ k₃) : SameGlobals k₁ k₃ :=
  ⟨h'.hhdm.trans h.hhdm, h'.pages.trans h.pages, h'.kernel.trans h.kernel, h'.oom.trans h.oom⟩

theorem SameGlobals.higherHalf {k k' : State} (h : SameGlobals k k') (p : U64) : k'.higherHalf p = k.higherHalf p := by
  simp only [State.higherHalf, h.hhdm]

theorem SameGlobals.physical {k k' : State} (h : SameGlobals k k') (p : U64) : k'.physical p = k.physical p := by
  simp only [State.physical, h.hhdm]

theorem SameGlobals.isArray {k k' : State} (h : SameGlobals k k') {n : Nat} {f : Frame} :
    k'.IsArray n f ↔ k.IsArray n f := by
  simp only [State.IsArray, State.slotAddr, h.physical, h.pages]

/-- The free stack holds `free`, the labelled frames are page tables, and neither is the other or the array. -/
structure Owned (k : State) (all free : List Frame) (lab : Labels) : Prop where
  stack : FreeStack k all free
  tables : pte.Forest 3 k.mem.word lab
  small : ∀ f ∈ all, f.1.toNat < 2 ^ 52
  held : ∀ f, lab f ≠ none → f ∉ free ∧ ¬ k.IsArray all.length f

variable {k : State} {all free : List Frame} {lab : Labels}

namespace Owned

/-- Frames that are neither tables nor the array may change. -/
theorem frame (h : Owned k all free lab) {m : Mem} {S : Set Frame} (hm : Mem.EqOutside S k.mem m)
    (hS : ∀ f ∈ S, lab f = none ∧ ¬ k.IsArray all.length f) : Owned { k with mem := m } all free lab := by
  refine ⟨h.stack.frame hm (fun f hf => (hS f hf).2), h.tables.congr (fun n hn => ?_), h.small, h.held⟩
  funext i
  exact hm.word (fun hc => hn (hS n hc).1) i

theorem look_frame (h : Owned k all free lab) {m : Mem} {S : Set Frame} (hm : Mem.EqOutside S k.mem m)
    (hS : ∀ f ∈ S, lab f = none) {r : Frame} (hr : lab r = some (r, [])) (v : U64) :
    pte.look m.word r (path v) (ix v 12) = pte.look k.mem.word r (path v) (ix v 12) := by
  refine h.tables.look_congr (fun n hn => ?_) hr (by simp [path])
  funext i
  exact hm.word (fun hc => hn (hS n hc)) i

end Owned

/-- What `Owned` says, but the address 0 may be a frame. -/
structure Tables (k : State) (all free : List Frame) (lab : Labels) : Prop where
  stack : PageStack k all free
  mapped : ∀ f ∈ all, k.higherHalf f.1 ≠ 0
  tables : pte.Forest 3 k.mem.word lab
  small : ∀ f ∈ all, f.1.toNat < 2 ^ 52
  held : ∀ f, lab f ≠ none → f ∉ free ∧ ¬ k.IsArray all.length f

theorem Owned.weak (h : Owned k all free lab) : Tables k all free lab :=
  ⟨h.stack.pageStack, h.stack.mapped, h.tables, h.small, h.held⟩

theorem Tables.owned (h : Tables k all free lab) (h0 : ∀ f ∈ all, f.1 ≠ 0) : Owned k all free lab :=
  ⟨h.stack.freeStack h0 h.mapped, h.tables, h.small, h.held⟩

/-- A requested frame is free of contents and belongs to nobody else. -/
theorem Tables.request {f : Frame} (h : Tables k all (free ++ [f]) lab) : ∃ k', pmmRequestPage k = (f.1, k') ∧
    Tables k' all free lab ∧ SameGlobals k k' ∧ k'.mem = k.mem.fill f.1 0 4096 ∧ lab f = none ∧
    ¬ k.IsArray all.length f := by
  have hf : f ∈ all := h.stack.sub (by simp)
  have hl : lab f = none := by
    by_contra hc
    exact (h.held f hc).1 (by simp)
  have ha := h.stack.not_isArray hf
  obtain ⟨v, s, he⟩ := h.stack.request_top
  refine ⟨_, he.trans (if_neg (h.mapped f hf)), ⟨h.stack.pop (Mem.EqOutside.fill k.mem f 0 le_rfl), h.mapped,
    h.tables.congr (fun n hn => ?_), h.small, fun g hg => ?_⟩, ⟨rfl, rfl, rfl, rfl⟩, rfl, hl, ha⟩
  · funext i
    refine (Mem.EqOutside.fill k.mem f 0 le_rfl).word (fun hc => hn ?_) i
    rw [Set.mem_singleton_iff.mp hc, hl]
  · exact ⟨fun hc => (h.held g hg).1 (by simp [hc]), (h.held g hg).2⟩

theorem Owned.request {f : Frame} (h : Owned k all (free ++ [f]) lab) : ∃ k', pmmRequestPage k = (f.1, k') ∧
    Owned k' all free lab ∧ SameGlobals k k' ∧ k'.mem = k.mem.fill f.1 0 4096 ∧ lab f = none ∧
    ¬ k.IsArray all.length f := by
  obtain ⟨k', he, ht, hrest⟩ := h.weak.request
  exact ⟨k', he, ht.owned h.stack.nonzero, hrest⟩

theorem Owned.request_none (h : Owned k all [] lab) : pmmRequestPage k = (0, { k with outOfMemory := true }) :=
  h.stack.request_empty

/-! ## Running out of frames is never forgotten -/

theorem isPageValid_oom (k : State) (page : U64) : (isPageValid k page).2.outOfMemory = k.outOfMemory := by
  obtain ⟨v, s, hc⟩ := updateCacheAccess_eq k page
  unfold isPageValid
  split
  · rw [hc]
  · split
    · rw [hc]
    · rfl

theorem pmmRequestPage_oom {k : State} (h : (pmmRequestPage k).2.outOfMemory = false) : k.outOfMemory = false := by
  unfold pmmRequestPage at h
  split at h
  · cases h
  · split at h
    · exact h
    · have hv := isPageValid_oom { k with stack.idx := k.stack.idx - 1 }
        (State.load { k with stack.idx := k.stack.idx - 1 } (k.stack.pages + 8 * (k.stack.idx - 1)))
      simp only at h hv
      split at h
      · exact hv.symm.trans h
      · split at h
        · exact hv.symm.trans h
        · exact hv.symm.trans h

theorem pmmReleasePage_oom (k : State) (p : U64) : (pmmReleasePage k p).outOfMemory = k.outOfMemory := by
  have hv := isPageValid_oom k p
  simp only [pmmReleasePage]
  split
  · rfl
  · split
    · exact hv
    · split
      · exact hv
      · exact hv

theorem nextTable_oom {k : State} {t i : U64} (h : (nextTable k t i).2.outOfMemory = false) : k.outOfMemory = false := by
  unfold nextTable at h
  simp only at h
  split at h
  · exact pmmRequestPage_oom h
  · exact h

theorem pml1Table_oom {k : State} {pm v : U64} (h : (pml1Table k pm v).2.outOfMemory = false) :
    k.outOfMemory = false := by
  simp only [pml1Table] at h
  exact nextTable_oom (nextTable_oom (nextTable_oom h))

theorem vmmMap_oom {k : State} {pm v p fl : U64} (h : (vmmMap k pm v p fl).outOfMemory = false) :
    k.outOfMemory = false := pml1Table_oom h

/-! ## Mapping -/

/-- What an operation that adds page tables does to the frames. -/
structure Grows (k : State) (free : List Frame) (lab : Labels) (k' : State) (free' : List Frame) (lab' : Labels) : Prop where
  globals : SameGlobals k k'
  taken : ∃ used, free = free' ++ used ∧ ∀ f, lab' f ≠ none → lab f ≠ none ∨ f ∈ used
  keep : ∀ {f l}, lab f = some l → lab' f = some l
  mem : Mem.EqOutside {f | lab' f ≠ none ∨ f ∈ free} k.mem k'.mem

theorem Grows.refl (k : State) (free : List Frame) (lab : Labels) : Grows k free lab k free lab :=
  ⟨.refl k, ⟨[], by simp, fun _ h => .inl h⟩, fun h => h, .refl _ _⟩

theorem Grows.trans {k₁ k₂ k₃ : State} {free₁ free₂ free₃ : List Frame} {lab₁ lab₂ lab₃ : Labels}
    (h : Grows k₁ free₁ lab₁ k₂ free₂ lab₂) (h' : Grows k₂ free₂ lab₂ k₃ free₃ lab₃) :
    Grows k₁ free₁ lab₁ k₃ free₃ lab₃ := by
  obtain ⟨used, he, hu⟩ := h.taken
  obtain ⟨used', he', hu'⟩ := h'.taken
  refine ⟨h.globals.trans h'.globals, ⟨used' ++ used, by rw [he, he', List.append_assoc], fun f hf => ?_⟩,
    fun hl => h'.keep (h.keep hl), (h.mem.mono (fun f hf => ?_)).trans (h'.mem.mono (fun f hf => ?_))⟩
  · rcases hu' f hf with hf | hf
    · rcases hu f hf with hf | hf
      · exact .inl hf
      · exact .inr (by simp [hf])
    · exact .inr (by simp [hf])
  · rcases hf with hf | hf
    · obtain ⟨l, hl⟩ := Option.ne_none_iff_exists'.mp hf
      exact .inl (by simp [h'.keep hl])
    · exact .inr hf
  · exact hf.imp_right (fun hf => by rw [he]; exact List.mem_append_left _ hf)

/-- Nothing that is mapped changes. -/
def SameLook (lab : Labels) (m m' : Mem) : Prop :=
  ∀ r, lab r = some (r, []) → ∀ v, pte.look m'.word r (path v) (ix v 12) = pte.look m.word r (path v) (ix v 12)

/-- The last-level entry of an address under the root `r`, with its flags. -/
def leaf (m : Mem) (r : Frame) (v : U64) : U64 := flaggedPte.look m.word r (path v) (ix v 12)

def SameLeaf (lab : Labels) (m m' : Mem) : Prop := ∀ r, lab r = some (r, []) → ∀ v, leaf m' r v = leaf m r v

theorem SameLeaf.look {m m' : Mem} (h : SameLeaf lab m m') : SameLook lab m m' := by
  intro r hr v
  rw [look_eq_flagged, look_eq_flagged]
  exact congrArg (· &&& addrMask) (h r hr v)

namespace Tables

theorem flagged (h : Tables k all free lab) : flaggedPte.Forest 3 k.mem.word lab := h.tables.of_next rfl

/-- A requested frame becomes the table that an empty entry names, and no translation changes. -/
theorem nextTable_absent {n o p} {f : Frame} {i : Fin 512} {idx : U64} (h : Tables k all (free ++ [f]) lab)
    (hn : lab n = some (o, p)) (hp : p.length < 3) (hi : idx.toNat = i.1) (he : k.mem.word n i &&& 1 = 0) :
    ∃ k', Mm.nextTable k (k.higherHalf n.1) idx = (k'.higherHalf f.1, k') ∧
      Tables k' all free (fun m => if m = f then some (o, p ++ [i]) else lab m) ∧
      Grows k (free ++ [f]) lab k' free (fun m => if m = f then some (o, p ++ [i]) else lab m) ∧
      pte.next (k'.mem.word n i) = some f ∧ SameLeaf lab k.mem k'.mem ∧ lab f = none ∧
      (∀ g j, g ≠ n ∨ j ≠ i → lab g ≠ none → k'.mem.word g j = k.mem.word g j) := by
  obtain ⟨k₁, hreq, hown, hglob, hmem, hlab, harr⟩ := h.request
  have hf : f ∈ all := h.stack.sub (by simp)
  have hnf : n ≠ f := by rintro rfl; rw [hn] at hlab; cases hlab
  have hword : k₁.mem.word = fun g j => if g = f then 0 else k.mem.word g j := by
    funext g j
    rw [hmem, Mem.word_fill_zero]
  have hnext := pte_next_table (h.small f hf)
  have hni : pte.next (k₁.mem.word n i) = none := by
    rw [hword]
    simp only [hnf, ↓reduceIte]
    exact pte_next_absent he
  have hblank : ∀ j, k₁.mem.word f j = pte.blank := by
    intro j
    rw [hword]
    simp only [↓reduceIte]
    rfl
  have hst := store_entryPtr k₁ n hi (f.1 ||| 0b111)
  rw [hglob.higherHalf] at hst
  generalize hk₂ : ({ k₁ with mem := k₁.mem.store64 (n.slot i) (f.1 ||| 0b111) } : State) = k₂ at hst
  have hmem₂ : k₂.mem.word = Format.set k₁.mem.word n i (f.1 ||| 0b111) := by
    rw [← hk₂]
    exact word_store64_eq_set _ _ _ _
  have hglob₂ : SameGlobals k k₂ := by
    rw [← hk₂]
    exact ⟨hglob.hhdm, hglob.pages, hglob.kernel, hglob.oom⟩
  have hout : Mem.EqOutside {n} k₁.mem k₂.mem := by
    rw [← hk₂]
    exact Mem.EqOutside.store64 _ _ _ _
  have hwn : k₂.mem.word n i = f.1 ||| 0b111 := by
    rw [hmem₂]
    simp [Format.set]
  have heq : Mm.nextTable k (k.higherHalf n.1) idx = (k₂.higherHalf f.1, k₂) := by
    unfold Mm.nextTable
    simp only [load_entryPtr k n hi, he, ↓reduceIte, hreq, hst]
    rw [← hglob₂.higherHalf, load_entryPtr k₂ n hi, hwn, or_flags_and_addrMask _ f.2 (h.small f hf) (by decide)]
  refine ⟨k₂, heq, ⟨?_, ?_, ?_, h.small, ?_⟩, ⟨hglob₂, ⟨[f], rfl, ?_⟩, ?_, ?_⟩, ?_, ?_, hlab, ?_⟩
  · have := hown.stack.frame hout (by
      rintro g rfl
      rw [hglob.isArray]
      exact (h.held g (by rw [hn]; simp)).2)
    rw [← hk₂] at this ⊢
    exact this
  · intro g hg
    rw [hglob₂.higherHalf]
    exact h.mapped g hg
  · rw [hmem₂]
    exact hown.tables.link hn hp hni hnext hlab hblank
  · intro g hg
    rw [hglob₂.isArray]
    by_cases hgf : g = f
    · subst hgf
      have hnd := h.stack.nodup
      rw [List.nodup_append'] at hnd
      exact ⟨fun hc => hnd.2.2 hc (by simp), harr⟩
    · simp only [hgf, ↓reduceIte] at hg
      exact ⟨fun hc => (h.held g hg).1 (by simp [hc]), (h.held g hg).2⟩
  · intro g hg
    by_cases hgf : g = f
    · exact .inr (by simp [hgf])
    · simp only [hgf, ↓reduceIte] at hg
      exact .inl hg
  · intro g l hl
    have hgf : g ≠ f := by rintro rfl; rw [hlab] at hl; cases hl
    simpa only [hgf, ↓reduceIte] using hl
  · have h₁ : Mem.EqOutside {f} k.mem k₁.mem := by
      rw [hmem]
      exact Mem.EqOutside.fill _ _ _ le_rfl
    refine (h₁.mono ?_).trans (hout.mono ?_)
    · rintro g rfl
      simp
    · rintro g rfl
      simp [hnf, hn]
  · rw [hwn, hnext]
  · intro r hr v
    rw [leaf, hmem₂, hown.flagged.look_link hn hp hni hnext hlab hblank hr (by simp [path])]
    exact h.flagged.look_congr (fun g hg => by
      have hgf : g ≠ f := by rintro rfl; exact hg hlab
      funext j
      rw [hword]
      simp only [hgf, ↓reduceIte]) hr (by simp [path])
  · intro g j hgj hg
    have hgf : g ≠ f := by rintro rfl; exact hg hlab
    have hc : ¬ (g = n ∧ j = i) := by rintro ⟨rfl, rfl⟩; simp at hgj
    rw [hmem₂]
    simp only [Format.set, hc, ↓reduceIte, hword, hgf]

/-- An entry of a last-level table may be anything. -/
theorem storeLeaf {t : Frame} {o p} (h : Tables k all free lab) (ht : lab t = some (o, p)) (hp : p.length = 3) (i : Fin 512)
    (e : U64) : Tables { k with mem := k.mem.store64 (t.slot i) e } all free lab := by
  refine ⟨h.stack.frame (Mem.EqOutside.store64 k.mem t i e) ?_, h.mapped, ?_, h.small, h.held⟩
  · rintro g rfl
    exact (h.held _ (by simp [ht])).2
  · rw [word_store64_eq_set]
    exact h.tables.set_leaf ht hp

end Tables

namespace Owned

theorem flagged (h : Owned k all free lab) : flaggedPte.Forest 3 k.mem.word lab := h.weak.flagged

theorem nextTable_absent {n o p} {f : Frame} {i : Fin 512} {idx : U64} (h : Owned k all (free ++ [f]) lab)
    (hn : lab n = some (o, p)) (hp : p.length < 3) (hi : idx.toNat = i.1) (he : k.mem.word n i &&& 1 = 0) :
    ∃ k', Mm.nextTable k (k.higherHalf n.1) idx = (k'.higherHalf f.1, k') ∧
      Owned k' all free (fun m => if m = f then some (o, p ++ [i]) else lab m) ∧
      Grows k (free ++ [f]) lab k' free (fun m => if m = f then some (o, p ++ [i]) else lab m) ∧
      pte.next (k'.mem.word n i) = some f ∧ SameLeaf lab k.mem k'.mem ∧ lab f = none ∧
      (∀ g j, g ≠ n ∨ j ≠ i → lab g ≠ none → k'.mem.word g j = k.mem.word g j) := by
  obtain ⟨k', heq, ht, hrest⟩ := h.weak.nextTable_absent hn hp hi he
  exact ⟨k', heq, ht.owned h.stack.nonzero, hrest⟩

/-- One level of `vmm_map`: the entry names a table afterwards, and no translation has changed. -/
theorem nextTable {n o p} {i : Fin 512} {idx : U64} (h : Owned k all free lab) (hn : lab n = some (o, p))
    (hp : p.length < 3) (hi : idx.toNat = i.1)
    (hoom : 1 ≤ free.length ∨ (nextTable k (k.higherHalf n.1) idx).2.outOfMemory = false) :
    ∃ k' free' lab' m, Mm.nextTable k (k.higherHalf n.1) idx = (k'.higherHalf m.1, k') ∧ Owned k' all free' lab' ∧
      Grows k free lab k' free' lab' ∧ free.length ≤ free'.length + 1 ∧ pte.next (k'.mem.word n i) = some m ∧
      SameLeaf lab k.mem k'.mem ∧
      (pte.next (k.mem.word n i) = some m ∨ pte.next (k.mem.word n i) = none ∧ lab m = none) ∧
      (∀ f j, f ≠ n ∨ j ≠ i → lab f ≠ none → k'.mem.word f j = k.mem.word f j) := by
  by_cases he : k.mem.word n i &&& 1 = 0
  · rcases List.eq_nil_or_concat free with rfl | ⟨free', f, rfl⟩
    · rcases hoom with hoom | hoom
      · simp at hoom
      · unfold Mm.nextTable at hoom
        simp only [load_entryPtr k n hi, he, ↓reduceIte, h.request_none] at hoom
        cases hoom
    · rw [List.concat_eq_append] at h ⊢
      obtain ⟨k', heq, ho, hg, hx, hl, hf, hw⟩ := h.nextTable_absent hn hp hi he
      exact ⟨k', free', _, f, heq, ho, hg, by simp, hx, hl, .inr ⟨pte_next_absent he, hf⟩, hw⟩
  · have heq : Mm.nextTable k (k.higherHalf n.1) idx = (k.higherHalf (k.mem.word n i &&& addrMask), k) := by
      unfold Mm.nextTable
      simp only [load_entryPtr k n hi, he, ↓reduceIte]
    exact ⟨k, free, lab, ⟨_, and_addrMask_toNat _⟩, heq, h, .refl _ _ _, Nat.le_succ _, pte_next_present he,
      fun _ _ _ => rfl, .inl (pte_next_present he), fun _ _ _ _ => rfl⟩

/-- A table below a root is not a root. -/
theorem ne_root {n r : Frame} {o p} (hn : lab n = some (o, p)) (hp : p ≠ [])
    (hr : lab r = some (r, [])) : r ≠ n := by
  rintro rfl
  rw [hn] at hr
  cases hr
  exact hp rfl

end Owned

/-- From root `r'` the slot `i` leads to the same table as from root `r`. -/
def Sees (m : Mem) (r' r : Frame) (i : Fin 512) : Prop :=
  r' = r ∨ (pte.next (m.word r i) ≠ none ∧ pte.next (m.word r' i) = pte.next (m.word r i))

instance (m : Mem) (r' r : Frame) (i : Fin 512) : Decidable (Sees m r' r i) := inferInstanceAs (Decidable (_ ∨ _))

/-- What mapping `virt` under root `r` does to the translations from all roots. -/
structure Maps (lab : Labels) (r : Frame) (virt entry : U64) (m m' : Mem) : Prop where
  look : ∀ {r'}, lab r' = some (r', []) → ∀ v, pte.look m'.word r' (path v) (ix v 12) =
    if pageNo v = pageNo virt ∧ Sees m r' r (ix virt 39) then entry &&& addrMask
    else pte.look m.word r' (path v) (ix v 12)
  slot : ∀ {r'}, lab r' = some (r', []) → ∀ j, r' ≠ r ∨ j ≠ ix virt 39 → m'.word r' j = m.word r' j
  sees : ∀ {r'}, lab r' = some (r', []) → (Sees m' r' r (ix virt 39) ↔ Sees m r' r (ix virt 39))

/-- Mapping a page changes nothing about which tables are shared. -/
theorem Maps.sees_iff {r r' : Frame} {virt entry : U64} {m m' : Mem} (h : Maps lab r virt entry m m')
    (hr : lab r = some (r, [])) (hr' : lab r' = some (r', [])) (i : Fin 512) : Sees m' r' r i ↔ Sees m r' r i := by
  by_cases hi : i = ix virt 39
  · rw [hi]
    exact h.sees hr'
  · simp only [Sees, h.slot hr i (.inr hi), h.slot hr' i (.inr hi)]

/-- The walks that end in the last-level table of `virt`. -/
theorem walk_eq_iff {m : Mem} {r r' t : Frame} {v virt : U64} (h : pte.Forest 3 m.word lab) (hr : lab r = some (r, []))
    (hr' : lab r' = some (r', [])) (hw : pte.walk m.word r (path virt) = some t) :
    pte.walk m.word r' (path v) = some t ∧ ix v 12 = ix virt 12 ↔
      pageNo v = pageNo virt ∧ Sees m r' r (ix virt 39) := by
  have hsame : pte.walk m.word r' (path virt) = some t ↔ Sees m r' r (ix virt 39) := by
    rw [path, h.walk_shared hr hr' (by simp) hw]
    constructor
    · intro he
      refine .inr ⟨fun hc => ?_, he⟩
      simp only [path, Format.walk, hc] at hw
      cases hw
    · rintro (rfl | he)
      · rfl
      · exact he.2
  rw [pageNo_eq_iff]
  constructor
  · rintro ⟨hv, hj⟩
    obtain ⟨o, ho, _⟩ := h.walk_lab hr (by simp [path]) hw
    obtain ⟨o', ho', _⟩ := h.walk_lab hr' (by simp [path]) hv
    have hpath : path virt = path v := by simpa using Format.Forest.label_path_eq ho ho'
    rw [← hpath] at hv
    exact ⟨⟨hpath.symm, hj⟩, hsame.mp hv⟩
  · rintro ⟨⟨hp, hj⟩, hs⟩
    rw [hp]
    exact ⟨hsame.mpr hs, hj⟩

namespace Owned

/-- The three levels above the last: afterwards the path of `virt` leads to a last-level table. -/
theorem pml1Table {r : Frame} {virt : U64} (h : Owned k all free lab) (hr : lab r = some (r, []))
    (hoom : 3 ≤ free.length ∨ (pml1Table k (k.higherHalf r.1) virt).2.outOfMemory = false) :
    ∃ k' free' lab' t₁, Mm.pml1Table k (k.higherHalf r.1) virt = (k'.higherHalf t₁.1, k') ∧ Owned k' all free' lab' ∧
      Grows k free lab k' free' lab' ∧ free.length ≤ free'.length + 3 ∧ SameLeaf lab k.mem k'.mem ∧
      pte.walk k'.mem.word r (path virt) = some t₁ ∧
      (∀ {r'}, lab r' = some (r', []) → ∀ j, r' ≠ r ∨ j ≠ ix virt 39 → k'.mem.word r' j = k.mem.word r' j) ∧
      (pte.next (k.mem.word r (ix virt 39)) = pte.next (k'.mem.word r (ix virt 39)) ∨
        pte.next (k.mem.word r (ix virt 39)) = none ∧
          ∃ t₃, pte.next (k'.mem.word r (ix virt 39)) = some t₃ ∧ lab t₃ = none) := by
  simp only [Mm.pml1Table] at hoom ⊢
  have hoom₂ := hoom.imp_right nextTable_oom
  have hoom₁ := hoom₂.imp_right nextTable_oom
  obtain ⟨k₁, free₁, lab₁, t₃, he₁, h₁, g₁, hn₁, hx₁, hl₁, hf₁, hw₁⟩ :=
    h.nextTable hr (by simp) (pmlIdx_toNat virt _ (by omega)) (hoom₁.imp_left (by omega))
  simp only [he₁] at hoom hoom₂ ⊢
  obtain ⟨o₃, ho₃, _⟩ := h₁.tables.step (g₁.keep hr) (by simp) hx₁
  obtain ⟨k₂, free₂, lab₂, t₂, he₂, h₂, g₂, hn₂, hx₂, hl₂, hf₂, hw₂⟩ :=
    h₁.nextTable ho₃ (by simp) (pmlIdx_toNat virt _ (by omega)) (hoom₂.imp_left (by omega))
  simp only [he₂] at hoom ⊢
  obtain ⟨o₂, ho₂, _⟩ := h₂.tables.step (g₂.keep ho₃) (by simp) hx₂
  obtain ⟨k₃, free₃, lab₃, t₁, he₃, h₃, g₃, hn₃, hx₃, hl₃, hf₃, hw₃⟩ :=
    h₂.nextTable ho₂ (by simp) (pmlIdx_toNat virt _ (by omega)) (hoom.imp_left (by omega))
  -- the entries written on the way down stay as they are
  have hroot : ∀ {r'}, lab r' = some (r', []) → ∀ j, k₃.mem.word r' j = k₁.mem.word r' j := by
    intro r' hr' j
    have hr₁ := g₁.keep hr'
    have hr₂ := g₂.keep hr₁
    rw [hw₃ r' j (.inl (ne_root ho₂ (by simp) hr₂)) (by simp [hr₂]),
      hw₂ r' j (.inl (ne_root ho₃ (by simp) hr₁)) (by simp [hr₁])]
  have ht₃ : k₃.mem.word t₃ (ix virt 30) = k₂.mem.word t₃ (ix virt 30) := by
    refine hw₃ _ _ (.inl ?_) (by simp [g₂.keep ho₃])
    rintro rfl
    have := Format.Forest.label_path_eq ho₂ (g₂.keep ho₃)
    simp at this
  refine ⟨k₃, free₃, lab₃, t₁, he₃, h₃, (g₁.trans g₂).trans g₃, by omega, ?_, ?_, ?_, ?_⟩
  · intro r' hr' v
    rw [hl₃ r' (g₂.keep (g₁.keep hr')) v, hl₂ r' (g₁.keep hr') v, hl₁ r' hr' v]
  · simp only [path, Format.walk, hroot hr, hx₁, ht₃, hx₂, hx₃]
  · intro r' hr' j hj
    rw [hroot hr' j]
    exact hw₁ r' j hj (by simp [hr'])
  · rw [hroot hr, hx₁]
    rcases hf₁ with hf₁ | hf₁
    · exact .inl hf₁
    · exact .inr ⟨hf₁.1, t₃, rfl, hf₁.2⟩

theorem storeLeaf {t : Frame} {o p} (h : Owned k all free lab) (ht : lab t = some (o, p)) (hp : p.length = 3) (i : Fin 512)
    (e : U64) : Owned { k with mem := k.mem.store64 (t.slot i) e } all free lab :=
  (h.weak.storeLeaf ht hp i e).owned h.stack.nonzero

/-- `vmm_map` maps the page of `virt` and nothing else. -/
theorem vmmMap {r : Frame} {virt phys flags : U64} (h : Owned k all free lab) (hr : lab r = some (r, []))
    (hoom : 3 ≤ free.length ∨ (vmmMap k (k.higherHalf r.1) virt phys flags).outOfMemory = false) :
    ∃ free' lab', Owned (Mm.vmmMap k (k.higherHalf r.1) virt phys flags) all free' lab' ∧
      Grows k free lab (Mm.vmmMap k (k.higherHalf r.1) virt phys flags) free' lab' ∧ free.length ≤ free'.length + 3 ∧
      Maps lab r virt (phys ||| flags) k.mem (Mm.vmmMap k (k.higherHalf r.1) virt phys flags).mem := by
  simp only [Mm.vmmMap] at hoom ⊢
  obtain ⟨k', free', lab', t₁, he, hown, hg, hn, hlook, hwalk, hslot, hfirst⟩ := h.pml1Table hr hoom
  simp only [he]
  obtain ⟨o, ho, _⟩ := hown.tables.walk_lab (hg.keep hr) (by simp [path]) hwalk
  rw [List.nil_append] at ho
  rw [store_entryPtr k' t₁ (pmlIdx_toNat virt _ (by omega))]
  have hout := Mem.EqOutside.store64 k'.mem t₁ (ix virt 12) (phys ||| flags)
  have hword := word_store64_eq_set k'.mem t₁ (ix virt 12) (phys ||| flags)
  have hnr : ∀ {r'}, lab r' = some (r', []) → ∀ j,
      (k'.mem.store64 (t₁.slot (ix virt 12)) (phys ||| flags)).word r' j = k'.mem.word r' j := by
    intro r' hr' j
    exact hout.word (ne_root ho (by simp [path]) (hg.keep hr')) j
  -- the first table is an old one, or it is new and no other root can name it
  have hsees : ∀ {r'}, lab r' = some (r', []) → (Sees k'.mem r' r (ix virt 39) ↔ Sees k.mem r' r (ix virt 39)) := by
    intro r' hr'
    by_cases hrr : r' = r
    · simp only [Sees, hrr, true_or]
    · simp only [Sees, hrr, false_or, hslot hr' _ (.inl hrr)]
      rcases hfirst with hfirst | ⟨hnone, t₃, hnew, ht₃⟩
      · rw [hfirst]
      · rw [hnew, hnone]
        refine ⟨fun he => ?_, fun he => absurd rfl he.1⟩
        obtain ⟨o', ho', _⟩ := h.tables.step hr' (by simp) he.2
        rw [ht₃] at ho'
        cases ho'
  refine ⟨free', lab', hown.storeLeaf ho (by simp [path]) _ _, ⟨?_, hg.taken, hg.keep, hg.mem.trans (hout.mono ?_)⟩, hn,
    ?_, ?_, ?_⟩
  · exact ⟨hg.globals.hhdm, hg.globals.pages, hg.globals.kernel, hg.globals.oom⟩
  · rintro g rfl
    simp [ho]
  · intro r' hr' v
    rw [hword, hown.tables.look_set_leaf ho (by simp [path]) (hg.keep hr') (by simp [path]), hlook.look r' hr' v]
    refine if_congr ?_ rfl rfl
    rw [walk_eq_iff hown.tables (hg.keep hr) (hg.keep hr') hwalk]
    exact and_congr_right (fun _ => hsees hr')
  · intro r' hr' j hj
    rw [hnr hr', hslot hr' j hj]
  · intro r' hr'
    rw [← hsees hr']
    simp only [Sees, hnr hr, hnr hr']

/-- Under the root itself, `vmm_map` changes the entry of the page of `virt` only. -/
theorem vmmMap_leaf {r : Frame} {virt phys flags : U64} (h : Owned k all free lab) (hr : lab r = some (r, []))
    (hoom : 3 ≤ free.length ∨ (Mm.vmmMap k (k.higherHalf r.1) virt phys flags).outOfMemory = false) (v : U64) :
    leaf (Mm.vmmMap k (k.higherHalf r.1) virt phys flags).mem r v =
      if pageNo v = pageNo virt then phys ||| flags else leaf k.mem r v := by
  simp only [Mm.vmmMap] at hoom ⊢
  obtain ⟨k', free', lab', t₁, he, hown, hg, _, hsame, hwalk, _⟩ := h.pml1Table hr hoom
  simp only [he]
  obtain ⟨o, ho, _⟩ := hown.tables.walk_lab (hg.keep hr) (by simp [path]) hwalk
  rw [store_entryPtr k' t₁ (pmlIdx_toNat virt _ (by omega)), leaf, word_store64_eq_set,
    hown.flagged.look_set_leaf ho (by simp [path]) (hg.keep hr) (by simp [path]), ← hsame r hr v]
  refine if_congr ?_ rfl rfl
  rw [flagged_walk, walk_eq_iff hown.tables (hg.keep hr) (hg.keep hr) hwalk]
  exact ⟨fun hc => hc.1, fun hc => ⟨hc, .inl rfl⟩⟩

/-- A store of zero into an entry that is not present changes no translation. -/
theorem clear_absent {n : Frame} {o p} {i : Fin 512} (r : Frame) (virt : U64) (h : Owned k all free lab)
    (hn : lab n = some (o, p)) (hp : p.length < 3) (hi : k.mem.word n i &&& 1 = 0)
    (hslot : ∀ {r'}, lab r' = some (r', []) → ∀ j, r' ≠ r ∨ j ≠ ix virt 39 → r' ≠ n ∨ j ≠ i)
    (hzero : ∀ {r'}, lab r' = some (r', []) → ∀ v, path v = path virt → Sees k.mem r' r (ix virt 39) →
      pte.look k.mem.word r' (path v) (ix v 12) = 0) :
    Owned { k with mem := k.mem.store64 (n.slot i) 0 } all free lab ∧
      Maps lab r virt 0 k.mem (k.mem.store64 (n.slot i) 0) := by
  have hout := Mem.EqOutside.store64 k.mem n i 0
  have hword := word_store64_eq_set k.mem n i 0
  have h0 : pte.next (0 : U64) = none := by decide
  refine ⟨⟨?_, ?_, h.small, h.held⟩, ?_, ?_, ?_⟩
  · refine h.stack.frame hout ?_
    rintro g rfl
    exact (h.held _ (by simp [hn])).2
  · rw [hword]
    exact h.tables.set_absent (pte_next_absent hi) h0
  · intro r' hr' v
    rw [hword, h.tables.look_set_absent hn hp (pte_next_absent hi) h0 hr' (by simp [path])]
    split
    · rename_i hc
      rw [hzero hr' v (pageNo_eq_iff.mp hc.1).1 hc.2]
      rfl
    · rfl
  · intro r' hr' j hj
    rw [hword]
    have hc : ¬ (r' = n ∧ j = i) := by
      rintro ⟨rfl, rfl⟩
      rcases hslot hr' j hj with hx | hx
      · exact hx rfl
      · exact hx rfl
    simp only [Format.set, hc, ↓reduceIte]
  · intro r' _
    simp only [Sees, hword, Format.next_set_absent (pte_next_absent hi) h0]

/-- `vmm_unmap` unmaps the page of `virt` and nothing else. -/
theorem vmmUnmap {r : Frame} (h : Owned k all free lab) (hr : lab r = some (r, [])) (virt : U64) :
    Owned (vmmUnmap k (k.higherHalf r.1) virt) all free lab ∧
      Grows k free lab (Mm.vmmUnmap k (k.higherHalf r.1) virt) free lab ∧
      Maps lab r virt 0 k.mem (Mm.vmmUnmap k (k.higherHalf r.1) virt).mem := by
  have hl₄ := load_entryPtr k r (pmlIdx_toNat virt 39 (by omega))
  have hgrow : ∀ {n : Frame} {i : Fin 512}, lab n ≠ none →
      Grows k free lab { k with mem := k.mem.store64 (n.slot i) 0 } free lab := by
    intro n i hn
    refine ⟨⟨rfl, rfl, rfl, rfl⟩, ⟨[], by simp, fun _ hf => .inl hf⟩, fun hl => hl,
      (Mem.EqOutside.store64 k.mem n i 0).mono ?_⟩
    rintro g rfl
    exact .inl hn
  unfold Mm.vmmUnmap
  simp only [hl₄]
  by_cases he₄ : k.mem.word r (ix virt 39) &&& 1 = 0
  · simp only [he₄, ↓reduceIte, store_entryPtr k r (pmlIdx_toNat virt 39 (by omega))]
    obtain ⟨ho, hm⟩ := h.clear_absent r virt hr (by simp) he₄ (fun _ _ hj => hj) (by
      intro r' hr' v hv hs
      have hn := pte_next_absent he₄
      rcases hs with rfl | hs
      · rw [hv]
        exact Format.look_cons_none hn _ _
      · exact absurd hn hs.1)
    exact ⟨ho, hgrow (by simp [hr]), hm⟩
  simp only [he₄, ↓reduceIte]
  have hx₄ := pte_next_present he₄
  generalize ht₃ : (⟨k.mem.word r (ix virt 39) &&& addrMask, and_addrMask_toNat _⟩ : Frame) = t₃ at hx₄
  have hv₃ : k.mem.word r (ix virt 39) &&& addrMask = t₃.1 := congrArg Subtype.val ht₃
  obtain ⟨o₃, ho₃, _⟩ := h.tables.step hr (by simp) hx₄
  have hr₃ : ∀ {r'}, lab r' = some (r', []) → r' ≠ t₃ := fun hr' => ne_root ho₃ (by simp) hr'
  have hs₃ : ∀ {r'}, Sees k.mem r' r (ix virt 39) → pte.next (k.mem.word r' (ix virt 39)) = some t₃ := by
    rintro r' (rfl | hs)
    · exact hx₄
    · rw [hs.2, hx₄]
  have hl₃ := load_entryPtr k t₃ (pmlIdx_toNat virt 30 (by omega))
  simp only [hv₃, hl₃]
  by_cases he₃ : k.mem.word t₃ (ix virt 30) &&& 1 = 0
  · simp only [he₃, ↓reduceIte, store_entryPtr k t₃ (pmlIdx_toNat virt 30 (by omega))]
    obtain ⟨ho, hm⟩ := h.clear_absent r virt ho₃ (by simp) he₃ (fun hr' _ _ => .inl (hr₃ hr')) (by
      intro r' hr' v hv hs
      rw [hv, path, Format.look_cons_some (hs₃ hs)]
      exact Format.look_cons_none (pte_next_absent he₃) _ _)
    exact ⟨ho, hgrow (by simp [ho₃]), hm⟩
  simp only [he₃, ↓reduceIte]
  have hx₃ := pte_next_present he₃
  generalize ht₂ : (⟨k.mem.word t₃ (ix virt 30) &&& addrMask, and_addrMask_toNat _⟩ : Frame) = t₂ at hx₃
  have hv₂ : k.mem.word t₃ (ix virt 30) &&& addrMask = t₂.1 := congrArg Subtype.val ht₂
  obtain ⟨o₂, ho₂, _⟩ := h.tables.step ho₃ (by simp) hx₃
  have hr₂ : ∀ {r'}, lab r' = some (r', []) → r' ≠ t₂ := fun hr' => ne_root ho₂ (by simp) hr'
  have hl₂ := load_entryPtr k t₂ (pmlIdx_toNat virt 21 (by omega))
  simp only [hv₂, hl₂]
  by_cases he₂ : k.mem.word t₂ (ix virt 21) &&& 1 = 0
  · simp only [he₂, ↓reduceIte, store_entryPtr k t₂ (pmlIdx_toNat virt 21 (by omega))]
    obtain ⟨ho, hm⟩ := h.clear_absent r virt ho₂ (by simp) he₂ (fun hr' _ _ => .inl (hr₂ hr')) (by
      intro r' hr' v hv hs
      rw [hv, path, Format.look_cons_some (hs₃ hs), Format.look_cons_some hx₃]
      exact Format.look_cons_none (pte_next_absent he₂) _ _)
    exact ⟨ho, hgrow (by simp [ho₂]), hm⟩
  simp only [he₂, ↓reduceIte]
  have hx₂ := pte_next_present he₂
  generalize ht₁ : (⟨k.mem.word t₂ (ix virt 21) &&& addrMask, and_addrMask_toNat _⟩ : Frame) = t₁ at hx₂
  have hv₁ : k.mem.word t₂ (ix virt 21) &&& addrMask = t₁.1 := congrArg Subtype.val ht₁
  obtain ⟨o₁, ho₁, _⟩ := h.tables.step ho₂ (by simp) hx₂
  have hwalk : pte.walk k.mem.word r (path virt) = some t₁ := by
    simp only [path, Format.walk, hx₄, hx₃, hx₂]
  simp only [hv₁, store_entryPtr k t₁ (pmlIdx_toNat virt 12 (by omega))]
  have hout := Mem.EqOutside.store64 k.mem t₁ (ix virt 12) 0
  have hword := word_store64_eq_set k.mem t₁ (ix virt 12) 0
  refine ⟨h.storeLeaf ho₁ (by simp) _ _, hgrow (by simp [ho₁]), ?_, ?_, ?_⟩
  · intro r' hr' v
    rw [hword, h.tables.look_set_leaf ho₁ (by simp) hr' (by simp [path])]
    exact if_congr (walk_eq_iff h.tables hr hr' hwalk) rfl rfl
  · intro r' hr' j _
    exact hout.word (ne_root ho₁ (by simp) hr') j
  · intro r' hr'
    simp only [Sees, hout.word (ne_root ho₁ (by simp) hr), hout.word (ne_root ho₁ (by simp) hr')]

end Owned

end ShadowOS.Mm
