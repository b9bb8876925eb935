import ShadowOS.Mm.PmmSpec
import ShadowOS.Mm.Lemmas.PmmInit

/-!
# The caches of the page frame allocator
-/

namespace ShadowOS.Mm

variable {k : State} {memmap : List MemmapEntry} {page a : U64}

/-! ## Indices -/

theorem hashPage_lt (page : U64) : (hashPage page).toNat < cacheSize := by
  have hsize : (BitVec.ofNat 64 cacheSize).toNat = cacheSize := rfl
  simp only [hashPage]
  rw [BitVec.toNat_umod, hsize]
  exact Nat.mod_lt _ (by decide)

/-- The search of the secondary cache stays in it. -/
theorem searchIndices_inRange {n : Nat} (hn : n ≤ secondaryCacheSize) :
    ∀ i ∈ (List.range n).map fun i => CacheIndex.secondary (BitVec.ofNat 64 i), i.InRange := by
  have hsize : secondaryCacheSize = 64 := rfl
  intro i hi
  obtain ⟨j, hj, rfl⟩ := List.mem_map.mp hi
  rw [List.mem_range] at hj
  rw [CacheIndex.InRange, BitVec.toNat_ofNat]
  omega

/-- Only the lookup in the secondary cache can leave it. -/
theorem updateCacheIndices_inRange (k : State) (page : U64) : (∀ i ∈ updateCacheIndices k page, i.InRange) ↔
    isInPrimaryCache k page = true ∨ (hashPage page).toNat < secondaryCacheSize := by
  have hprim : (CacheIndex.primary (hashPage page)).InRange := hashPage_lt page
  rw [updateCacheIndices]
  split
  · rename_i hin
    simp [hprim, hin]
  · rename_i hin
    simp only [List.forall_mem_cons, hprim, true_and, hin, Bool.false_eq_true, false_or]
    refine ⟨And.left, fun hlt => ⟨hlt, ?_⟩⟩
    split
    · cases hfind : (List.range secondaryCacheSize).find? (fun i => (k.secondaryCache i).pageAddr == page) with
      | some i =>
          have hi := List.mem_range.mp (List.mem_of_find?_eq_some hfind)
          simp only [List.forall_mem_append, List.forall_mem_singleton]
          exact ⟨searchIndices_inRange hi, hprim⟩
      | none => exact searchIndices_inRange le_rfl
    · simp

theorem pageValidIndices_inRange (k : State) (page : U64) :
    (∀ i ∈ pageValidIndices k page, i.InRange) ↔ PmmOp.FitsCaches k page := by
  have hprim : (CacheIndex.primary (hashPage page)).InRange := hashPage_lt page
  have hupd := updateCacheIndices_inRange k page
  simp only [pageValidIndices, PmmOp.FitsCaches, List.forall_mem_cons, hprim, true_and]
  by_cases hin : isInPrimaryCache k page = true
  · simp only [hin, ↓reduceIte, hupd, true_or]
  · by_cases hmap : isInMemmap k.memmap k.reclaimed page = true
    · simp only [hin, hmap, Bool.false_eq_true, ↓reduceIte, hupd, false_or, Bool.true_eq_false]
    · simp only [hin, hmap, Bool.false_eq_true, ↓reduceIte, List.not_mem_nil, false_implies, implies_true, true_or, or_true]

/-! ## What is in the primary cache -/

/-- What a lookup finds in the primary cache is in the memory map. -/
def CacheSound (k : State) : Prop := ∀ p, isInPrimaryCache k p = true → isInMemmap k.memmap k.reclaimed p = true

/-- An entry for a page of the memory map may be put at any index. -/
theorem CacheSound.update (h : CacheSound k) {e : PageCacheEntry} (i : Nat)
    (he : e.isValid = true → isInMemmap k.memmap k.reclaimed e.pageAddr = true) :
    CacheSound { k with validPageCache := Function.update k.validPageCache i e } := by
  intro p hp
  simp only [isInPrimaryCache, Bool.and_eq_true, beq_iff_eq] at hp
  by_cases hi : (hashPage p).toNat = i
  · rw [hi, Function.update_self] at hp
    rw [← hp.2]
    exact he hp.1
  · rw [Function.update_of_ne hi] at hp
    refine h p ?_
    simp only [isInPrimaryCache, Bool.and_eq_true, beq_iff_eq]
    exact hp

/-- Only the primary cache and the memory map count. -/
theorem CacheSound.congr {k' : State} (h : CacheSound k) (hcache : k'.validPageCache = k.validPageCache)
    (hmap : k'.memmap = k.memmap) (hrec : k'.reclaimed = k.reclaimed) : CacheSound k' := by
  intro p hp
  rw [hmap, hrec]
  refine h p ?_
  rwa [isInPrimaryCache, hcache] at hp

theorem CacheSound.updateCacheAccess (h : CacheSound k) (hpage : isInMemmap k.memmap k.reclaimed page = true) :
    CacheSound (updateCacheAccess k page) := by
  unfold Mm.updateCacheAccess
  split
  · rename_i hin
    refine h.update _ fun _ => ?_
    simp only [isInPrimaryCache, Bool.and_eq_true, beq_iff_eq] at hin
    simp only [hin.2]
    exact hpage
  · split
    · split
      · rename_i i hfind
        have hi := List.find?_some hfind
        rw [beq_iff_eq] at hi
        refine (h.update (e := { k.secondaryCache i with accessCount := 1 }) (hashPage page).toNat fun _ => ?_).congr rfl rfl rfl
        simp only [hi]
        exact hpage
      · exact h
    · exact h

/-- With a sound cache the test only asks the memory map. -/
theorem CacheSound.isPageValid_eq (h : CacheSound k) (page : U64) : (isPageValid k page).1 =
    isInMemmap k.memmap k.reclaimed page := by
  unfold isPageValid
  split
  · rename_i hin
    rw [h page hin]
  · split
    · rename_i hmap
      rw [hmap]
    · rename_i hmap
      exact ((Bool.not_eq_true _).mp hmap).symm

theorem isPageValid_memmap (k : State) (page : U64) :
    (isPageValid k page).2.memmap = k.memmap ∧ (isPageValid k page).2.reclaimed = k.reclaimed := by
  obtain ⟨v, s, he⟩ := updateCacheAccess_eq k page
  unfold isPageValid
  split
  · rw [he]
    exact ⟨rfl, rfl⟩
  · split
    · rw [he]
      exact ⟨rfl, rfl⟩
    · exact ⟨rfl, rfl⟩

theorem CacheSound.isPageValid (h : CacheSound k) (page : U64) : CacheSound (isPageValid k page).2 := by
  unfold Mm.isPageValid
  split
  · rename_i hin
    exact h.updateCacheAccess (h page hin)
  · split
    · rename_i hmap
      exact h.updateCacheAccess hmap
    · exact h

theorem CacheSound.request (h : CacheSound k) :
    CacheSound (pmmRequestPage k).2 ∧ (pmmRequestPage k).2.memmap = k.memmap ∧ (pmmRequestPage k).2.reclaimed = k.reclaimed := by
  unfold pmmRequestPage
  split
  · exact ⟨h.congr rfl rfl rfl, rfl, rfl⟩
  · split
    · exact ⟨h, rfl, rfl⟩
    · have h₁ : CacheSound { k with stack.idx := k.stack.idx - 1 } := h.congr rfl rfl rfl
      dsimp only
      generalize State.load { k with stack.idx := k.stack.idx - 1 } _ = page
      have hsame : _ = k.memmap ∧ _ = k.reclaimed := isPageValid_memmap { k with stack.idx := k.stack.idx - 1 } page
      have hsound := h₁.isPageValid page
      generalize Mm.isPageValid { k with stack.idx := k.stack.idx - 1 } page = res at hsame hsound ⊢
      split
      · exact ⟨hsound, hsame⟩
      · split
        · exact ⟨hsound, hsame⟩
        · exact ⟨hsound.congr rfl rfl rfl, hsame⟩

theorem CacheSound.release (h : CacheSound k) (page : U64) : CacheSound (pmmReleasePage k page) ∧
    (pmmReleasePage k page).memmap = k.memmap ∧ (pmmReleasePage k page).reclaimed = k.reclaimed := by
  unfold pmmReleasePage
  split
  · exact ⟨h, rfl, rfl⟩
  · have hsame := isPageValid_memmap k page
    have hsound := h.isPageValid page
    simp only
    split
    · exact ⟨hsound, hsame⟩
    · rename_i hvalid
      split
      · exact ⟨hsound, hsame⟩
      · have hmap : isInMemmap (Mm.isPageValid k page).2.memmap (Mm.isPageValid k page).2.reclaimed page = true := by
          rw [hsame.1, hsame.2, ← h.isPageValid_eq]
          simpa using hvalid
        exact ⟨(hsound.update (e := ⟨page, true, 0⟩) (hashPage page).toNat fun _ => hmap).congr rfl rfl rfl, hsame⟩

/-! ## The memory map -/

/-- The scan of aligned entries says which pages are usable. -/
theorem isInMemmap_iff (h : ∀ e ∈ memmap, e.type = .usable → e.Aligned) (a : U64) :
    isInMemmap memmap false a = true ↔ ∃ e ∈ memmap, e.type = .usable ∧ e.Contains a := by
  rw [isInMemmap, List.any_eq_true]
  refine exists_congr fun e => and_congr_right fun he => ?_
  simp only [Bool.and_false, Bool.or_false, Bool.and_eq_true, beq_iff_eq, decide_eq_true_eq]
  refine and_congr_right fun hu => ?_
  have hw := (h e he hu).noWrap
  have hs : (e.base + e.length).toNat = e.base.toNat + e.length.toNat := by
    rw [BitVec.toNat_add]
    omega
  rw [BitVec.le_def, BitVec.lt_def, hs, MemmapEntry.Contains]

/-- Aligned addresses in usable entries are the usable pages. -/
theorem mem_usablePages_iff (h : ∀ e ∈ memmap, e.type = .usable → e.Aligned) (ha : a.toNat % 4096 = 0) :
    a ∈ usablePages memmap ↔ ∃ e ∈ memmap, e.type = .usable ∧ e.Contains a := by
  rw [mem_usablePages]
  refine exists_congr fun e => and_congr_right fun he => and_congr_right fun hu => ?_
  rw [(h e he hu).mem_pages, and_iff_right ha]

theorem foldl_pushPage_caches (ps : List U64) (k : State) : (ps.foldl pushPage k).memmap = k.memmap ∧
    (ps.foldl pushPage k).validPageCache = k.validPageCache := by
  induction ps generalizing k with
  | nil => exact ⟨rfl, rfl⟩
  | cons p ps ih => exact ih (pushPage k p)

/-- The memory map and the cache that `pmm_init` leaves. -/
theorem UsableMap.pmmInit_cache (h : UsableMap memmap) {k k' : State} (hinit : Mm.pmmInit (some memmap) k = some k') :
    k'.reclaimed = false ∧ (∀ e ∈ k'.memmap, e.type = .usable → e.Aligned) ∧
      (∀ p, p ∈ usablePages k'.memmap ↔ p ∈ usablePages memmap ∧ p ∉ arrayPages memmap) ∧
      k'.validPageCache = match arrayEntry memmap with
        | some e => seedCache (e.base + arraySize memmap) (freePages memmap) k.validPageCache
        | none => k.validPageCache := by
  simp only [Mm.pmmInit, foldl_pushEntry, Option.some.injEq] at hinit
  cases hf : arrayEntry memmap with
  | none =>
      rw [carveArray_none (freePages memmap) k hf] at hinit
      subst hinit
      obtain ⟨hmap, hcache⟩ := foldl_pushPage_caches (usablePages memmap) { k with memmap := memmap }
      simp only [hmap, hcache, arrayPages, hf, List.not_mem_nil, not_false_eq_true, and_true, implies_true, true_and]
      exact fun e he hu => h.aligned he hu
  | some e =>
      have hprop := List.find?_some hf
      simp only [decide_eq_true_eq] at hprop
      obtain ⟨pre, post, he, hc⟩ := carveArray_eq (freePages memmap) k hf
      rw [hc] at hinit
      subst hinit
      obtain ⟨hmap, hcache⟩ := foldl_pushPage_caches (usablePages (pre ++ e.carve (arraySize memmap) :: post))
        { k with
          stack.pages := k.higherHalf e.base
          validPageCache := seedCache (e.carve (arraySize memmap)).base (freePages memmap) k.validPageCache
          memmap := pre ++ e.carve (arraySize memmap) :: post }
      simp only [hmap, hcache]
      exact ⟨trivial, h.carved_aligned he hprop.1 hprop.2, h.mem_carved hf he hprop.1 hprop.2, rfl⟩

end ShadowOS.Mm
