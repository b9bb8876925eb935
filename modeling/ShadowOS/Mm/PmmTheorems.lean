import ShadowOS.Mm.Theorems
import ShadowOS.Mm.Lemmas.Cache

/-!
# Theorems about the page frame allocator
-/

namespace ShadowOS.Mm

variable {memmap : List MemmapEntry} {k k₀ : State} {all free held : List Frame} {f : Frame}

/-! ## The validity test -/

/-- The pages that `pmm_init` puts into the cache. -/
theorem isInPrimaryCache_seed {base free p : U64} (hcache : k.validPageCache = seedCache base free fun _ => ⟨0, false, 0⟩) :
    isInPrimaryCache k p = true ↔
      (hashPage p).toNat < free.toNat ∧ base + BitVec.ofNat 64 (hashPage p).toNat * pageSize = p := by
  simp only [isInPrimaryCache, hcache, seedCache, hashPage_lt, true_and]
  split
  · rename_i hlt
    simp [hlt]
  · rename_i hlt
    simp [hlt]

/-- After `pmm_init` and any calls the validity test agrees with the memory map, exactly when no page that is not usable was
put into the cache at the index of its hash. -/
theorem page_valid_agrees_iff {mem : Mem} {hhdmOffset : U64} (hmap : UsableMap memmap)
    (hinit : pmmInit (some memmap) (State.boot mem hhdmOffset) = some k) :
    (∀ ops, AllStates PmmOp.call ValidAgrees k ops) ↔ SeedsUsable memmap := by
  obtain ⟨hrec, halign, hpages, hcache⟩ := hmap.pmmInit_cache hinit
  constructor
  · intro h e he j hj hfree hhash
    have hs := hmap.arraySize_toNat
    have hbase : e.base.toNat % 4096 = 0 := by
      have hprop := List.find?_some he
      simp only [decide_eq_true_eq] at hprop
      exact hmap.base e (List.mem_of_find?_eq_some he) hprop.2
    simp only [he, State.boot] at hcache
    have hin := (isInPrimaryCache_seed hcache (p := e.base + arraySize memmap + BitVec.ofNat 64 j * pageSize)).mpr
      ⟨by omega, by rw [hhash]⟩
    have hal : (e.base + arraySize memmap + BitVec.ofNat 64 j * pageSize).toNat % 4096 = 0 := by
      have hp : pageSize.toNat = 4096 := rfl
      simp only [BitVec.toNat_add, BitVec.toNat_mul, BitVec.toNat_ofNat, hp]
      omega
    rw [← hpages, mem_usablePages_iff halign hal, ← (h []) _ hal]
    simp only [isPageValid, hin, ↓reduceIte]
  · intro h ops
    have hsound : CacheSound k := by
      intro p hp
      cases he : arrayEntry memmap with
      | none =>
          simp [isInPrimaryCache, hcache, he, State.boot] at hp
      | some e =>
          simp only [he, State.boot] at hcache
          obtain ⟨hfree, hpage⟩ := (isInPrimaryCache_seed hcache).mp hp
          have husable := h e he (hashPage p).toNat (hashPage_lt p) hfree (by rw [hpage])
          rw [hpage, ← hpages] at husable
          obtain ⟨x, hx, hxu, hxp⟩ := mem_usablePages.mp husable
          exact isInMemmap_of_mem hx hxu (halign x hx hxu) hxp _
    have hinv : AllStates PmmOp.call (fun k' => CacheSound k' ∧ k'.memmap = k.memmap ∧ k'.reclaimed = k.reclaimed) k ops := by
      refine allStates_of_invariant (fun {k₁ op k₂} h₁ hcall => ?_) ⟨hsound, rfl, rfl⟩
      cases op with
      | request =>
          cases hcall
          obtain ⟨hs, hm, hr⟩ := h₁.1.request
          exact ⟨hs, hm.trans h₁.2.1, hr.trans h₁.2.2⟩
      | release page =>
          cases hcall
          obtain ⟨hs, hm, hr⟩ := h₁.1.release page
          exact ⟨hs, hm.trans h₁.2.1, hr.trans h₁.2.2⟩
    refine hinv.mono fun k' h' a ha => ?_
    rw [h'.1.isPageValid_eq, h'.2.1, h'.2.2, hrec, isInMemmap_iff halign]

/-- A memory map whose first entry is used up by the array and one page. -/
def shortMemmap : List MemmapEntry := [⟨0x1c000, 0x2000, .usable⟩, ⟨0x100000, 0x8000, .usable⟩]

theorem shortMemmap_usable : UsableMap shortMemmap := by
  refine ⟨by decide, by decide, by decide, ?_⟩
  simp [shortMemmap, MemmapEntry.Contains]
  omega

/-- The page after the first entry is put into the cache at the index of its hash. -/
theorem page_valid_disagrees :
    UsableMap shortMemmap ∧ ((pmmInit (some shortMemmap) (State.boot (fun _ => 0) sampleOffset)).any fun k =>
      (isPageValid k 0x1e000).1 && k.memmap == [⟨0x1d000, 0x1000, .usable⟩, ⟨0x100000, 0x8000, .usable⟩]) = true ∧
    ¬ ∃ e ∈ [(⟨0x1d000, 0x1000, .usable⟩ : MemmapEntry), ⟨0x100000, 0x8000, .usable⟩], e.type = .usable ∧
      e.Contains 0x1e000 := by
  refine ⟨shortMemmap_usable, by decide, ?_⟩
  simp [MemmapEntry.Contains]

theorem page_valid_agrees_iff_sample : ∃ k, pmmInit (some sampleMemmap) (State.boot (fun _ => 0) sampleOffset) = some k ∧
    ∀ ops, AllStates PmmOp.call ValidAgrees k ops := by
  obtain ⟨k, _, hinit, _⟩ := sampleMemmap_boot.pmmInit (k := State.boot (fun _ => 0) sampleOffset) rfl
  refine ⟨k, hinit, (page_valid_agrees_iff sampleMemmap_boot.usable hinit).mpr ?_⟩
  have hentry : arrayEntry sampleMemmap = some ⟨0x1000, 0x9000, .usable⟩ := by decide
  have hseeds : ((List.range cacheSize).all fun j =>
      (hashPage (0x1000 + arraySize sampleMemmap + BitVec.ofNat 64 j * pageSize)).toNat != j) = true := by
    decide
  intro e he j hj _ hhash
  rw [hentry] at he
  cases he
  have hne := List.all_eq_true.mp hseeds j (List.mem_range.mpr hj)
  rw [bne_iff_ne] at hne
  exact absurd hhash hne

/-! ## Indices of the caches -/

/-- The indices of a call are in range exactly when the page it tests is in the primary cache, in no entry of the memory
map, or has a hash below the size of the secondary cache. -/
theorem cache_indices_in_range_iff (k : State) (op : PmmOp) : (∀ i ∈ op.indices k, i.InRange) ↔ op.Fits k := by
  cases op with
  | request =>
      simp only [PmmOp.indices, PmmOp.Fits]
      split
      · rename_i h0
        simp [h0]
      · rename_i h0
        rw [pageValidIndices_inRange, or_iff_right h0]
  | release page =>
      simp only [PmmOp.indices, PmmOp.Fits]
      split
      · rename_i h0
        simp [h0]
      · rename_i h0
        rw [List.forall_mem_append, pageValidIndices_inRange, or_iff_right h0, and_iff_left_iff_imp]
        intro _ i hi
        split at hi
        · rw [List.mem_singleton.mp hi]
          exact hashPage_lt page
        · cases hi

/-- The third request after the start looks into the secondary cache past its end. -/
theorem cache_index_out_of_range :
    ((pmmInit (some sampleMemmap) (State.boot (fun _ => 0) sampleOffset)).bind fun k =>
      run PmmOp.exec (k, []) [.request, .request]).any (fun s =>
        CacheIndex.secondary 69 ∈ PmmOp.indices s.1 .request) = true ∧ ¬ (CacheIndex.secondary 69).InRange := by
  decide

/-! ## Requests that fail -/

theorem Accounts.allStates (h : Accounts memmap k all free held) (ops : List PmmOp) :
    AllStates PmmOp.exec (fun s => ∃ all free held, Accounts memmap s.1 all free held ∧ s.2 = held.map Subtype.val)
      (k, held.map Subtype.val) ops :=
  allStates_of_invariant (fun h hs => Accounts.exec h hs) ⟨all, free, held, h, rfl⟩

theorem FreeStack.nullMeansEmpty (h : FreeStack k all free) : NullMeansEmpty k := by
  rw [NullMeansEmpty, h.freePages_eq]
  rcases List.eq_nil_or_concat free with rfl | ⟨free, f, rfl⟩
  · rw [h.request_empty]
    simp
  · rw [List.concat_eq_append] at h ⊢
    obtain ⟨v, s, he⟩ := h.request_eq
    rw [he]
    exact iff_of_false (h.nonzero f (h.sub (by simp))) (by simp)

/-- A page that cannot be told from a failure comes up after enough requests. -/
theorem PageStack.good_of_nullMeansEmpty (h : PageStack k all free) (held : List U64)
    (hnull : ∀ ops, AllStates PmmOp.exec (fun s => NullMeansEmpty s.1) (k, held) ops) :
    ∀ f ∈ free, f.1 ≠ 0 ∧ k.higherHalf f.1 ≠ 0 := by
  -- the top page is good by the property, and the others by what holds after it was taken
  induction free using List.reverseRecOn generalizing k held with
  | nil => simp
  | append_singleton free f ih =>
      obtain ⟨v, s, he⟩ := h.request_top
      dsimp only at he
      have hempty := hnull []
      have hne : k.freePages ≠ [] := by
        rw [h.freePages_eq]
        simp
      have hres : (pmmRequestPage k).1 ≠ 0 := fun hc => hne (hempty.mp hc)
      have hhalf : k.higherHalf f.1 ≠ 0 := by
        intro hc
        rw [he, if_pos hc] at hres
        exact hres rfl
      rw [if_neg hhalf] at he
      rw [he] at hres
      have hrest := ih (h.pop (v := v) (s := s) (Mem.EqOutside.fill k.mem f 0 le_rfl)) (f.1 :: held) fun ops => by
        refine (hnull (.request :: ops)).2 _ ?_
        simp only [PmmOp.exec, he]
        rw [if_neg hres]
      intro g hg
      rcases List.mem_append.mp hg with hg | hg
      · exact hrest g hg
      · rw [List.mem_singleton.mp hg]
        exact ⟨hres, hhalf⟩

/-- In every state after `pmm_init` a request returns null exactly when the stack is empty, if and only if no page of the
usable entries outside the array has the address 0 or a null pointer in the direct map. -/
theorem null_means_empty_iff (hmap : UsableMap memmap) (hroom : ArrayRoom memmap) (hidx : k₀.stack.idx = 0)
    (hinit : pmmInit (some memmap) k₀ = some k) :
    (∀ ops, AllStates PmmOp.exec (fun s => NullMeansEmpty s.1) (k, []) ops) ↔
      ∀ p ∈ usablePages memmap, p ∉ arrayPages memmap → p ≠ 0 ∧ k₀.higherHalf p ≠ 0 := by
  obtain ⟨k', all, hk', hstack, hpages, harray, hsize, hglob⟩ := hmap.pmmInit hroom hidx
  cases hinit.symm.trans hk'
  have hhdm : k.hhdmOffset = k₀.hhdmOffset := hglob.hhdm
  constructor
  · intro h p hp harr
    obtain ⟨f, hf, rfl⟩ := (hpages p).mpr ⟨hp, harr⟩
    have hgood := hstack.good_of_nullMeansEmpty [] h f hf
    rwa [State.higherHalf, hhdm] at hgood
  · intro h ops
    have hgood : ∀ f ∈ all, f.1 ≠ 0 ∧ k.higherHalf f.1 ≠ 0 := by
      intro f hf
      obtain ⟨hp, harr⟩ := (hpages f.1).mp ⟨f, hf, rfl⟩
      rw [State.higherHalf, hhdm]
      exact h f.1 hp harr
    have hfree := hstack.freeStack (fun f hf => (hgood f hf).1) fun f hf => (hgood f hf).2
    have hstart : Accounts memmap k all all [] := ⟨hfree, by simp, hpages, harray, hsize⟩
    refine (hstart.allStates ops).mono fun s h => ?_
    obtain ⟨_, _, _, h, _⟩ := h
    exact h.stack.nullMeansEmpty

theorem null_means_empty_iff_sample : ∃ k, pmmInit (some sampleMemmap) (State.boot (fun _ => 0) sampleOffset) = some k ∧
    ∀ ops, AllStates PmmOp.exec (fun s => NullMeansEmpty s.1) (k, []) ops := by
  obtain ⟨k, _, hinit, _⟩ := sampleMemmap_boot.pmmInit (k := State.boot (fun _ => 0) sampleOffset) rfl
  refine ⟨k, hinit, (null_means_empty_iff sampleMemmap_boot.usable sampleMemmap_boot.room rfl hinit).mpr fun p hp _ => ?_⟩
  have hgood : (usablePages sampleMemmap).all (fun p => p ≠ 0 ∧ p + sampleOffset ≠ 0) = true := by decide
  exact of_decide_eq_true (List.all_eq_true.mp hgood p hp)

/-- A memory map with a usable entry at the address 0, after one that takes the array. -/
def zeroMemmap : List MemmapEntry := [⟨0x100000, 0x2000, .usable⟩, ⟨0, 0x1000, .usable⟩]

/-- The page at the address 0 comes first, and cannot be told from a failure. -/
theorem null_with_free_pages : UsableMap zeroMemmap ∧
    ((pmmInit (some zeroMemmap) (State.boot (fun _ => 0) sampleOffset)).any fun k =>
      (pmmRequestPage k).1 == 0 && k.freePages == [0x101000, 0]) = true := by
  refine ⟨⟨by decide, by decide, by decide, ?_⟩, by decide⟩
  simp [zeroMemmap, MemmapEntry.Contains]
  omega

/-! ## Held pages -/

theorem Accounts.isArray_mem (h : Accounts memmap k all free held) (hmap : UsableMap memmap) :
    ∀ g, k.IsArray all.length g → g.1 ∈ arrayPages memmap := by
  rintro g ⟨i, hi, rfl⟩
  obtain ⟨e, he, hptr⟩ := h.array
  have hprop := List.find?_some he
  simp only [decide_eq_true_eq] at hprop
  have hsub : all.map Subtype.val ⊆ usablePages memmap := by
    intro p hp
    obtain ⟨f, hf, rfl⟩ := List.mem_map.mp hp
    exact ((h.pages f.1).mp ⟨f, hf, rfl⟩).1
  have hlen := ((h.stack.all_nodup.map Subtype.val_injective).subperm hsub).length_le
  rw [List.length_map] at hlen
  rw [State.slotAddr, hptr, State.physical_higherHalf]
  exact hmap.slot_mem_arrayPages he (List.mem_of_find?_eq_some he) hprop.1 hprop.2 (by omega)

theorem Accounts.keepsHeld {s : State × List U64} (h : Accounts memmap s.1 all free held) (hheld : s.2 = held.map Subtype.val)
    (hmap : UsableMap memmap) (op : PmmOp) : op.KeepsHeld memmap s := by
  obtain ⟨k, ps⟩ := s
  simp only at h hheld
  subst hheld
  have hnd := h.split.nodup_iff.mpr h.stack.all_nodup
  have hmem : ∀ {x : U64}, (Frame.of x).1 ∈ held.map Subtype.val → Frame.of x ∈ held := by
    intro x hx
    obtain ⟨g, hg, he⟩ := List.mem_map.mp hx
    rwa [← Subtype.ext he]
  intro s' hs
  cases op with
  | request =>
      rcases List.eq_nil_or_concat free with rfl | ⟨free, f, rfl⟩
      · simp only [PmmOp.exec, h.stack.request_empty, ↓reduceIte, Option.some.injEq] at hs ⊢
        subst hs
        exact ⟨⟨fun _ => rfl, fun hc => absurd rfl hc⟩, fun _ _ => rfl⟩
      · rw [List.concat_eq_append] at h hnd
        obtain ⟨v, t, he⟩ := h.stack.request_eq
        have hf0 := h.stack.nonzero f (h.stack.sub (by simp))
        simp only [PmmOp.exec, he, hf0, ↓reduceIte, Option.some.injEq] at hs ⊢
        subst hs
        have hout : ∀ x, Frame.of x ≠ f → k.mem.fill f.1 0 4096 x = k.mem x := by
          intro x hx
          rw [Mem.fill_frame_apply, if_neg hx]
        refine ⟨⟨fun hc => absurd hc id, fun _ => ⟨fun x hx => hout x fun hc => hx (congrArg Subtype.val hc), fun x hx => ?_⟩⟩,
          fun x hx => hout x ?_⟩
        · change k.mem.fill f.1 0 4096 x = 0
          rw [Mem.fill_frame_apply, if_pos (Subtype.ext hx)]
        · rintro rfl
          rw [List.nodup_append'] at hnd
          exact hnd.2.2 (by simp) (hmem hx)
  | release page =>
      simp only [PmmOp.exec] at hs ⊢
      split at hs
      · rename_i hp
        cases hs
        obtain ⟨f, hf, rfl⟩ := List.mem_map.mp hp
        rw [List.nodup_append'] at hnd
        have hall : f ∈ all := h.split.mem_iff.mp (List.mem_append_right _ hf)
        have hn : f ∉ free := fun hc => hnd.2.2 hc hf
        obtain ⟨v, t, c, he⟩ := h.stack.release_eq hall hn
        have hwrite := (h.stack.caches v t c).pageStack.push_mem hall hn
        rw [← he] at hwrite
        refine ⟨fun x hx => hwrite x fun hc => hx (h.isArray_mem hmap _ hc), fun x hx => hwrite x fun hc => ?_⟩
        exact h.stack.not_isArray (h.split.mem_iff.mp (List.mem_append_right _ (hmem hx))) hc
      · cases hs

/-- A request changes the page that it returns and a release the pages of the array, so that no call touches a held page. -/
theorem pmm_keeps_held_pages {ops : List PmmOp} (hboot : BootMap memmap k₀.hhdmOffset) (hidx : k₀.stack.idx = 0)
    (hinit : pmmInit (some memmap) k₀ = some k) : AllSteps PmmOp.exec (PmmOp.KeepsHeld memmap) (k, []) ops := by
  obtain ⟨k', all, hk', hb, _⟩ := hboot.pmmInit hidx
  cases hinit.symm.trans hk'
  have hstart : Accounts memmap k all all [] := ⟨hb.stack, by simp, hb.pages, hb.array, hb.size⟩
  refine (hstart.allStates ops).allSteps fun {s op} h => ?_
  obtain ⟨_, _, _, h, hheld⟩ := h
  exact h.keepsHeld hheld hboot.usable op

theorem pmm_keeps_held_pages_sample : ∃ k, pmmInit (some sampleMemmap) (State.boot (fun _ => 0) sampleOffset) = some k ∧
    AllSteps PmmOp.exec (PmmOp.KeepsHeld sampleMemmap) (k, []) [.request, .request, .release 0x107000] := by
  obtain ⟨k, _, hinit, _⟩ := sampleMemmap_boot.pmmInit (k := State.boot (fun _ => 0) sampleOffset) rfl
  exact ⟨k, hinit, pmm_keeps_held_pages sampleMemmap_boot rfl hinit⟩

end ShadowOS.Mm
