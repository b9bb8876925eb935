import ShadowOS.Mm.Lemmas.PmmInit
import ShadowOS.Mm.Lemmas.Regions

/-!
# Release after allocation
-/

namespace ShadowOS.Mm

variable {k k₁ k₂ : State} {all free free₁ free' freed : List Frame} {lab lab' : Labels} {c b x y r s : Frame}
  {fs pre post : List Frame} {ctx ptr size flags : U64}

/-! ## Pages of a region -/

theorem pageNo_pageAt (start : U64) (i : Nat) :
    (pageNo (pageAt start i)).toNat = (start.toNat / 4096 + i) % 2 ^ 36 := by
  have hp : pageSize.toNat = 4096 := rfl
  have hs := start.isLt
  rw [pageNo_toNat, pageAt, BitVec.toNat_add, BitVec.toNat_mul, BitVec.toNat_ofNat, hp]
  omega

theorem pageNo_pageAt_inj {start : U64} {n i j : Nat} (hn : n ≤ 2 ^ 36) (hi : i < n) (hj : j < n)
    (h : pageNo (pageAt start i) = pageNo (pageAt start j)) : i = j := by
  have h' := congrArg BitVec.toNat h
  rw [pageNo_pageAt, pageNo_pageAt] at h'
  omega

theorem mem_pagesFrom {start : U64} {n i : Nat} (hi : i < n) : pageNo (pageAt start i) ∈ pagesFrom start 0 n :=
  ⟨i, Nat.zero_le _, by omega, rfl⟩

namespace VmaRecords

/-! ## The record that is found -/

theorem vmaFind_of_split (h : VmaRecords k ctx all free lab r c (pre ++ y :: post)) (hy : k.mem.word y 0 = ptr)
    (hpre : ∀ g ∈ pre, k.mem.word g 0 ≠ ptr) :
    vmaFind k ptr vmaMaxRegions (VmaContext.root k ctx) = some (k.higherHalf y.1) := by
  have hfind : (k.pointers (pre ++ y :: post)).find? (fun region => VmaRegion.start k region = ptr) =
      some (k.higherHalf y.1) := by
    refine List.find?_eq_some_iff_append.mpr ⟨?_, k.pointers pre, k.pointers post, ?_, fun q hq => ?_⟩
    · rw [VmaRegion.start_eq, hy, decide_eq_true rfl]
    · rw [pointers_append, pointers_cons]
    · obtain ⟨g, hg, rfl⟩ := mem_pointers.mp hq
      rw [VmaRegion.start_eq]
      simpa using hpre g hg
  rw [h.vmaFind_eq, hfind, Option.getD_some]

/-- The frames of the pages of a region that was allocated. -/
theorem Allocated.frames (ha : Allocated k k₁ all free free₁ free' lab lab' r x b size flags ptr)
    (hfl : flags &&& addrMask = 0) {i : Nat} (hi : i < size.toNat) :
    ∃ d : Frame, translation k₁.mem r (pageAt ptr i) = d.1 ∧ d ∈ free₁ ∧ Held all free' lab' d :=
  (ha.loaded hfl).page (mem_pagesFrom hi)

/-! ## The frames that come back -/

/-- The loop over the `size` pages from `ptr` on gives back their frames, when the kernel's root sees them all. -/
theorem freed_perm (ho : Owned k₂ all (free' ++ freed) lab) {m m' : Mem}
    (hu : Unloaded all free' freed lab r s (pagesFrom ptr 0 size.toNat) m m') (hsize : size.toNat ≤ 2 ^ 36)
    (hpage : ∀ {v}, pageNo v ∈ pagesFrom ptr 0 size.toNat → ∃ d : Frame, translation m s v = d.1 ∧ d.1 ≠ 0)
    (hinj : ∀ {v w}, pageNo v ∈ pagesFrom ptr 0 size.toNat → pageNo w ∈ pagesFrom ptr 0 size.toNat →
      translation m s v = translation m s w → pageNo v = pageNo w) :
    (freed.map Subtype.val).Perm ((List.range size.toNat).map fun i => translation m s (pageAt ptr i)) := by
  have hnd : (freed.map Subtype.val).Nodup :=
    (List.nodup_append'.mp ho.stack.nodup).2.1.map Subtype.val_injective
  have hnd' : ((List.range size.toNat).map fun i => translation m s (pageAt ptr i)).Nodup := by
    refine List.nodup_range.map_on (fun i hi j hj he => ?_)
    rw [List.mem_range] at hi hj
    exact pageNo_pageAt_inj hsize hi hj (hinj (mem_pagesFrom hi) (mem_pagesFrom hj) he)
  refine (List.perm_ext_iff_of_nodup hnd hnd').mpr (fun p => ?_)
  rw [List.mem_map, List.mem_map]
  constructor
  · rintro ⟨d, hd, rfl⟩
    obtain ⟨_, v, hv, he⟩ := (hu.freed_iff d).mp hd
    obtain ⟨j, _, hj, hvj⟩ := hv
    refine ⟨j, List.mem_range.mpr (by omega), ?_⟩
    rw [← he, translation_congr hvj]
  · rintro ⟨i, hi, rfl⟩
    obtain ⟨d, hd, hd0⟩ := hpage (v := pageAt ptr i) (mem_pagesFrom (List.mem_range.mp hi))
    exact ⟨d, (hu.freed_iff d).mpr ⟨hd0, _, mem_pagesFrom (List.mem_range.mp hi), hd⟩, hd.symm⟩

/-- `vma_free` where the kernel's root `s` gives the pages of the region frames of their own, none of them a record. -/
theorem releaseBacked (h : VmaRecords k ctx all free lab r c (pre ++ y :: post)) (hs : lab s = some (s, []))
    (hk : k.kernelPagemap = k.higherHalf s.1) (hprev : k.mem.word y 4 = k.link pre.getLast?)
    (hfind : vmaFind k ptr vmaMaxRegions (VmaContext.root k ctx) = some (k.higherHalf y.1))
    (hback : Backing all free lab (pagesFrom (k.mem.word y 0) 0 (k.mem.word y 1).toNat) (translation k.mem s))
    (hapart : ∀ {v}, pageNo v ∈ pagesFrom (k.mem.word y 0) 0 (k.mem.word y 1).toNat → ∀ f ∈ c :: (pre ++ y :: post),
      translation k.mem s v ≠ f.1)
    (hsee : ∀ {j j'}, j < j' → j' < (k.mem.word y 1).toNat →
      pageNo (pageAt (k.mem.word y 0) j) = pageNo (pageAt (k.mem.word y 0) j') →
      Sees k.mem s r (ix (pageAt (k.mem.word y 0) j) 39)) :
    ∃ k₁ k₂ freed, vmaFree k ctx ptr = some k₂ ∧ VmaRecords k₂ ctx all (free ++ freed ++ [y]) lab r c (pre ++ post) ∧
      SameGlobals k k₂ ∧ Owned k₁ all (free ++ freed) lab ∧
      Unloaded all free freed lab r s (pagesFrom (k.mem.word y 0) 0 (k.mem.word y 1).toNat) k.mem k₁.mem ∧
      SameLook lab k₁.mem k₂.mem := by
  have hheld : ∀ f ∈ c :: (pre ++ y :: post), Held all free lab f := List.forall_mem_cons.mpr ⟨h.ctxHeld, h.held⟩
  have hloop := h.owned.vmaUnmapPages (2 ^ 64) (i := 0) h.pm hs h.ctxHeld (h.held y (by simp)) h.pagemap hk rfl rfl
    (Nat.zero_le _) ((k.mem.word y 1).isLt.le.trans (Nat.le_add_left _ _))
  rw [Nat.sub_zero, h.ctx_eq] at hloop
  obtain ⟨k₁, freed, he, ho, hg, hu⟩ := hloop hback
    (fun v hv => ⟨hapart hv c (by simp), hapart hv y (by simp)⟩) (fun _ => hsee)
  have hkept : ∀ f ∈ c :: (pre ++ y :: post), f ∉ freed := by
    intro f hf hff
    obtain ⟨_, v, hv, hvf⟩ := (hu.freed_iff f).mp hff
    exact hapart hv f hf hvf
  obtain ⟨k₂, hres, hrec, hg₂, hlook, _⟩ := h.release hprev hfind he ho hg (fun f hf => (hheld f hf).append (hkept f hf))
    (fun f hf => hu.word (hheld f hf) (hkept f hf))
  exact ⟨k₁, k₂, freed, hres, hrec, hg₂, ho, hu, hlook⟩

/-! ## Sufficiency -/

/-- The record of the call is found, and the kernel's root sees its pages. -/
theorem undone (h : VmaRecords k ctx all free lab r c (pre ++ x :: post))
    (h₁ : VmaRecords k₁ ctx all free' lab' r c (pre ++ x :: b :: post))
    (ha : Allocated k k₁ all free free₁ free' lab lab' r x b size flags ptr) (hs : lab s = some (s, []))
    (hk : k.kernelPagemap = k.higherHalf s.1) (hplain : PlainAlloc k size flags)
    (hother : ∀ g ∈ pre ++ [x], k.mem.word g 0 ≠ ptr)
    (hsee : ∀ {v}, pageNo v ∈ pagesFrom ptr 0 size.toNat → Sees k.mem s r (ix v 39)) :
    ∃ k₂, vmaFree k₁ ctx ptr = some k₂ ∧ Undone k k₁ k₂ ctx ptr size.toNat := by
  have hl := ha.loaded hplain.clean
  have hsplit : pre ++ x :: b :: post = (pre ++ [x]) ++ b :: post := by simp
  have hapart := fun {v} hv => ha.apart h hplain.clean hs (.empty _ _ _ _) (v := v)
    (fun hv => absurd hv (Set.notMem_empty _)) (.inl ⟨hv, hsee hv⟩)
  rw [hsplit] at h₁ hapart
  have hstart : ∀ g ∈ pre ++ [x], k₁.mem.word g 0 ≠ ptr := by
    intro g hg
    rw [ha.word (h.held g (init_subset hg)) 0 (.inr (by decide))]
    exact hother g hg
  have hk₁ : k₁.kernelPagemap = k₁.higherHalf s.1 := by rw [ha.globals.kernel, hk, ha.globals.higherHalf]
  have hback : Backing all free' lab' (pagesFrom (k₁.mem.word b 0) 0 (k₁.mem.word b 1).toNat) (translation k₁.mem s) := by
    rw [ha.start, ha.size_eq]
    exact hl.backing hs ha.sub_free ha.held (.empty _ _ _ _) (fun hv => .inl ⟨hv, hsee hv⟩)
  obtain ⟨k₁', k₂, freed, hres, h₂, hg₂, ho, hu, hlook⟩ := h₁.releaseBacked (ha.keep hs) hk₁
    (by rw [ha.prev, List.getLast?_concat, link_some, ha.globals.higherHalf])
    (h₁.vmaFind_of_split ha.start hstart) hback
    (fun {v} hv => by
      rw [ha.start, ha.size_eq] at hv
      exact hapart hv)
    (fun {j j'} hjj hj' _ => by
      rw [ha.start]
      rw [ha.size_eq] at hj'
      exact (hl.sees hs _).mpr (hsee (mem_pagesFrom (by omega))))
  rw [ha.start, ha.size_eq] at hu
  have hshared : ∀ {v}, pageNo v ∈ pagesFrom ptr 0 size.toNat → translation k₁.mem s v = translation k₁.mem r v :=
    fun hv => hl.shared hs hv (hsee hv)
  have hpage : ∀ {v}, pageNo v ∈ pagesFrom ptr 0 size.toNat → ∃ d : Frame, translation k₁.mem s v = d.1 ∧ d.1 ≠ 0 := by
    intro v hv
    obtain ⟨d, hd, _, hdh⟩ := hl.page hv
    exact ⟨d, (hshared hv).trans hd, h₁.owned.stack.nonzero d hdh.mem⟩
  have hperm := freed_perm ho hu hplain.distinct hpage
    (fun hv hw he => hl.inj hv hw ((hshared hv).symm.trans (he.trans (hshared hw))))
  refine ⟨k₂, hres, ⟨k.pointers (pre ++ [x]), k₁.higherHalf b.1, k.pointers post, ?_, ?_, ?_, ?_⟩, fun i hi => ?_⟩
  · have hlist := h.list
    rwa [← pointers_append, List.append_assoc, List.singleton_append]
  · have hlist := h₁.list
    rwa [pointers_append, pointers_cons, ha.globals.pointers, ha.globals.pointers] at hlist
  · have hlist := h₂.list
    rwa [pointers_append, hg₂.pointers, hg₂.pointers, ha.globals.pointers, ha.globals.pointers] at hlist
  · have hmapped : ((List.range size.toNat).map fun i => virtToPhys k₁ (VmaContext.pagemap k₁ ctx) (pageAt ptr i)) =
        (List.range size.toNat).map fun i => translation k₁.mem s (pageAt ptr i) := by
      refine List.map_congr_left (fun i hi => ?_)
      rw [h₁.virtToPhys_pagemap, hshared (mem_pagesFrom (List.mem_range.mp hi))]
    have hfree : k₂.freePages = k₁.freePages ++ freed.map Subtype.val ++ [k₁.physical (k₁.higherHalf b.1)] := by
      rw [h₂.owned.stack.freePages_eq, h₁.owned.stack.freePages_eq, List.map_append, List.map_append, List.map_singleton,
        State.physical_higherHalf]
    rw [hfree]
    refine ((hperm.append_left _).append_right _).trans ?_
    rw [← hmapped]
    exact .refl _
  · obtain ⟨d, hd, hd0⟩ := hpage (v := pageAt ptr i) (mem_pagesFrom hi)
    have hclear := hu.cleared h₁.pm (mem_pagesFrom hi) (by rwa [hd]) (.inl rfl)
    exact (h₂.virtToPhys_pagemap _).trans ((hlook r h₁.pm _).trans hclear)

/-! ## Necessity -/

/-- A kernel that is in order around the context: its root `s` gives the pages of the regions and the `n` pages from `ptr` on
frames of their own that are no records, and the regions are linked both ways. -/
structure KernelBacked (k : State) (all free : List Frame) (lab : Labels) (s c : Frame) (fs : List Frame) (ptr : U64)
    (n : Nat) : Prop where
  backing : Backing all free lab (pagesOf k.mem fs ∪ pagesFrom ptr 0 n) (translation k.mem s)
  apart : ∀ {v}, pageNo v ∈ pagesOf k.mem fs ∪ pagesFrom ptr 0 n → ∀ f ∈ c :: fs, translation k.mem s v ≠ f.1
  sizes : ∀ f ∈ fs, (k.mem.word f 1).toNat ≤ 2 ^ 36
  back : Back (VmaRegion.prev k) 0 (k.pointers fs)

/-- A first occurrence in a list that is extended by `b` comes before `b` or is `b` itself. -/
theorem prefix_of_notMem {α : Type} {as bs cs ds : List α} {a b : α} (h : as ++ a :: bs = (cs ++ [b]) ++ ds) (hb : b ∉ as) :
    (a ∈ cs ∨ a = b ∧ as = cs) ∧ ∃ es, cs ++ [b] = as ++ a :: es := by
  rw [List.append_assoc, List.singleton_append] at h
  rcases List.append_eq_append_iff.mp h with ⟨es, hes, hrest⟩ | ⟨es, hes, hrest⟩
  · cases es with
    | nil =>
        rw [List.append_nil] at hes
        rw [List.nil_append, List.cons.injEq] at hrest
        exact ⟨.inr ⟨hrest.1, hes.symm⟩, [], by rw [hes, hrest.1]⟩
    | cons e es =>
        rw [List.cons_append, List.cons.injEq] at hrest
        rw [hes, hrest.1]
        exact ⟨.inl (by simp), es ++ [b], by simp⟩
  · cases es with
    | nil =>
        rw [List.append_nil] at hes
        rw [List.nil_append, List.cons.injEq] at hrest
        exact ⟨.inr ⟨hrest.1.symm, hes⟩, [], by rw [hes, hrest.1]⟩
    | cons e es =>
        rw [List.cons_append, List.cons.injEq] at hrest
        exact absurd (by rw [hes, hrest.1]; simp) hb

/-- The frames that came back were free before the allocation, except for none. -/
theorem not_held_of_undone (h : VmaRecords k ctx all free lab r c (pre ++ x :: post))
    (h₁ : VmaRecords k₁ ctx all free' lab' r c (pre ++ x :: b :: post))
    (ha : Allocated k k₁ all free free₁ free' lab lab' r x b size flags ptr) (hfl : flags &&& addrMask = 0)
    (hu : Undone k k₁ k₂ ctx ptr size.toNat) {f : Frame} (hf : f.1 ∈ k₂.freePages) : ¬ Held all free lab f := by
  obtain ⟨⟨pre', region, post', hlist, hlist₁, _, hperm⟩, _⟩ := hu
  have hregion : region = k₁.higherHalf b.1 := by
    have he := hlist.unique h.list
    have he₁ := hlist₁.unique h₁.list
    have hp : (region :: (pre' ++ post')).Perm (k₁.higherHalf b.1 :: (pre' ++ post')) := by
      have hmid : (pre ++ x :: b :: post).Perm (b :: (pre ++ x :: post)) := by
        have hsplit : pre ++ x :: b :: post = (pre ++ [x]) ++ b :: post := by simp
        have hsplit' : pre ++ x :: post = (pre ++ [x]) ++ post := by simp
        rw [hsplit, hsplit']
        exact List.perm_middle
      refine List.perm_middle.symm.trans ?_
      rw [he₁, he, ← ha.globals.pointers]
      exact hmid.map _
    exact (Multiset.cons_inj_left (pre' ++ post' : Multiset U64)).mp (Multiset.coe_eq_coe.mpr hp)
  intro hh
  have hmem := hperm.mem_iff.mp hf
  rw [hregion, State.physical_higherHalf, List.mem_append, List.mem_append, List.mem_singleton,
    h₁.owned.stack.freePages_eq] at hmem
  rcases hmem with (hm | hm) | hm
  · obtain ⟨g, hg, hgf⟩ := List.mem_map.mp hm
    rw [Subtype.ext hgf] at hg
    exact (ha.held hh).notFree hg
  · obtain ⟨i, hi, hif⟩ := List.mem_map.mp hm
    obtain ⟨d, hd, hdf, _⟩ := ha.frames hfl (List.mem_range.mp hi)
    have hpage : virtToPhys k₁ (VmaContext.pagemap k₁ ctx) (pageAt ptr i) = f.1 := hif
    rw [h₁.virtToPhys_pagemap, hd] at hpage
    rw [Subtype.ext hpage] at hdf
    exact hh.notFree (ha.sub_free hdf)
  · rw [Subtype.ext hm] at hh
    exact hh.notFree ha.mem_free

/-- The call is undone only when its record is the one that is found and the kernel's root sees its pages. -/
theorem finds_of_undone (h : VmaRecords k ctx all free lab r c (pre ++ x :: post))
    (h₁ : VmaRecords k₁ ctx all free' lab' r c (pre ++ x :: b :: post))
    (ha : Allocated k k₁ all free free₁ free' lab lab' r x b size flags ptr) (hs : lab s = some (s, []))
    (hk : k.kernelPagemap = k.higherHalf s.1) (hplain : PlainAlloc k size flags)
    (hkern : KernelBacked k all free lab s c (pre ++ x :: post) ptr size.toNat)
    (hfree : vmaFree k₁ ctx ptr = some k₂) (hu : Undone k k₁ k₂ ctx ptr size.toNat) :
    (∀ g ∈ pre ++ [x], k.mem.word g 0 ≠ ptr) ∧
      ∀ {v}, pageNo v ∈ pagesFrom ptr 0 size.toNat → Sees k.mem s r (ix v 39) := by
  have hl := ha.loaded hplain.clean
  have hinit : pre ++ [x] ⊆ pre ++ x :: post := init_subset
  have hsplit : pre ++ x :: b :: post = ((pre ++ [x]) ++ [b]) ++ post := by simp
  -- the record that is found
  obtain ⟨pre', y, post', hsp, hy, hfind, hpre'⟩ := h₁.find (f := b) (by simp) ha.start
  have hb' : b ∉ pre' := fun hb => hpre' b hb ha.start
  obtain ⟨hcase, es, hes⟩ := prefix_of_notMem (hsp.symm.trans hsplit) hb'
  have hword : ∀ g ∈ pre ++ x :: post, ∀ j, j ≠ 3 → k₁.mem.word g j = k.mem.word g j :=
    fun g hg j hj => ha.word (h.held g hg) j (.inr hj)
  have hprev : k₁.mem.word y 4 = k₁.link pre'.getLast? := by
    have hb := hkern.back
    have hsp' : pre ++ x :: post = (pre ++ [x]) ++ post := by simp
    rw [hsp', pointers_append, Back.append] at hb
    have hback := ha.back (fun f hf => h.held f (hinit hf)) hb.1
    rw [hes, pointers_append, pointers_cons, Back.append] at hback
    rw [← VmaRegion.prev_eq, hback.2.1, pointers_getLast]
  -- its pages
  have hpages : pagesFrom (k₁.mem.word y 0) 0 (k₁.mem.word y 1).toNat ⊆
      pagesOf k.mem (pre ++ x :: post) ∪ pagesFrom ptr 0 size.toNat := by
    rcases hcase with hy' | ⟨rfl, _⟩
    · rw [hword y (hinit hy') 0 (by decide), hword y (hinit hy') 1 (by decide)]
      exact fun p hp => .inl ⟨y, hinit hy', hp⟩
    · rw [ha.start, ha.size_eq]
      exact Set.subset_union_right
  have hsize : (k₁.mem.word y 1).toNat ≤ 2 ^ 36 := by
    rcases hcase with hy' | ⟨rfl, _⟩
    · rw [hword y (hinit hy') 1 (by decide)]
      exact hkern.sizes y (hinit hy')
    · rw [ha.size_eq]
      exact hplain.distinct
  have hback := hl.backing hs ha.sub_free ha.held hkern.backing (fun hv => .inr hv)
  have hapart := fun {v} hv => ha.apart h hplain.clean hs hkern.backing hkern.apart (v := v) (.inr hv)
  rw [hsp] at h₁ hapart
  obtain ⟨k₁', k₂', freed, hres, h₂, _, ho, hun, hlook⟩ := h₁.releaseBacked (ha.keep hs)
    (by rw [ha.globals.kernel, hk, ha.globals.higherHalf]) hprev hfind
    ⟨fun hv => hback.page (hpages hv), fun hv hw => hback.inj (hpages hv) (hpages hw)⟩ (fun hv => hapart (hpages hv))
    (fun {j j'} hjj hj' he => absurd (pageNo_pageAt_inj hsize (by omega) hj' he) (by omega))
  cases hres.symm.trans hfree
  rw [← hsp] at h₁
  have hfreed : ∀ f ∈ freed ++ [y], ¬ Held all free lab f := by
    intro f hf
    refine not_held_of_undone h h₁ ha hplain.clean hu ?_
    rw [h₂.owned.stack.freePages_eq, List.append_assoc]
    exact List.mem_map_of_mem (List.mem_append_right _ hf)
  obtain ⟨rfl, rfl⟩ : y = b ∧ pre' = pre ++ [x] := hcase.resolve_left (fun hy' =>
    hfreed y (by simp) (h.held y (hinit hy')))
  rw [ha.start, ha.size_eq] at hun
  refine ⟨fun g hg => ?_, fun {v} hv => ?_⟩
  · rw [← hword g (hinit hg) 0 (by decide)]
    exact hpre' g hg
  · by_contra hsee
    have hsame : translation k₁.mem s v = translation k.mem s v := hl.other hs (fun hc => hsee hc.2)
    obtain ⟨i, _, hi, hvi⟩ := hv
    rw [Nat.zero_add] at hi
    rcases hkern.backing.page (v := v) (.inr ⟨i, Nat.zero_le _, by omega, hvi⟩) with hz | ⟨d, hd, hdh⟩
    · -- the page stays mapped in the context's pagemap
      obtain ⟨e, he, _, heh⟩ := ha.frames hplain.clean hi
      have hkeep : translation k₁'.mem r v = translation k₁.mem r v :=
        hun.other (ha.keep h.pm) (fun hc => hc.2.1 (hsame.trans hz))
      have hclear : virtToPhys k₂ (VmaContext.pagemap k₂ ctx) (pageAt ptr i) = 0 := hu.2 i hi
      rw [h₂.virtToPhys_pagemap] at hclear
      have hlook' : translation k₂.mem r (pageAt ptr i) = translation k₁'.mem r (pageAt ptr i) :=
        hlook r (ha.keep h.pm) _
      rw [hlook', ← translation_congr hvi, hkeep, translation_congr hvi, he] at hclear
      exact h₁.owned.stack.nonzero e heh.mem hclear
    · -- a frame of the kernel's was released
      refine hfreed d (List.mem_append_left _ ((hun.freed_iff d).mpr ?_)) hdh
      exact ⟨h.owned.stack.nonzero d hdh.mem, v, ⟨i, Nat.zero_le _, by omega, hvi⟩, hsame.trans hd⟩

end VmaRecords

end ShadowOS.Mm
