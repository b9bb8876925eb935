import ShadowOS.Mm.Lemmas.Unloaded

/-!
# Lists of regions

The records of a context's regions are frames in use, linked by the pointers to them.
-/

namespace ShadowOS.Mm

variable {k k' k₁ : State} {all free free₁ free' : List Frame} {lab lab' : Labels} {b c x y r s : Frame}
  {fs pre post : List Frame}
  {ctx ptr size flags : U64}

/-! ## Pointers to records -/

def State.pointers (k : State) (fs : List Frame) : List U64 := fs.map fun f => k.higherHalf f.1

/-- The pointer to a record that may be missing. -/
def State.link (k : State) (o : Option Frame) : U64 := (o.map fun f => k.higherHalf f.1).getD 0

@[simp] theorem link_none (k : State) : k.link none = 0 := rfl

@[simp] theorem link_some (k : State) (f : Frame) : k.link (some f) = k.higherHalf f.1 := rfl

theorem SameGlobals.pointers (h : SameGlobals k k') (fs : List Frame) : k'.pointers fs = k.pointers fs := by
  simp only [State.pointers, h.higherHalf]

theorem SameGlobals.link (h : SameGlobals k k') (o : Option Frame) : k'.link o = k.link o := by
  simp only [State.link, h.higherHalf]

theorem pointers_append (k : State) (fs gs : List Frame) : k.pointers (fs ++ gs) = k.pointers fs ++ k.pointers gs :=
  List.map_append

theorem pointers_cons (k : State) (f : Frame) (fs : List Frame) : k.pointers (f :: fs) = k.higherHalf f.1 :: k.pointers fs :=
  rfl

theorem pointers_head (k : State) (fs : List Frame) : (k.pointers fs).head?.getD 0 = k.link fs.head? := by
  rw [State.pointers, State.link, List.head?_map]

theorem pointers_getLast (k : State) (fs : List Frame) : (k.pointers fs).getLast?.getD 0 = k.link fs.getLast? := by
  rw [State.pointers, State.link, List.getLast?_map]

theorem mem_pointers {q : U64} : q ∈ k.pointers fs ↔ ∃ f ∈ fs, k.higherHalf f.1 = q := List.mem_map

theorem higherHalf_mem_pointers {f : Frame} : k.higherHalf f.1 ∈ k.pointers fs ↔ f ∈ fs := by
  simp only [mem_pointers, Owned.higherHalf_inj, exists_eq_right]

/-! ## Pages of regions -/

/-- The pages of the regions whose records are `fs`. -/
def pagesOf (m : Mem) (fs : List Frame) : Set (BitVec 36) :=
  {p | ∃ f ∈ fs, p ∈ pagesFrom (m.word f 0) 0 (m.word f 1).toNat}

theorem pagesOf_mono {m : Mem} {gs : List Frame} (h : fs ⊆ gs) : pagesOf m fs ⊆ pagesOf m gs := by
  rintro p ⟨f, hf, hp⟩
  exact ⟨f, h hf, hp⟩

theorem pagesOf_congr {m m' : Mem} (h0 : ∀ f ∈ fs, m'.word f 0 = m.word f 0) (h1 : ∀ f ∈ fs, m'.word f 1 = m.word f 1) :
    pagesOf m' fs = pagesOf m fs := by
  ext p
  refine exists_congr (fun f => and_congr_right (fun hf => ?_))
  rw [h0 f hf, h1 f hf]

/-! ## Taking a record out of the list -/

/-- Records are written and a frame released. -/
theorem Owned.writeRelease {m : Mem} {S : Set Frame} {g : Frame} (h : Owned k all free lab)
    (hm : Mem.EqOutside S k.mem m) (hS : ∀ f ∈ S, Held all free lab f) (hg : Held all free lab g) :
    ∃ k', pmmReleasePage { k with mem := m } g.1 = k' ∧ Owned k' all (free ++ [g]) lab ∧ SameGlobals k k' ∧
      SameLook lab k.mem k'.mem ∧ ∀ f, Held all free lab f → ∀ j, k'.mem.word f j = m.word f j := by
  have hw := h.write hm hS
  obtain ⟨k', he, ho, hglob, hmem⟩ := hw.releasePage hg
  refine ⟨k', he, ho, ⟨hglob.hhdm, hglob.pages, hglob.kernel, hglob.oom⟩, fun r hr v => ?_, fun f hf j => ?_⟩
  · rw [← h.look_write hm hS hr v]
    exact hw.tables.look_congr (fun n hn => funext (hmem.word (fun hc => (hw.held n hn).2 hc))) hr (by simp [path])
  · exact hmem.word (hw.stack.not_isArray hf.mem) j

theorem store_link {o : Option Frame} (ho : ∀ f, o = some f → k.higherHalf f.1 ≠ 0) (i : Fin 512) {d : U64}
    (hd : d = 8 * BitVec.ofNat 64 i.1) (v : U64) (m : Mem) :
    (if k.link o ≠ 0 then State.store { k with mem := m } (k.link o + d) v else { k with mem := m }) =
      { k with mem := m.storeAt o i v } := by
  cases o with
  | none => exact if_neg (fun hc => hc rfl)
  | some f => exact (if_pos (ho f rfl)).trans (store_field { k with mem := m } f i hd v)

/-- The record `y` between `p` and `n` is taken out and its frame released. -/
theorem Owned.unlink {p n : Option Frame} (h : Owned k all free lab) (hc : Held all free lab c) (hy : Held all free lab y)
    (hp : ∀ f, p = some f → Held all free lab f ∧ f ≠ c) (hn : ∀ f, n = some f → Held all free lab f ∧ f ≠ c) :
    ∃ k', vmaUnlink k (k.higherHalf c.1) (k.higherHalf y.1) (k.link p) (k.link n) = k' ∧ Owned k' all (free ++ [y]) lab ∧
      SameGlobals k k' ∧ SameLook lab k.mem k'.mem ∧
      ∀ f, Held all free lab f → ∀ j, k'.mem.word f j =
        if f = c ∧ j = 1 then (if k.mem.word c 1 = k.higherHalf y.1 then k.link n else k.mem.word c 1)
        else if n = some f ∧ j = 4 then k.link p
        else if p = some f ∧ j = 3 then k.link n else k.mem.word f j := by
  have hcp : p ≠ some c := fun he => (hp c he).2 rfl
  have hcn : n ≠ some c := fun he => (hn c he).2 rfl
  generalize hm : (k.mem.storeAt p 3 (k.link n)).storeAt n 4 (k.link p) = m
  have hroot : m.word c 1 = k.mem.word c 1 := by
    rw [← hm, Mem.word_storeAt, Mem.word_storeAt]
    simp [hcp, hcn]
  have hout : Mem.EqOutside {f | p = some f ∨ n = some f} k.mem m := by
    rw [← hm]
    exact ((Mem.EqOutside.storeAt k.mem p 3 _).mono (fun f hf => .inl hf)).trans
      ((Mem.EqOutside.storeAt _ n 4 _).mono (fun f hf => .inr hf))
  have hheld : ∀ f ∈ {f | p = some f ∨ n = some f}, Held all free lab f := by
    rintro f (hf | hf)
    · exact (hp f hf).1
    · exact (hn f hf).1
  have hword : ∀ f j, m.word f j = if n = some f ∧ j = 4 then k.link p else if p = some f ∧ j = 3 then k.link n
      else k.mem.word f j := by
    intro f j
    rw [← hm, Mem.word_storeAt, Mem.word_storeAt]
  have hst₁ := store_link (k := k) (fun f hf => h.mapped (hp f hf).1) 3 (d := 24) rfl (k.link n) k.mem
  have hst₂ := store_link (k := k) (fun f hf => h.mapped (hn f hf).1) 4 (d := 32) rfl (k.link p)
    (k.mem.storeAt p 3 (k.link n))
  rw [hm] at hst₂
  have hr : VmaContext.root { k with mem := m } (k.higherHalf c.1) = k.mem.word c 1 :=
    (VmaContext.root_eq { k with mem := m } c).trans hroot
  have hst₃ : State.store { k with mem := m } (k.higherHalf c.1 + 8) (k.link n) =
      { k with mem := m.store64 (c.slot 1) (k.link n) } := store_field { k with mem := m } c 1 (d := 8) rfl (k.link n)
  have hphys : ∀ m : Mem, State.physical { k with mem := m } (k.higherHalf y.1) = y.1 :=
    fun _ => State.physical_higherHalf k y.1
  have heq : vmaUnlink k (k.higherHalf c.1) (k.higherHalf y.1) (k.link p) (k.link n) =
      pmmReleasePage { k with mem := if k.mem.word c 1 = k.higherHalf y.1 then m.store64 (c.slot 1) (k.link n) else m } y.1 := by
    simp only [vmaUnlink, hst₁, hst₂, hr, eq_comm (a := k.higherHalf y.1)]
    split
    · rw [hst₃, hphys]
    · rw [hphys]
  rw [heq]
  by_cases hfirst : k.mem.word c 1 = k.higherHalf y.1
  · simp only [hfirst, ↓reduceIte]
    have hout' : Mem.EqOutside {f | f = c ∨ p = some f ∨ n = some f} k.mem (m.store64 (c.slot 1) (k.link n)) :=
      (hout.mono (fun f hf => .inr hf)).trans ((Mem.EqOutside.store64 m c 1 _).mono (fun f hf => .inl hf))
    obtain ⟨k', he, ho, hg, hl, hw⟩ := h.writeRelease hout' (by rintro f (rfl | hf); exacts [hc, hheld f hf]) hy
    refine ⟨k', he, ho, hg, hl, fun f hf j => ?_⟩
    rw [hw f hf j, Mem.word_store64, hword]
  · simp only [hfirst, ↓reduceIte]
    obtain ⟨k', he, ho, hg, hl, hw⟩ := h.writeRelease hout hheld hy
    refine ⟨k', he, ho, hg, hl, fun f hf j => ?_⟩
    rw [hw f hf j, ← hword]
    split
    · rename_i hfc
      rw [hfc.1, hfc.2, hroot]
    · rfl

/-! ## The walks -/

theorem vmaFind_eq_searchFrom (k : State) (ptr : U64) (fuel : Nat) (p : U64) :
    vmaFind k ptr fuel p = searchFrom (VmaRegion.next k) 0 (fun region => VmaRegion.start k region = ptr) fuel p := by
  induction fuel generalizing p with
  | zero => rfl
  | succ fuel ih => simp only [vmaFind, searchFrom, ih, decide_eq_true_eq]

theorem vmaFindGap_eq_searchFrom (k : State) (fuel : Nat) (p : U64) :
    vmaFindGap k fuel p = searchFrom (VmaRegion.next k) 0 (hasGap k) fuel p := by
  induction fuel generalizing p with
  | zero => rfl
  | succ fuel ih => simp only [vmaFindGap, searchFrom, ih, hasGap, decide_eq_true_eq]

/-! ## Contexts and their records -/

/-- The context `c` over the pagemap `r`, with the records `fs`. -/
structure VmaRecords (k : State) (ctx : U64) (all free : List Frame) (lab : Labels) (r c : Frame) (fs : List Frame) :
    Prop where
  owned : Owned k all free lab
  pm : lab r = some (r, [])
  pm0 : k.higherHalf r.1 ≠ 0
  ctx_eq : k.higherHalf c.1 = ctx
  ctxHeld : Held all free lab c
  held : ∀ f ∈ fs, Held all free lab f
  notMem : c ∉ fs
  pagemap : k.mem.word c 0 = k.higherHalf r.1
  list : RegionsOf k ctx (k.pointers fs)

namespace VmaRecords

theorem root_eq (h : VmaRecords k ctx all free lab r c fs) : VmaContext.root k ctx = k.link fs.head? := by
  rw [← pointers_head]
  have hl := h.list
  cases fs with
  | nil => exact hl
  | cons f fs => exact hl.1

theorem next_eq (h : VmaRecords k ctx all free lab r c (pre ++ x :: post)) : k.mem.word x 3 = k.link post.head? := by
  have hl := h.list
  rw [RegionsOf, pointers_append, pointers_cons] at hl
  rw [← VmaRegion.next_eq, hl.suffix.head_eq, pointers_head]

theorem nodup (h : VmaRecords k ctx all free lab r c fs) : fs.Nodup := h.list.nodup.of_map _

theorem length_lt (h : VmaRecords k ctx all free lab r c fs) : (k.pointers fs).length < vmaMaxRegions := by
  have hlen := Frame.length_le_of_nodup (List.nodup_cons.mpr ⟨h.notMem, h.nodup⟩)
  rw [List.length_cons] at hlen
  rw [State.pointers, List.length_map]
  exact hlen

theorem ctx_ne_zero (h : VmaRecords k ctx all free lab r c fs) : ctx ≠ 0 := by
  rw [← h.ctx_eq]
  exact h.owned.mapped h.ctxHeld

theorem vmaFind_eq (h : VmaRecords k ctx all free lab r c fs) (ptr : U64) :
    vmaFind k ptr vmaMaxRegions (VmaContext.root k ctx) =
      some (((k.pointers fs).find? fun region => VmaRegion.start k region = ptr).getD 0) := by
  rw [vmaFind_eq_searchFrom, h.list.searchFrom_eq h.length_lt]

theorem vmaFindGap_eq (h : VmaRecords k ctx all free lab r c fs) :
    vmaFindGap k vmaMaxRegions (VmaContext.root k ctx) = some (((k.pointers fs).find? (hasGap k)).getD 0) := by
  rw [vmaFindGap_eq_searchFrom, h.list.searchFrom_eq h.length_lt]

/-- The first record that passes a test splits the list. -/
theorem find_pointers (test : U64 → Bool) {f : Frame} (hf : f ∈ fs) (ht : test (k.higherHalf f.1) = true) :
    ∃ pre x post, fs = pre ++ x :: post ∧ (k.pointers fs).find? test = some (k.higherHalf x.1) ∧
      test (k.higherHalf x.1) = true ∧ ∀ g ∈ pre, test (k.higherHalf g.1) = false := by
  obtain ⟨q, hq⟩ := Option.isSome_iff_exists.mp
    (List.find?_isSome.mpr ⟨k.higherHalf f.1, higherHalf_mem_pointers.mpr hf, ht⟩)
  obtain ⟨hqt, as, bs, hsplit, has⟩ := List.find?_eq_some_iff_append.mp hq
  obtain ⟨pre, rest, rfl, hpre, hrest⟩ := List.map_eq_append_iff.mp hsplit
  obtain ⟨x, post, rfl, rfl, _⟩ := List.map_eq_cons_iff.mp hrest
  refine ⟨pre, x, post, rfl, hq, hqt, fun g hg => ?_⟩
  have hna := has (k.higherHalf g.1) (by rw [← hpre]; exact List.mem_map_of_mem hg)
  simpa using hna

/-- The region that the new one is put after. -/
theorem gap (h : VmaRecords k ctx all free lab r c fs) (hne : fs ≠ []) : ∃ pre x post, fs = pre ++ x :: post ∧
    vmaFindGap k vmaMaxRegions (VmaContext.root k ctx) = some (k.higherHalf x.1) ∧ hasGap k (k.higherHalf x.1) = true ∧
      ∀ g ∈ pre, hasGap k (k.higherHalf g.1) = false := by
  obtain ⟨init, l, rfl⟩ := (List.eq_nil_or_concat fs).resolve_left hne
  rw [List.concat_eq_append] at h ⊢
  have hl : hasGap k (k.higherHalf l.1) = true := by
    have hn : k.mem.word l 3 = k.link ([] : List Frame).head? := h.next_eq
    simp only [hasGap, VmaRegion.next_eq, hn, decide_eq_true_eq]
    exact .inl rfl
  have hmem : l ∈ init ++ [l] := by simp
  obtain ⟨pre, x, post, hs, hfind, hx, hpre⟩ := find_pointers (hasGap k) hmem hl
  refine ⟨pre, x, post, hs, ?_, hx, hpre⟩
  rw [h.vmaFindGap_eq, hfind, Option.getD_some]

theorem ne_of_nodup (h : VmaRecords k ctx all free lab r c (pre ++ x :: post)) : ∀ g ∈ pre ++ post, g ≠ x := by
  have hnd := List.nodup_middle.mp h.nodup
  rintro g hg rfl
  exact (List.nodup_cons.mp hnd).1 hg

theorem init_subset : pre ++ [x] ⊆ pre ++ x :: post := by
  have hsplit : pre ++ x :: post = (pre ++ [x]) ++ post := by simp
  rw [hsplit]
  exact List.subset_append_left _ _

theorem virtToPhys_pagemap (h : VmaRecords k ctx all free lab r c fs) (v : U64) :
    virtToPhys k (VmaContext.pagemap k ctx) v = translation k.mem r v := by
  rw [← h.ctx_eq, VmaContext.pagemap_eq, h.pagemap, virtToPhys_eq]

/-! ## Allocation -/

/-- What `vma_alloc` does: the record `b` comes after `x`, and its pages have frames. -/
structure Allocated (k k' : State) (all free free₁ free' : List Frame) (lab lab' : Labels) (r x b : Frame)
    (size flags ptr : U64) : Prop where
  free_eq : free = free₁ ++ [b]
  new : Held all free₁ lab b
  ptr_eq : ptr = k.mem.word x 0 + k.mem.word x 1
  globals : SameGlobals k k'
  sub : free' ⊆ free
  keep : ∀ {f l}, lab f = some l → lab' f = some l
  held : ∀ {g}, Held all free lab g → Held all free' lab' g
  word : ∀ {g}, Held all free lab g → ∀ j, g ≠ x ∨ j ≠ 3 → k'.mem.word g j = k.mem.word g j
  start : k'.mem.word b 0 = ptr
  size_eq : k'.mem.word b 1 = size
  prev : k'.mem.word b 4 = k.higherHalf x.1
  loaded : flags &&& addrMask = 0 → Loaded all free₁ lab free' lab' r (pagesFrom ptr 0 size.toNat) k.mem k'.mem

/-- `vma_alloc` puts a record after the region that the walk finds. -/
theorem allocate (h : VmaRecords k ctx all free lab r c (pre ++ x :: post))
    (hgap : vmaFindGap k vmaMaxRegions (VmaContext.root k ctx) = some (k.higherHalf x.1))
    (hres : vmaAlloc k ctx size flags = some (ptr, k'))
    (hoom : 4 * size.toNat + 1 ≤ free.length ∨ k'.outOfMemory = false) :
    ∃ b free₁ free' lab', VmaRecords k' ctx all free' lab' r c (pre ++ x :: b :: post) ∧
      Allocated k k' all free free₁ free' lab lab' r x b size flags ptr := by
  have hx : Held all free lab x := h.held x (by simp)
  have hcx : c ≠ x := by
    rintro rfl
    exact h.notMem (by simp)
  obtain ⟨a, rest, hhead⟩ := List.exists_cons_of_ne_nil (List.append_ne_nil_of_right_ne_nil pre (List.cons_ne_nil x post))
  have hroot := h.root_eq
  rw [hhead, List.head?_cons, link_some] at hroot
  have ha : Held all free lab a := h.held a (by rw [hhead]; simp)
  have hroot' : k.mem.word c 1 = k.higherHalf a.1 := by rw [← VmaContext.root_eq, h.ctx_eq, hroot]
  rw [hroot] at hgap
  have hres' := hres
  rw [← h.ctx_eq] at hres'
  obtain ⟨b, free₁, free', lab', hptr, hfree, hnew, hb, ho, hg, hw0, hw1, hw3, hw4, _, hload⟩ :=
    h.owned.vmaAlloc h.pm h.pm0 h.ctxHeld ha hx hcx h.pagemap hroot' hgap hres' hoom
  have hgl : SameGlobals k k' := ⟨hg.globals.hhdm, hg.globals.pages, hg.globals.kernel, hg.globals.oom⟩
  have hword : ∀ {g}, Held all free lab g → ∀ j, g ≠ x ∨ j ≠ 3 → k'.mem.word g j = k.mem.word g j := by
    intro g hgh j hgj
    rw [hg.word hgh, Mem.word_store64, if_neg]
    rintro ⟨rfl, rfl⟩
    simp at hgj
  have hbf : b ∈ free := by simp [hfree]
  have hnext : ∀ g ∈ pre ++ post, VmaRegion.next k' (k.higherHalf g.1) = VmaRegion.next k (k.higherHalf g.1) := by
    intro g hgm
    have hgh : Held all free lab g := h.held g (by
      rw [List.mem_append] at hgm
      rw [List.mem_append, List.mem_cons]
      exact hgm.imp_right .inr)
    rw [VmaRegion.next_eq, ← hgl.higherHalf, VmaRegion.next_eq, hword hgh 3 (.inl (h.ne_of_nodup g hgm))]
  have hptrs : ∀ {gs : List Frame}, gs ⊆ pre ++ post → ∀ q ∈ k.pointers gs, VmaRegion.next k' q = VmaRegion.next k q := by
    intro gs hgs q hq
    obtain ⟨g, hgm, rfl⟩ := mem_pointers.mp hq
    exact hnext g (hgs hgm)
  have hlist := h.list
  rw [RegionsOf, pointers_append, pointers_cons] at hlist
  have hlist' : Chain (VmaRegion.next k') 0 (VmaContext.root k ctx)
      (k.pointers pre ++ k.higherHalf x.1 :: k.higherHalf b.1 :: k.pointers post) := by
    refine hlist.insert ?_ ?_ ?_ (hptrs (List.subset_append_left _ _)) (hptrs (List.subset_append_right _ _))
    · rw [← hgl.higherHalf]
      exact ho.mapped hb
    · rw [← hgl.higherHalf, VmaRegion.next_eq, hg.word hx, Mem.word_store64, if_pos ⟨rfl, rfl⟩]
    · rw [← hgl.higherHalf, VmaRegion.next_eq, VmaRegion.next_eq, hw3]
  have hctx : k'.higherHalf c.1 = ctx := (hgl.higherHalf _).trans h.ctx_eq
  refine ⟨b, free₁, free', lab', ⟨ho, hg.keep h.pm, ?_, hctx, hg.held h.ctxHeld, fun f hf => ?_, ?_, ?_, ?_⟩,
    ⟨hfree, hnew, hptr, hgl, hg.free_sub, hg.keep, hg.held, hword, hw0, hw1, hw4, hload⟩⟩
  · rw [hgl.higherHalf]
    exact h.pm0
  · rw [List.mem_append, List.mem_cons, List.mem_cons] at hf
    rcases hf with hf | rfl | rfl | hf
    · exact hg.held (h.held f (by simp [hf]))
    · exact hg.held hx
    · exact hb
    · exact hg.held (h.held f (by simp [hf]))
  · have hcb : c ≠ b := by
      rintro rfl
      exact h.ctxHeld.notFree hbf
    have hc := h.notMem
    rw [List.mem_append, List.mem_cons] at hc ⊢
    rw [List.mem_cons]
    simpa [hcb] using hc
  · rw [hword h.ctxHeld 0 (.inl hcx), h.pagemap, hgl.higherHalf]
  · have hr : VmaContext.root k' ctx = VmaContext.root k ctx := by
      rw [← hctx, VmaContext.root_eq, hword h.ctxHeld 1 (.inl hcx), hroot', hctx, hroot]
    rw [RegionsOf, hr, hgl.pointers, pointers_append, pointers_cons, pointers_cons]
    exact hlist'

theorem Allocated.sub_free (ha : Allocated k k₁ all free free₁ free' lab lab' r x b size flags ptr) : free₁ ⊆ free := by
  rw [ha.free_eq]
  exact List.subset_append_left _ _

theorem Allocated.mem_free (ha : Allocated k k₁ all free free₁ free' lab lab' r x b size flags ptr) : b ∈ free := by
  rw [ha.free_eq]
  simp

theorem Allocated.held_free₁ (ha : Allocated k k₁ all free free₁ free' lab lab' r x b size flags ptr) {g : Frame}
    (hg : Held all free lab g) : Held all free₁ lab g :=
  ⟨hg.mem, fun hc => hg.notFree (ha.sub_free hc), hg.notTable⟩

/-- Who holds a frame before the call holds it without the frame of the new record as well. -/
theorem Allocated.heldAll (ha : Allocated k k₁ all free free₁ free' lab lab' r x b size flags ptr)
    (h : VmaRecords k ctx all free lab r c (pre ++ x :: post)) {f : Frame} (hf : f ∈ c :: (pre ++ x :: b :: post)) :
    f ∈ c :: (pre ++ x :: post) ∧ Held all free lab f ∨ f = b ∧ Held all free₁ lab f := by
  simp only [List.mem_cons, List.mem_append] at hf
  rcases hf with rfl | hf | rfl | rfl | hf
  · exact .inl ⟨by simp, h.ctxHeld⟩
  · exact .inl ⟨by simp [hf], h.held f (by simp [hf])⟩
  · exact .inl ⟨by simp, h.held f (by simp)⟩
  · exact .inr ⟨rfl, ha.new⟩
  · exact .inl ⟨by simp [hf], h.held f (by simp [hf])⟩

/-- Pages whose frames are no records keep it so. -/
theorem Allocated.apart (ha : Allocated k k₁ all free free₁ free' lab lab' r x b size flags ptr)
    (h : VmaRecords k ctx all free lab r c (pre ++ x :: post)) (hfl : flags &&& addrMask = 0) (hs : lab s = some (s, []))
    {T : Set (BitVec 36)} (hb : Backing all free lab T (translation k.mem s))
    (hT : ∀ {v}, pageNo v ∈ T → ∀ f ∈ c :: (pre ++ x :: post), translation k.mem s v ≠ f.1) {v : U64}
    (hv : pageNo v ∈ pagesFrom ptr 0 size.toNat ∧ Sees k.mem s r (ix v 39) ∨ pageNo v ∈ T) :
    ∀ f ∈ c :: (pre ++ x :: b :: post), translation k₁.mem s v ≠ f.1 := by
  intro f hf
  have hl := ha.loaded hfl
  rcases ha.heldAll h hf with ⟨hf', hh⟩ | ⟨rfl, hh⟩
  · exact hl.ne_held hs (ha.held_free₁ hh) (fun hn => hT (hv.resolve_left hn) f hf')
  · refine hl.ne_held hs hh (fun hn he => ?_)
    rcases hb.page (hv.resolve_left hn) with hz | ⟨d, hd, hdh⟩
    · exact h.owned.stack.nonzero f hh.mem (he.symm.trans hz)
    · rw [Subtype.ext (hd.symm.trans he)] at hdh
      exact hdh.notFree ha.mem_free

/-- The back links up to the new record. -/
theorem Allocated.back (ha : Allocated k k₁ all free free₁ free' lab lab' r x b size flags ptr)
    (hheld : ∀ f ∈ pre ++ [x], Held all free lab f) (hback : Back (VmaRegion.prev k) 0 (k.pointers (pre ++ [x]))) :
    Back (VmaRegion.prev k₁) 0 (k₁.pointers ((pre ++ [x]) ++ [b])) := by
  rw [ha.globals.pointers, pointers_append, Back.append]
  refine ⟨hback.congr (fun q hq => ?_), ?_, trivial⟩
  · obtain ⟨g, hg, rfl⟩ := mem_pointers.mp hq
    rw [VmaRegion.prev_eq, ← ha.globals.higherHalf, VmaRegion.prev_eq, ha.word (hheld g hg) 4 (.inr (by decide))]
  · change VmaRegion.prev k₁ (k.higherHalf b.1) = _
    rw [pointers_getLast, List.getLast?_concat, link_some, ← ha.globals.higherHalf, VmaRegion.prev_eq, ha.prev]

/-! ## Release -/

theorem find (h : VmaRecords k ctx all free lab r c fs) {f : Frame} (hf : f ∈ fs) (hptr : k.mem.word f 0 = ptr) :
    ∃ pre y post, fs = pre ++ y :: post ∧ k.mem.word y 0 = ptr ∧
      vmaFind k ptr vmaMaxRegions (VmaContext.root k ctx) = some (k.higherHalf y.1) ∧
      ∀ g ∈ pre, k.mem.word g 0 ≠ ptr := by
  obtain ⟨pre, y, post, hs, hfind, hy, hpre⟩ := find_pointers (k := k)
    (fun region => VmaRegion.start k region = ptr) hf (by rw [VmaRegion.start_eq, hptr, decide_eq_true rfl])
  rw [VmaRegion.start_eq, decide_eq_true_eq] at hy
  refine ⟨pre, y, post, hs, hy, ?_, fun g hg => ?_⟩
  · rw [h.vmaFind_eq, hfind, Option.getD_some]
  · have hg' := hpre g hg
    rwa [VmaRegion.start_eq, decide_eq_false_iff_not] at hg'

/-- `vma_free` takes the record that the walk finds out of the list, once its pages are released. -/
theorem release (h : VmaRecords k ctx all free lab r c (pre ++ y :: post)) (hprev : k.mem.word y 4 = k.link pre.getLast?)
    (hfind : vmaFind k ptr vmaMaxRegions (VmaContext.root k ctx) = some (k.higherHalf y.1))
    (hloop : vmaUnmapPages ctx (k.higherHalf y.1) (2 ^ 64) 0 k = k₁) (ho₁ : Owned k₁ all free₁ lab) (hg₁ : SameGlobals k k₁)
    (hheld : ∀ f ∈ c :: (pre ++ y :: post), Held all free₁ lab f)
    (hword : ∀ f ∈ c :: (pre ++ y :: post), ∀ j, k₁.mem.word f j = k.mem.word f j) :
    ∃ k', vmaFree k ctx ptr = some k' ∧ VmaRecords k' ctx all (free₁ ++ [y]) lab r c (pre ++ post) ∧ SameGlobals k k' ∧
      SameLook lab k₁.mem k'.mem ∧
      ∀ f ∈ pre ++ post, ∀ j, j ≠ 3 → k'.mem.word f j =
        if post.head? = some f ∧ j = 4 then k.link pre.getLast? else k.mem.word f j := by
  have hlast : ∀ f, pre.getLast? = some f → f ∈ pre := fun f hf => List.mem_of_getLast? hf
  have hhead : ∀ f, post.head? = some f → f ∈ post := fun f hf => List.mem_of_head? hf
  have hmem : ∀ f ∈ pre ++ post, f ∈ pre ++ y :: post := by
    intro f hf
    rw [List.mem_append] at hf
    rw [List.mem_append, List.mem_cons]
    exact hf.imp_right .inr
  have hc₁ := hheld c (by simp)
  have hc : ∀ f ∈ pre ++ post, f ≠ c := by
    rintro f hf rfl
    exact h.notMem (hmem f hf)
  obtain ⟨k', he, ho', hg', hl', hw'⟩ := ho₁.unlink (p := pre.getLast?) (n := post.head?) hc₁ (hheld y (by simp))
    (fun f hf => ⟨hheld f (by simp [hlast f hf]), hc f (by simp [hlast f hf])⟩)
    (fun f hf => ⟨hheld f (by simp [hhead f hf]), hc f (by simp [hhead f hf])⟩)
  rw [hg₁.higherHalf, hg₁.higherHalf, hg₁.link, hg₁.link, h.ctx_eq] at he
  have hgl := hg₁.trans hg'
  have hy0 : k.higherHalf y.1 ≠ 0 := h.owned.mapped (h.held y (by simp))
  have hres : vmaFree k ctx ptr = some k' := by
    simp only [vmaFree, h.ctx_ne_zero, ↓reduceIte, hfind, Option.bind_eq_bind, Option.bind_some, hy0, VmaRegion.prev_eq, hprev,
      VmaRegion.next_eq, h.next_eq, hloop, he, Option.pure_def]
  have hwc : ∀ j, k'.mem.word c j = if j = 1 ∧ pre = [] then k.link post.head? else k.mem.word c j := by
    intro j
    have hroot : k.mem.word c 1 = k.link (pre ++ y :: post).head? := by
      rw [← h.root_eq, ← h.ctx_eq, VmaContext.root_eq]
    have hfirst : k.mem.word c 1 = k₁.higherHalf y.1 ↔ pre = [] := by
      rw [hroot, hg₁.higherHalf]
      cases hp : pre with
      | nil => simp
      | cons a pre =>
          have hay : a ≠ y := h.ne_of_nodup a (by simp [hp])
          simpa [Owned.higherHalf_inj] using hay
    have hn : post.head? ≠ some c := fun hx => hc c (by simp [hhead c hx]) rfl
    have hp : pre.getLast? ≠ some c := fun hx => hc c (by simp [hlast c hx]) rfl
    rw [hw' c hc₁, hg₁.link]
    simp only [true_and, hfirst, hn, hp, false_and, ↓reduceIte, hword c (List.mem_cons_self)]
    by_cases hj : j = 1
    · subst hj
      simp only [true_and, ↓reduceIte]
    · simp only [hj, false_and, ↓reduceIte]
  have hwf : ∀ f ∈ pre ++ post, ∀ j, k'.mem.word f j = if post.head? = some f ∧ j = 4 then k.link pre.getLast?
      else if pre.getLast? = some f ∧ j = 3 then k.link post.head? else k.mem.word f j := by
    intro f hf j
    rw [hw' f (hheld f (by simp [hmem f hf])), if_neg (fun hx => hc f hf hx.1), hg₁.link, hg₁.link,
      hword f (by simp [hmem f hf])]
  have hnext : ∀ f ∈ pre ++ post, pre.getLast? ≠ some f →
      VmaRegion.next k' (k.higherHalf f.1) = VmaRegion.next k (k.higherHalf f.1) := by
    intro f hf hne
    rw [VmaRegion.next_eq, ← hgl.higherHalf, VmaRegion.next_eq, hwf f hf, if_neg (by simp), if_neg (fun hx => hne hx.1)]
  have hpost : ∀ q ∈ k.pointers post, VmaRegion.next k' q = VmaRegion.next k q := by
    intro q hq
    obtain ⟨f, hf, rfl⟩ := mem_pointers.mp hq
    refine hnext f (by simp [hf]) (fun hx => ?_)
    have hnd := (List.nodup_append'.mp h.nodup).2.2
    exact hnd (hlast f hx) (by simp [hf])
  have hctx : k'.higherHalf c.1 = ctx := (hgl.higherHalf _).trans h.ctx_eq
  have hroot' : VmaContext.root k' ctx = if pre = [] then k.link post.head? else VmaContext.root k ctx := by
    rw [← hctx, VmaContext.root_eq, hwc]
    simp only [true_and]
    refine if_congr Iff.rfl rfl ?_
    rw [hctx, ← h.ctx_eq, VmaContext.root_eq]
  have hlist := h.list
  rw [RegionsOf, pointers_append, pointers_cons] at hlist
  have hchain : Chain (VmaRegion.next k') 0 (VmaContext.root k' ctx) (k.pointers (pre ++ post)) := by
    rw [hroot', pointers_append]
    rcases List.eq_nil_or_concat pre with rfl | ⟨init, l, rfl⟩
    · have hc' := hlist.2.2.congr hpost
      rwa [VmaRegion.next_eq, h.next_eq] at hc'
    · rw [List.concat_eq_append] at *
      rw [if_neg (by simp)]
      rw [pointers_append, pointers_cons, List.append_assoc, List.cons_append] at hlist ⊢
      refine hlist.remove ?_ (fun q hq => ?_) hpost
      · rw [VmaRegion.next_eq, h.next_eq, ← hgl.higherHalf, VmaRegion.next_eq, hwf l (by simp), if_neg (by simp),
          if_pos (by simp)]
      · obtain ⟨f, hf, rfl⟩ := mem_pointers.mp hq
        refine hnext f (by simp [hf]) (fun hx => ?_)
        rw [List.getLast?_concat, Option.some.injEq] at hx
        have hnd := (List.nodup_append'.mp h.nodup).1
        rw [hx] at hnd
        exact (List.nodup_append'.mp hnd).2.2 hf (by simp)
  refine ⟨k', hres, ⟨ho', h.pm, ?_, hctx, hc₁.release ?_, fun f hf => ?_, fun hx => h.notMem (hmem c hx), ?_, ?_⟩, hgl, hl',
    fun f hf j hj => ?_⟩
  · rw [hgl.higherHalf]
    exact h.pm0
  · rintro rfl
    exact h.notMem (by simp)
  · exact (hheld f (by simp [hmem f hf])).release (h.ne_of_nodup f hf)
  · rw [hwc, if_neg (by simp), h.pagemap, hgl.higherHalf]
  · rw [RegionsOf, hgl.pointers]
    exact hchain
  · have hlink : ¬ (pre.getLast? = some f ∧ j = 3) := fun hx => hj hx.2
    rw [hwf f hf, if_neg hlink]

end VmaRecords

end ShadowOS.Mm
