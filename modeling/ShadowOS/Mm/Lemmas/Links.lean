import ShadowOS.Mm.Lemmas.VmaRun

/-!
# Doubly linked lists of regions

Calls on a context keep the back links as long as new regions come last and released frames are those of the region.
-/

namespace ShadowOS.Mm

variable {k k' k₁ : State} {all free free₁ free' : List Frame} {lab lab' : Labels} {c b x y r : Frame}
  {fs pre post : List Frame} {ctx ptr size flags : U64}

/-! ## The invariant -/

/-- A context whose records are linked both ways. Its pages have frames of their own, none of them a record. -/
structure VmaLinked (k : State) (ctx : U64) (all free : List Frame) (lab : Labels) (r c : Frame) (fs : List Frame) : Prop where
  records : VmaRecords k ctx all free lab r c fs
  back : Back (VmaRegion.prev k) 0 (k.pointers fs)
  backing : Backing all free lab (pagesOf k.mem fs) (translation k.mem r)
  apart : ∀ {v}, pageNo v ∈ pagesOf k.mem fs → ∀ f ∈ c :: fs, translation k.mem r v ≠ f.1

/-- The pointers in use are starts of regions in the list. -/
def VmaLinkInv (ctx : U64) (s : State × List U64) : Prop :=
  ∃ all free lab r c fs, VmaLinked s.1 ctx all free lab r c fs ∧ s.2.Subperm (fs.map fun f => s.1.mem.word f 0)

namespace VmaLinked

theorem doublyLinked (h : VmaLinked k ctx all free lab r c fs) : DoublyLinked k ctx (k.pointers fs) :=
  ⟨h.records.list, h.back.next_prev h.records.list, h.back.prev_eq_null h.records.list⟩

theorem prev_eq (h : VmaLinked k ctx all free lab r c (pre ++ y :: post)) : k.mem.word y 4 = k.link pre.getLast? := by
  have hb := h.back
  rw [pointers_append, pointers_cons, Back.append] at hb
  rw [← VmaRegion.prev_eq, hb.2.1, pointers_getLast]

/-! ## Allocation -/

/-- A page of the regions afterwards is a new page or a page of the regions before. -/
theorem pagesOf_concat (h : VmaLinked k ctx all free lab r c (pre ++ [x]))
    (ha : VmaRecords.Allocated k k' all free free₁ free' lab lab' r x b size flags ptr) :
    pagesOf k'.mem (pre ++ [x, b]) ⊆ pagesFrom ptr 0 size.toNat ∪ pagesOf k.mem (pre ++ [x]) := by
  rintro p ⟨f, hf, hp⟩
  have hf' : f ∈ pre ++ [x] ∨ f = b := by
    simpa [or_assoc] using hf
  rcases hf' with hf' | rfl
  · refine .inr ⟨f, hf', ?_⟩
    have hfh := h.records.held f hf'
    rwa [ha.word hfh 0 (.inr (by decide)), ha.word hfh 1 (.inr (by decide))] at hp
  · rw [ha.start, ha.size_eq] at hp
    exact .inl hp

/-- A new last region. -/
theorem concat (h : VmaLinked k ctx all free lab r c (pre ++ [x]))
    (hrec : VmaRecords k' ctx all free' lab' r c (pre ++ [x, b]))
    (ha : VmaRecords.Allocated k k' all free free₁ free' lab lab' r x b size flags ptr) (hfl : flags &&& addrMask = 0) :
    VmaLinked k' ctx all free' lab' r c (pre ++ [x, b]) := by
  have hsplit : pre ++ [x, b] = (pre ++ [x]) ++ [b] := by simp
  have hcover : ∀ {v}, pageNo v ∈ pagesOf k'.mem (pre ++ [x, b]) →
      pageNo v ∈ pagesFrom ptr 0 size.toNat ∧ Sees k.mem r r (ix v 39) ∨ pageNo v ∈ pagesOf k.mem (pre ++ [x]) :=
    fun hv => (h.pagesOf_concat ha hv).imp_left (fun hn => ⟨hn, .inl rfl⟩)
  refine ⟨hrec, ?_, (ha.loaded hfl).backing h.records.pm ha.sub_free ha.held h.backing hcover,
    fun hv => ha.apart h.records hfl h.records.pm h.backing h.apart (hcover hv)⟩
  rw [hsplit]
  exact ha.back h.records.held h.back

/-- Where no region ends before the next one starts, the walk comes to the last region. -/
theorem last_of_noGap (h : VmaRecords k ctx all free lab r c (pre ++ x :: post)) (hx : hasGap k (k.higherHalf x.1) = true)
    (hgap : NoGap k ctx) : post = [] := by
  have hno := hgap _ h.list (k.higherHalf x.1) (higherHalf_mem_pointers.mpr (by simp))
  simp only [hasGap, decide_eq_true_eq] at hx
  have hnext : VmaRegion.next k (k.higherHalf x.1) = 0 := by
    rcases hno with hz | hle
    · exact hz
    · exact hx.resolve_right (BitVec.not_lt.mpr hle)
  rw [VmaRegion.next_eq, h.next_eq] at hnext
  cases post with
  | nil => rfl
  | cons f post => exact absurd hnext (h.owned.mapped (h.held f (by simp)))

/-! ## Release -/

/-- The pages of the region `y` are released: they are the pages of the context's own pagemap, or the kernel has none. -/
theorem unload (h : VmaLinked k ctx all free lab r c (pre ++ y :: post))
    (hclean : k.kernelPagemap = k.higherHalf r.1 ∨
      ∀ j < (k.mem.word y 1).toNat, virtToPhys k k.kernelPagemap (pageAt (k.mem.word y 0) j) = 0) :
    ∃ k₁ free₁, vmaUnmapPages ctx (k.higherHalf y.1) (2 ^ 64) 0 k = k₁ ∧ Owned k₁ all free₁ lab ∧ SameGlobals k k₁ ∧
      (∀ f ∈ c :: (pre ++ y :: post), Held all free₁ lab f ∧ ∀ j, k₁.mem.word f j = k.mem.word f j) ∧
      Backing all free₁ lab (pagesOf k.mem (pre ++ post)) (translation k₁.mem r) ∧
      ∀ v, translation k₁.mem r v = translation k.mem r v ∨ translation k₁.mem r v = 0 := by
  have hrec := h.records
  have hheld : ∀ f ∈ c :: (pre ++ y :: post), Held all free lab f :=
    List.forall_mem_cons.mpr ⟨hrec.ctxHeld, hrec.held⟩
  have hsub : pagesOf k.mem (pre ++ post) ⊆ pagesOf k.mem (pre ++ y :: post) :=
    pagesOf_mono ((List.sublist_cons_self y post).append_left pre).subset
  have hregion : pagesFrom (k.mem.word y 0) 0 (k.mem.word y 1).toNat ⊆ pagesOf k.mem (pre ++ y :: post) :=
    fun p hp => ⟨y, by simp, hp⟩
  rcases hclean with hk | hk
  · have hy := hrec.held y (by simp)
    have hloop := hrec.owned.vmaUnmapPages (2 ^ 64) (i := 0) hrec.pm hrec.pm hrec.ctxHeld hy hrec.pagemap hk rfl rfl
      (Nat.zero_le _) ((k.mem.word y 1).isLt.le.trans (Nat.le_add_left _ _))
    rw [Nat.sub_zero, hrec.ctx_eq] at hloop
    obtain ⟨k₁, freed, he, ho, hg, hu⟩ := hloop
      ⟨fun hv => h.backing.page (hregion hv), fun hv hw => h.backing.inj (hregion hv) (hregion hw)⟩
      (fun v hv => ⟨h.apart (hregion hv) c (by simp), h.apart (hregion hv) y (by simp)⟩) (fun _ _ _ _ => .inl rfl)
    have hkept : ∀ f ∈ c :: (pre ++ y :: post), f ∉ freed := by
      intro f hf hff
      obtain ⟨_, v, hv, hvf⟩ := (hu.freed_iff f).mp hff
      exact h.apart (hregion hv) f hf hvf
    exact ⟨k₁, free ++ freed, he, ho, hg,
      fun f hf => ⟨(hheld f hf).append (hkept f hf), hu.word (hheld f hf) (hkept f hf)⟩,
      hu.backing hrec.pm h.backing hregion hsub (fun _ _ => .inl rfl), hu.eq_or_zero hrec.pm⟩
  · have hloop : vmaUnmapPages ctx (k.higherHalf y.1) (2 ^ 64) (BitVec.ofNat 64 0) k = k := by
      refine vmaUnmapPages_unmapped (2 ^ 64) (Nat.zero_le _) (fun j _ hj => ?_)
      rw [VmaRegion.size_eq] at hj
      rw [VmaRegion.start_eq]
      exact hk j hj
    exact ⟨k, free, hloop, hrec.owned, .refl k, fun f hf => ⟨hheld f hf, fun _ => rfl⟩,
      ⟨fun hv => h.backing.page (hsub hv), fun hv hw => h.backing.inj (hsub hv) (hsub hw)⟩, fun _ => .inl rfl⟩

/-- The record that the walk finds is taken out. -/
theorem remove (h : VmaLinked k ctx all free lab r c (pre ++ y :: post))
    (hfind : vmaFind k ptr vmaMaxRegions (VmaContext.root k ctx) = some (k.higherHalf y.1))
    (hclean : k.kernelPagemap = k.higherHalf r.1 ∨
      ∀ j < (k.mem.word y 1).toNat, virtToPhys k k.kernelPagemap (pageAt (k.mem.word y 0) j) = 0) :
    ∃ k' free', vmaFree k ctx ptr = some k' ∧ VmaLinked k' ctx all free' lab r c (pre ++ post) ∧
      ∀ f ∈ pre ++ post, k'.mem.word f 0 = k.mem.word f 0 := by
  obtain ⟨k₁, free₁, hloop, ho₁, hg₁, hkept, hback, htrans⟩ := h.unload hclean
  obtain ⟨k', hres, hrec, hg, hlook, hword⟩ := h.records.release h.prev_eq hfind hloop ho₁ hg₁
    (fun f hf => (hkept f hf).1) (fun f hf => (hkept f hf).2)
  have hmem : pre ++ post ⊆ pre ++ y :: post := ((List.sublist_cons_self y post).append_left pre).subset
  have hfield : ∀ f ∈ pre ++ post, ∀ j, j ≠ 3 → j ≠ 4 → k'.mem.word f j = k.mem.word f j := by
    intro f hf j hj hj'
    rw [hword f hf j hj, if_neg (fun hx => hj' hx.2)]
  have hpages : pagesOf k'.mem (pre ++ post) = pagesOf k.mem (pre ++ post) :=
    pagesOf_congr (fun f hf => hfield f hf 0 (by decide) (by decide)) (fun f hf => hfield f hf 1 (by decide) (by decide))
  have hlook' : ∀ v, translation k'.mem r v = translation k₁.mem r v := fun v => hlook r h.records.pm v
  have hsub : pagesOf k.mem (pre ++ post) ⊆ pagesOf k.mem (pre ++ y :: post) := pagesOf_mono hmem
  have hapart : ∀ {v}, pageNo v ∈ pagesOf k.mem (pre ++ post) → ∀ f ∈ c :: (pre ++ y :: post), translation k₁.mem r v ≠ f.1 := by
    intro v hv f hf
    rcases htrans v with he | he
    · rw [he]
      exact h.apart (hsub hv) f hf
    · rw [he]
      exact (h.records.owned.stack.nonzero f (hkept f hf).1.mem).symm
  have hb' : Back (VmaRegion.prev k') 0 (k.pointers pre ++ k.pointers post) := by
    have hb := h.back
    rw [pointers_append, pointers_cons] at hb
    have hprev : ∀ f ∈ pre ++ post, VmaRegion.prev k' (k.higherHalf f.1) =
        if post.head? = some f then k.link pre.getLast? else VmaRegion.prev k (k.higherHalf f.1) := by
      intro f hf
      rw [VmaRegion.prev_eq, ← hg.higherHalf, VmaRegion.prev_eq, hword f hf 4 (by decide)]
      exact if_congr (and_iff_left rfl) rfl rfl
    have hnd := h.records.nodup
    refine hb.remove (fun q hq => ?_) (fun q hq => ?_) (fun q hq => ?_)
    · obtain ⟨f, hf, rfl⟩ := mem_pointers.mp hq
      rw [hprev f (by simp [hf]), if_neg]
      intro hx
      exact (List.nodup_append'.mp hnd).2.2 hf (by simp [List.mem_of_head? hx])
    · rw [State.pointers, List.head?_map, Option.mem_map] at hq
      obtain ⟨f, hf, rfl⟩ := hq
      rw [hprev f (by simp [List.mem_of_head? hf]), if_pos (Option.mem_def.mp hf), pointers_getLast]
    · cases post with
      | nil => simp [State.pointers] at hq
      | cons g post =>
          rw [pointers_cons, List.tail_cons] at hq
          obtain ⟨f, hf, rfl⟩ := mem_pointers.mp hq
          rw [hprev f (by simp [hf]), if_neg]
          rintro ⟨⟩
          have hnd' := (List.nodup_cons.mp (List.nodup_append'.mp hnd).2.1).2
          exact (List.nodup_cons.mp hnd').1 hf
  refine ⟨k', free₁ ++ [y], hres, ⟨hrec, ?_, ⟨fun {v} hv => ?_, fun {v w} hv hw => ?_⟩, fun {v} hv f hf => ?_⟩,
    fun f hf => hfield f hf 0 (by decide) (by decide)⟩
  · rwa [hg.pointers, pointers_append]
  · rw [hpages] at hv
    rw [hlook']
    refine (hback.page hv).imp_right fun hpage => ?_
    obtain ⟨d, hd, hdh⟩ := hpage
    refine ⟨d, hd, hdh.release ?_⟩
    rintro rfl
    exact hapart hv d (by simp) hd
  · rw [hpages] at hv hw
    rw [hlook', hlook']
    exact hback.inj hv hw
  · rw [hpages] at hv
    rw [hlook']
    refine hapart hv f ?_
    rw [List.mem_cons] at hf ⊢
    exact hf.imp_right (fun hf => hmem hf)

end VmaLinked

/-! ## Runs -/

namespace VmaLinkInv

variable {s s' : State × List U64}

theorem linked (h : VmaLinkInv ctx s) :
    (∃ rs, DoublyLinked s.1 ctx rs ∧ s.2.Subperm (rs.map (VmaRegion.start s.1))) ∧ VmaOp.Returns ctx s.1 := by
  obtain ⟨all, free, lab, r, c, fs, hl, hlive⟩ := h
  refine ⟨⟨s.1.pointers fs, hl.doublyLinked, ?_⟩, fun size flags => vmaAlloc_ne_none ?_, fun ptr => vmaFree_ne_none ?_⟩
  · rw [State.pointers, List.map_map]
    have hstart : (VmaRegion.start s.1 ∘ fun f => s.1.higherHalf f.1) = fun f => s.1.mem.word f 0 :=
      funext (fun f => VmaRegion.start_eq s.1 f)
    rwa [hstart]
  · rw [hl.records.vmaFindGap_eq]
    simp
  · rw [hl.records.vmaFind_eq]
    simp

theorem create (h : Owned k all free lab) (hr : lab r = some (r, [])) (hr0 : k.higherHalf r.1 ≠ 0)
    (hres : vmaCreateContext k (k.higherHalf r.1) = (ctx, k')) (hoom : k'.outOfMemory = false) :
    VmaLinkInv ctx (k', []) := by
  obtain ⟨free', c, a, hl, hsize, hnext, _⟩ := h.vmaCreateContext hr hr0 hres hoom
  have hpages : pagesOf k'.mem [a] = ∅ := by
    ext p
    simp [pagesOf, hsize, pagesFrom_zero]
  have hrec : VmaRecords k' ctx all free' lab r c [a] := by
    refine ⟨hl.owned, hl.pm, hl.pm0, hl.ctx_eq, hl.ctxHeld, by simpa using hl.held, by simpa using hl.ne, hl.pagemap, ?_⟩
    refine ⟨hl.ctx_root, hl.owned.mapped hl.held, ?_⟩
    rw [VmaRegion.next_eq, hnext]
    rfl
  refine ⟨all, free', lab, r, c, [a], ⟨hrec, ⟨?_, trivial⟩, ⟨?_, ?_⟩, ?_⟩, List.nil_subperm⟩
  · rw [VmaRegion.prev_eq, hl.prev]
  · rw [hpages]
    exact fun hv => absurd hv (Set.notMem_empty _)
  · rw [hpages]
    exact fun hv => absurd hv (Set.notMem_empty _)
  · rw [hpages]
    exact fun hv => absurd hv (Set.notMem_empty _)

theorem alloc {live : List U64} (h : VmaLinkInv ctx (k, live)) (hgap : NoGap k ctx) (hfl : flags &&& addrMask = 0)
    (hroom : 4 * size.toNat + 1 ≤ k.stack.idx.toNat) (hres : vmaAlloc k ctx size flags = some (ptr, k')) :
    VmaLinkInv ctx (k', if ptr = 0 then live else ptr :: live) := by
  obtain ⟨all, free, lab, r, c, fs, hl, hlive⟩ := h
  simp only at hl hlive
  have hrec := hl.records
  by_cases hne : fs = []
  · subst hne
    -- a list without a root region: nothing is allocated
    have hroot : VmaContext.root k ctx = 0 := hrec.root_eq
    simp only [vmaAlloc, hroot, true_or, or_true, ↓reduceIte, Option.some.injEq, Prod.mk.injEq] at hres
    obtain ⟨rfl, rfl⟩ := hres
    exact ⟨all, free, lab, r, c, [], hl, hlive⟩
  · obtain ⟨pre, x, post, rfl, hfind, hx, _⟩ := hrec.gap hne
    obtain rfl := VmaLinked.last_of_noGap hrec hx hgap
    rw [hrec.owned.stack.idx] at hroom
    obtain ⟨b, free₁, free', lab', hrec', ha⟩ := hrec.allocate hfind hres (.inl hroom)
    refine ⟨all, free', lab', r, c, pre ++ [x, b], hl.concat hrec' ha hfl, ?_⟩
    have hstart : ((pre ++ [x, b]).map fun f => k'.mem.word f 0) = ((pre ++ [x]).map fun f => k.mem.word f 0) ++ [ptr] := by
      have hsplit : pre ++ [x, b] = (pre ++ [x]) ++ [b] := by simp
      rw [hsplit, List.map_append, List.map_singleton, ha.start]
      refine congrArg (· ++ [ptr]) (List.map_congr_left (fun f hf => ?_))
      exact ha.word (hrec.held f hf) 0 (.inr (by decide))
    simp only [hstart]
    split
    · exact hlive.trans (List.sublist_append_left _ _).subperm
    · exact ((List.subperm_cons ptr).mpr hlive).trans (List.perm_append_singleton _ _).symm.subperm

theorem release {live : List U64} (h : VmaLinkInv ctx (k, live)) (hmem : ptr ∈ live)
    (hclean : VmaOp.KeepsLinks ctx (k, live) (.free ptr)) (hres : vmaFree k ctx ptr = some k') :
    VmaLinkInv ctx (k', live.erase ptr) := by
  obtain ⟨all, free, lab, r, c, fs, hl, hlive⟩ := h
  simp only at hl hlive
  have hrec := hl.records
  obtain ⟨f, hf, hfp⟩ := List.mem_map.mp (hlive.subset hmem)
  obtain ⟨pre, y, post, rfl, hy, hfind, _⟩ := hrec.find hf hfp
  have hclean' : k.kernelPagemap = k.higherHalf r.1 ∨
      ∀ j < (k.mem.word y 1).toNat, virtToPhys k k.kernelPagemap (pageAt (k.mem.word y 0) j) = 0 := by
    refine hclean.imp (fun hk => ?_) (fun hk j hj => ?_)
    · rw [← hk, ← hrec.ctx_eq, VmaContext.pagemap_eq, hrec.pagemap]
    · rw [hy]
      refine hk _ hrec.list (k.higherHalf y.1) (higherHalf_mem_pointers.mpr (by simp)) ?_ j ?_
      · rw [VmaRegion.start_eq, hy]
      · rwa [VmaRegion.size_eq]
  obtain ⟨k₁, free', hres', hl', hword⟩ := hl.remove hfind hclean'
  cases hres.symm.trans hres'
  refine ⟨all, free', lab, r, c, pre ++ post, hl', ?_⟩
  have hstart : ((pre ++ post).map fun f => k'.mem.word f 0) = (pre ++ post).map fun f => k.mem.word f 0 :=
    List.map_congr_left hword
  have hperm : ((pre ++ y :: post).map fun f => k.mem.word f 0).Perm (ptr :: (pre ++ post).map fun f => k.mem.word f 0) := by
    rw [← hy]
    exact List.perm_middle.map _
  simp only [hstart]
  have herase := (hlive.trans hperm.subperm).erase ptr
  rwa [List.erase_cons_head] at herase

theorem step {op : VmaOp} (h : VmaLinkInv ctx s) (hc : op.KeepsLinks ctx s) (he : op.call ctx s = some s') :
    VmaLinkInv ctx s' := by
  obtain ⟨k, live⟩ := s
  cases op with
  | alloc size flags =>
      simp only [VmaOp.call] at he
      split at he
      · cases he
      · rename_i ptr k' hres
        obtain ⟨hgap, hfl, hroom⟩ := hc
        cases he
        exact h.alloc hgap hfl hroom hres
  | free ptr =>
      simp only [VmaOp.call] at he
      split at he
      · rename_i hmem
        split at he
        · cases he
        · rename_i k' hres
          cases he
          exact h.release hmem hc hres
      · cases he

end VmaLinkInv

end ShadowOS.Mm
