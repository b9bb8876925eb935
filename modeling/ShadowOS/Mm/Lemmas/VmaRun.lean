import ShadowOS.Mm.Lemmas.Regions

/-!
# Regions over whole runs
-/

namespace ShadowOS.Mm

variable {k : State} {all free : List Frame} {lab : Labels} {c a b r : Frame}

/-! ## The invariant -/

/-- The context `c` over the pagemap `r`, whose list starts with the region `a`. -/
structure VmaList (k : State) (ctx : U64) (all free : List Frame) (lab : Labels) (r c a : Frame) : Prop where
  owned : Owned k all free lab
  pm : lab r = some (r, [])
  pm0 : k.higherHalf r.1 ≠ 0
  ctx_eq : k.higherHalf c.1 = ctx
  ctxHeld : Held all free lab c
  held : Held all free lab a
  ne : c ≠ a
  pagemap : k.mem.word c 0 = k.higherHalf r.1
  root : k.mem.word c 1 = k.higherHalf a.1
  start : k.mem.word a 0 = vmaStart
  size : (k.mem.word a 1).toNat ≤ 2 ^ 52
  prev : k.mem.word a 4 = 0

/-- The second and last region `b` is in use. -/
structure VmaBusy (k : State) (all free : List Frame) (lab : Labels) (r c a b : Frame) (live : List LiveRegion) : Prop where
  live_eq : live = [⟨k.mem.word b 0, k.mem.word b 1⟩]
  held : Held all free lab b
  ne : b ≠ a
  ctx_ne : c ≠ b
  link : k.mem.word a 3 = k.higherHalf b.1
  start : k.mem.word b 0 = k.mem.word a 0 + k.mem.word a 1
  size_pos : k.mem.word b 1 ≠ 0
  size : (k.mem.word b 1).toNat ≤ 2 ^ 52
  next : k.mem.word b 3 = 0
  prev : k.mem.word b 4 = k.higherHalf a.1
  aligned : (k.mem.word b 0).toNat % 4096 = 0
  backing : Backing all free lab (pagesFrom (k.mem.word b 0) 0 (k.mem.word b 1).toNat) (translation k.mem r)
  apart : ∀ v, pageNo v ∈ pagesFrom (k.mem.word b 0) 0 (k.mem.word b 1).toNat → ∀ f ∈ [c, a, b],
    translation k.mem r v ≠ f.1

/-- At most one region is in use, and it comes right after the root region. -/
def VmaInv (ctx : U64) (s : State × List LiveRegion) : Prop :=
  ∃ all free lab r c a, VmaList s.1 ctx all free lab r c a ∧
    (s.2 = [] ∧ s.1.mem.word a 3 = 0 ∨ ∃ b, VmaBusy s.1 all free lab r c a b s.2)

theorem VmaInv.liveOk {ctx : U64} {s : State × List LiveRegion} (h : VmaInv ctx s) : LiveOk s.2 := by
  obtain ⟨all, free, lab, r, c, a, _, ⟨hl, _⟩ | ⟨b, hb⟩⟩ := h
  · rw [hl]
    exact ⟨by simp, .nil⟩
  · rw [hb.live_eq]
    exact ⟨by simpa using hb.aligned, List.pairwise_singleton _ _⟩

namespace VmaList

variable {ctx : U64}

theorem ctx_root (h : VmaList k ctx all free lab r c a) : VmaContext.root k ctx = k.higherHalf a.1 := by
  rw [← h.ctx_eq, VmaContext.root_eq, h.root]

/-- Where the region after the root starts. -/
theorem end_toNat (h : VmaList k ctx all free lab r c a) :
    (k.mem.word a 0 + k.mem.word a 1).toNat = 4096 + (k.mem.word a 1).toNat := by
  have hs := h.size
  have hv : vmaStart.toNat = 4096 := rfl
  rw [h.start, BitVec.toNat_add, hv]
  omega

theorem end_ne_zero (h : VmaList k ctx all free lab r c a) : k.mem.word a 0 + k.mem.word a 1 ≠ 0 := by
  intro hz
  have hend := h.end_toNat
  rw [hz] at hend
  simp only [BitVec.ofNat_eq_ofNat, BitVec.toNat_ofNat] at hend
  omega

theorem findGap_idle (h : VmaList k ctx all free lab r c a) (hn : k.mem.word a 3 = 0) :
    vmaFindGap k vmaMaxRegions (k.higherHalf a.1) = some (k.higherHalf a.1) := by
  have ha0 := h.owned.mapped h.held
  have hmax : vmaMaxRegions = (2 ^ 52 - 1) + 1 := rfl
  rw [hmax, vmaFindGap]
  simp only [ha0, ↓reduceIte, VmaRegion.next_eq, hn, true_or]

theorem findGap_busy {live : List LiveRegion} (h : VmaList k ctx all free lab r c a)
    (hb : VmaBusy k all free lab r c a b live) :
    vmaFindGap k vmaMaxRegions (k.higherHalf a.1) = some (k.higherHalf b.1) := by
  have ha0 := h.owned.mapped h.held
  have hb0 := h.owned.mapped hb.held
  have hmax : vmaMaxRegions = (2 ^ 52 - 2) + 1 + 1 := rfl
  rw [hmax, vmaFindGap, vmaFindGap]
  simp only [ha0, hb0, ↓reduceIte, VmaRegion.next_eq, VmaRegion.start_eq, VmaRegion.size_eq, hb.link, hb.next, hb.start,
    BitVec.lt_irrefl, or_self, true_or]

/-- An allocation when no region is in use puts the new region right after the root. -/
theorem alloc_idle {k' : State} {size flags ptr : U64} (h : VmaList k ctx all free lab r c a)
    (hn : k.mem.word a 3 = 0) (hs : size ≠ 0) (hres : vmaAlloc k ctx size flags = some (ptr, k'))
    (hoom : k'.outOfMemory = false) : ptr = k.mem.word a 0 + k.mem.word a 1 ∧
      (flags &&& addrMask = 0 → ptr.toNat % 4096 = 0 → VmaInv ctx (k', [⟨ptr, size⟩])) := by
  rw [← h.ctx_eq] at hres
  obtain ⟨b, free₁, free', lab', hptr, hfree, hbn, hb, ho, hg, hw0, hw1, hw3, hw4, hlen, hback⟩ :=
    h.owned.vmaAlloc h.pm h.pm0 h.ctxHeld h.held h.held h.ne h.pagemap h.root (h.findGap_idle hn) hres (.inr hoom)
  refine ⟨hptr, fun hfl hal => ?_⟩
  have hbf : b ∈ free := by rw [hfree]; simp
  have hsub : free₁ ⊆ free := by rw [hfree]; exact List.subset_append_left _ _
  have hcb : c ≠ b := by rintro rfl; exact h.ctxHeld.notFree hbf
  have hba : b ≠ a := by rintro rfl; exact h.held.notFree hbf
  have hword : ∀ g, Held all free lab g → ∀ j, g ≠ a ∨ j ≠ 3 → k'.mem.word g j = k.mem.word g j := by
    intro g hgh j hgj
    rw [hg.word hgh, Mem.word_store64, if_neg]
    rintro ⟨rfl, rfl⟩
    simp at hgj
  have hhh : ∀ p, k'.higherHalf p = k.higherHalf p := hg.globals.higherHalf
  have hlen' : free.length ≤ 2 ^ 52 := Frame.length_le_of_nodup h.owned.stack.nodup
  have hbk := hback hfl
  refine ⟨all, free', lab', r, c, a, ⟨ho, hg.keep h.pm, ?_, ?_, hg.held h.ctxHeld, hg.held h.held, h.ne, ?_, ?_, ?_, ?_, ?_⟩,
    .inr ⟨b, ?_, hb, hba, hcb, ?_, ?_, ?_, ?_, ?_, ?_, ?_, ?_, ?_⟩⟩
  · rw [hhh]
    exact h.pm0
  · rw [hhh]
    exact h.ctx_eq
  · rw [hword c h.ctxHeld 0 (.inl h.ne), hhh, h.pagemap]
  · rw [hword c h.ctxHeld 1 (.inl h.ne), hhh, h.root]
  · rw [hword a h.held 0 (.inr (by decide)), h.start]
  · rw [hword a h.held 1 (.inr (by decide))]
    exact h.size
  · rw [hword a h.held 4 (.inr (by decide)), h.prev]
  · rw [hw0, hw1]
  · rw [hg.word h.held, hhh, Mem.word_store64]
    simp
  · rw [hw0, hword a h.held 0 (.inr (by decide)), hword a h.held 1 (.inr (by decide)), hptr]
  · rw [hw1]
    exact hs
  · rw [hw1]
    omega
  · rw [hw3, hn]
  · rw [hw4, hhh]
  · rw [hw0]
    exact hal
  · rw [hw0, hw1]
    refine ⟨fun hv => ?_, fun hv hw heq _ => hbk.inj hv hw heq⟩
    obtain ⟨d, hd, _, hdh⟩ := hbk.page hv
    exact .inr ⟨d, hd, hdh⟩
  · rw [hw0, hw1]
    intro v hv f hf heq
    obtain ⟨d, hd, hdf, _⟩ := hbk.page hv
    have hdfe : d = f := Subtype.ext (hd.symm.trans heq)
    subst hdfe
    simp only [List.mem_cons, List.not_mem_nil, or_false] at hf
    rcases hf with rfl | rfl | rfl
    · exact h.ctxHeld.notFree (hsub hdf)
    · exact h.held.notFree (hsub hdf)
    · exact hbn.notFree hdf

/-- An allocation when the region `b` is in use starts in the middle of its pages. -/
theorem alloc_busy {k' : State} {size flags ptr : U64} {live : List LiveRegion} (h : VmaList k ctx all free lab r c a)
    (hb : VmaBusy k all free lab r c a b live) (hres : vmaAlloc k ctx size flags = some (ptr, k'))
    (hoom : k'.outOfMemory = false) : ptr = k.mem.word b 0 + k.mem.word b 1 := by
  rw [← h.ctx_eq] at hres
  obtain ⟨_, _, _, _, hptr, _⟩ := h.owned.vmaAlloc h.pm h.pm0 h.ctxHeld h.held hb.held hb.ctx_ne h.pagemap h.root
    (h.findGap_busy hb) hres (.inr hoom)
  exact hptr

/-- While the root region has no pages, it is the root record that is found and taken out. -/
theorem free_root {k' : State} {live : List LiveRegion} (h : VmaList k ctx all free lab r c a)
    (hb : VmaBusy k all free lab r c a b live) (hz : k.mem.word a 1 = 0)
    (hres : vmaFree k ctx (k.mem.word b 0) = some k') : VmaInv ctx (k', []) := by
  have hc0 := h.owned.mapped h.ctxHeld
  have ha0 := h.owned.mapped h.held
  have hstart : k.mem.word b 0 = k.mem.word a 0 := by
    rw [hb.start, hz]
    exact BitVec.add_zero _
  have hfind : vmaFind k (k.mem.word b 0) vmaMaxRegions (k.higherHalf a.1) = some (k.higherHalf a.1) := by
    have hmax : vmaMaxRegions = (2 ^ 52 - 1) + 1 := rfl
    rw [hmax, vmaFind]
    simp only [ha0, ↓reduceIte, VmaRegion.start_eq, hstart]
  have hsize : VmaRegion.size k (k.higherHalf a.1) = 0 := by rw [VmaRegion.size_eq, hz]
  have hloop : vmaUnmapPages (k.higherHalf c.1) (k.higherHalf a.1) (2 ^ 64) 0 k = k :=
    vmaUnmapPages_unmapped (2 ^ 64) (i := 0) (by omega) (fun j _ hj => by rw [hsize] at hj; simp at hj)
  obtain ⟨k₁, he, ho, hg, _, hw⟩ := h.owned.unlink (p := none) (n := some b) h.ctxHeld h.held (by simp)
    (by rintro f ⟨⟩; exact ⟨hb.held, Ne.symm hb.ctx_ne⟩)
  rw [link_none, link_some] at he
  rw [← h.ctx_eq] at hres
  simp only [vmaFree, hc0, ↓reduceIte, VmaContext.root_eq, h.root, hfind, Option.bind_eq_bind, Option.bind_some, ha0,
    VmaRegion.prev_eq, VmaRegion.next_eq, h.prev, hb.link, hloop, he, Option.pure_def, Option.some.injEq] at hres
  subst hres
  simp only [link_none, link_some] at hw
  have hc := hw c h.ctxHeld
  have hb' := hw b hb.held
  have hbc : ¬ b = c := fun hx => hb.ctx_ne hx.symm
  have hhh := hg.higherHalf
  refine ⟨all, free ++ [a], lab, r, c, b, ⟨ho, h.pm, ?_, ?_, h.ctxHeld.release h.ne, hb.held.release hb.ne, hb.ctx_ne, ?_, ?_,
    ?_, ?_, ?_⟩, .inl ⟨rfl, ?_⟩⟩
  · rw [hhh]
    exact h.pm0
  · rw [hhh, h.ctx_eq]
  · rw [hc, hhh, ← h.pagemap]
    simp [Ne.symm hb.ctx_ne]
  · rw [hc, hhh, h.root]
    simp
  · rw [hb', ← h.start, ← hstart]
    simp [hbc]
  · rw [hb']
    simpa [hbc] using hb.size
  · rw [hb']
    simp [hbc]
  · rw [hb', ← hb.next]
    simp [hbc]

/-- Otherwise the pages of the last region are released and its record is taken out. -/
theorem free_last {k' : State} {live : List LiveRegion} (h : VmaList k ctx all free lab r c a)
    (hb : VmaBusy k all free lab r c a b live) (hz : k.mem.word a 1 ≠ 0)
    (hclean : k.mem.word c 0 = k.kernelPagemap ∨
      ∀ j < (k.mem.word b 1).toNat, virtToPhys k k.kernelPagemap (pageAt (k.mem.word b 0) j) = 0)
    (hres : vmaFree k ctx (k.mem.word b 0) = some k') : VmaInv ctx (k', []) := by
  have hc0 := h.owned.mapped h.ctxHeld
  have ha0 := h.owned.mapped h.held
  have hb0 := h.owned.mapped hb.held
  have hstart : k.mem.word a 0 ≠ k.mem.word b 0 := by
    intro he
    rw [hb.start] at he
    exact hz (BitVec.self_eq_add_right.mp he)
  have hfind : vmaFind k (k.mem.word b 0) vmaMaxRegions (k.higherHalf a.1) = some (k.higherHalf b.1) := by
    have hmax : vmaMaxRegions = (2 ^ 52 - 2) + 1 + 1 := rfl
    rw [hmax, vmaFind, vmaFind]
    simp only [ha0, hb0, ↓reduceIte, VmaRegion.start_eq, hstart, VmaRegion.next_eq, hb.link]
  have hloop : ∃ k₁ free₁, vmaUnmapPages (k.higherHalf c.1) (k.higherHalf b.1) (2 ^ 64) 0 k = k₁ ∧
      Owned k₁ all free₁ lab ∧ SameGlobals k k₁ ∧
      ∀ g ∈ [c, a, b], Held all free₁ lab g ∧ ∀ j, k₁.mem.word g j = k.mem.word g j := by
    have hheld : ∀ g ∈ [c, a, b], Held all free lab g := by
      simpa using ⟨h.ctxHeld, h.held, hb.held⟩
    rcases hclean with hk | hk
    · have hloop := h.owned.vmaUnmapPages (2 ^ 64) (i := 0) h.pm h.pm h.ctxHeld hb.held h.pagemap
        (hk.symm.trans h.pagemap) rfl rfl (Nat.zero_le _) ((k.mem.word b 1).isLt.le.trans (Nat.le_add_left _ _))
      rw [Nat.sub_zero] at hloop
      obtain ⟨k₁, freed, he, ho, hg, hu⟩ := hloop hb.backing
        (fun v hv => ⟨hb.apart v hv c (by simp), hb.apart v hv b (by simp)⟩) (fun _ _ _ _ => .inl rfl)
      have hkept : ∀ g ∈ [c, a, b], g ∉ freed := by
        intro g hg hgf
        obtain ⟨_, v, hv, hvg⟩ := (hu.freed_iff g).mp hgf
        exact hb.apart v hv g hg hvg
      exact ⟨k₁, free ++ freed, he, ho, hg, fun g hg => ⟨(hheld g hg).append (hkept g hg), hu.word (hheld g hg) (hkept g hg)⟩⟩
    · refine ⟨k, free, vmaUnmapPages_unmapped (2 ^ 64) (i := 0) (Nat.zero_le _) (fun j _ hj => ?_), h.owned, .refl k,
        fun g hg => ⟨hheld g hg, fun _ => rfl⟩⟩
      rw [VmaRegion.size_eq] at hj
      rw [VmaRegion.start_eq]
      exact hk j hj
  obtain ⟨k₁, free₁, he₁, ho₁, hg₁, hf₁⟩ := hloop
  obtain ⟨hc₁, hwc₁⟩ := hf₁ c (by simp)
  obtain ⟨ha₁, hwa₁⟩ := hf₁ a (by simp)
  obtain ⟨hb₁, hwb₁⟩ := hf₁ b (by simp)
  obtain ⟨k₂, he₂, ho₂, hg₂, _, hw₂⟩ := ho₁.unlink (p := some a) (n := none) hc₁ hb₁
    (by rintro f ⟨⟩; exact ⟨ha₁, Ne.symm h.ne⟩) (by simp)
  simp only [link_none, link_some, reduceCtorEq, Option.some.injEq, false_and, ↓reduceIte] at he₂ hw₂
  rw [hg₁.higherHalf, hg₁.higherHalf, hg₁.higherHalf] at he₂
  rw [← h.ctx_eq] at hres
  simp only [vmaFree, hc0, ↓reduceIte, VmaContext.root_eq, h.root, hfind, Option.bind_eq_bind, Option.bind_some, hb0,
    VmaRegion.prev_eq, VmaRegion.next_eq, hb.prev, hb.next, he₁, he₂, Option.pure_def, Option.some.injEq] at hres
  subst hres
  have hhh := (hg₁.trans hg₂).higherHalf
  have hroot : k₁.mem.word c 1 ≠ k₁.higherHalf b.1 := by
    rw [hwc₁, h.root, hg₁.higherHalf, ne_eq, Owned.higherHalf_inj]
    exact Ne.symm hb.ne
  have hwc : ∀ j, k₂.mem.word c j = k.mem.word c j := by
    intro j
    rw [hw₂ c hc₁, if_neg hroot]
    split
    · rename_i hj
      rw [hj.2, hwc₁]
    · rw [if_neg (fun hx => h.ne hx.1.symm), hwc₁]
  have hwa : ∀ j, k₂.mem.word a j = if j = 3 then 0 else k.mem.word a j := by
    intro j
    rw [hw₂ a ha₁, if_neg (fun hx => h.ne hx.1.symm), hwa₁]
    exact if_congr (and_iff_right rfl) rfl rfl
  refine ⟨all, free₁ ++ [b], lab, r, c, a, ⟨ho₂, h.pm, ?_, ?_, hc₁.release hb.ctx_ne, ha₁.release (Ne.symm hb.ne), h.ne, ?_, ?_,
    ?_, ?_, ?_⟩, .inl ⟨rfl, ?_⟩⟩
  · rw [hhh]
    exact h.pm0
  · rw [hhh, h.ctx_eq]
  · rw [hwc, hhh, h.pagemap]
  · rw [hwc, hhh, h.root]
  · rw [hwa, if_neg (by decide), h.start]
  · rw [hwa, if_neg (by decide)]
    exact h.size
  · rw [hwa, if_neg (by decide), h.prev]
  · rw [hwa, if_pos rfl]

end VmaList

/-! ## Walks end -/

theorem vmaAlloc_ne_none {ctx size flags : U64} (h : vmaFindGap k vmaMaxRegions (VmaContext.root k ctx) ≠ none) :
    vmaAlloc k ctx size flags ≠ none := by
  obtain ⟨region, hr⟩ := Option.ne_none_iff_exists'.mp h
  simp only [vmaAlloc, hr, Option.bind_eq_bind, Option.bind_some, Option.pure_def, ← apply_ite]
  simp

theorem vmaFree_ne_none {ctx ptr : U64} (h : vmaFind k ptr vmaMaxRegions (VmaContext.root k ctx) ≠ none) :
    vmaFree k ctx ptr ≠ none := by
  obtain ⟨region, hr⟩ := Option.ne_none_iff_exists'.mp h
  simp only [vmaFree, hr, Option.bind_eq_bind, Option.bind_some, Option.pure_def, ← apply_ite]
  simp

theorem VmaInv.returns {ctx : U64} {s : State × List LiveRegion} (h : VmaInv ctx s) : VmaOp.Returns ctx s.1 := by
  obtain ⟨k, live⟩ := s
  obtain ⟨all, free, lab, r, c, a, hl, hshape⟩ := h
  simp only at hl hshape ⊢
  have ha0 := hl.owned.mapped hl.held
  have hmax : vmaMaxRegions = (2 ^ 52 - 3) + 1 + 1 + 1 := rfl
  rcases hshape with ⟨_, hn⟩ | ⟨b, hb⟩
  · refine ⟨fun size flags => vmaAlloc_ne_none ?_, fun ptr => vmaFree_ne_none ?_⟩
    · rw [hl.ctx_root, hl.findGap_idle hn]
      simp
    · rw [hl.ctx_root, hmax, vmaFind, vmaFind]
      simp only [ha0, ↓reduceIte, VmaRegion.next_eq, hn]
      split
      · simp
      · simp
  · have hb0 := hl.owned.mapped hb.held
    refine ⟨fun size flags => vmaAlloc_ne_none ?_, fun ptr => vmaFree_ne_none ?_⟩
    · rw [hl.ctx_root, hl.findGap_busy hb]
      simp
    · rw [hl.ctx_root, hmax, vmaFind, vmaFind, vmaFind]
      simp only [ha0, hb0, ↓reduceIte, VmaRegion.next_eq, hb.link, hb.next]
      split
      · simp
      · split
        · simp
        · simp

/-! ## A new context -/

theorem vmaCreateContext_oom {k k' : State} {pm ctx : U64} (hres : vmaCreateContext k pm = (ctx, k'))
    (hoom : k'.outOfMemory = false) : (pmmRequestPage k).2.outOfMemory = false := by
  simp only [vmaCreateContext] at hres
  split at hres
  · rw [(Prod.mk.inj hres).2]
    exact hoom
  · split at hres
    · rw [← (Prod.mk.inj hres).2, pmmReleasePage_oom, State.store_oom] at hoom
      have hoom' := pmmRequestPage_oom hoom
      rwa [State.memset_oom] at hoom'
    · rw [← (Prod.mk.inj hres).2, State.store_oom, State.store_oom, State.store_oom, State.store_oom] at hoom
      have hoom' := pmmRequestPage_oom hoom
      rwa [State.memset_oom] at hoom'

/-- A new context has a root region without pages. -/
theorem Owned.vmaCreateContext {k' : State} {ctx : U64} (h : Owned k all free lab) (hr : lab r = some (r, []))
    (hr0 : k.higherHalf r.1 ≠ 0) (hres : Mm.vmaCreateContext k (k.higherHalf r.1) = (ctx, k'))
    (hoom : k'.outOfMemory = false) :
    ∃ free' c a, VmaList k' ctx all free' lab r c a ∧ k'.mem.word a 1 = 0 ∧ k'.mem.word a 3 = 0 ∧
      Grows k free lab k' free' lab ∧ Mem.EqOutside {f | f ∈ free} k.mem k'.mem := by
  have hoom₁ := vmaCreateContext_oom hres hoom
  obtain ⟨k₁, free₁, c, rfl, he₁, ho₁, hg₁, hc, _, hm₁⟩ := h.requestPage (.inr hoom₁)
  have hc0 := ho₁.mapped hc
  unfold Mm.vmaCreateContext at hres
  simp only [he₁, hc0, ↓reduceIte, memset_frame] at hres
  have hfill := Mem.EqOutside.fill k₁.mem c 0 (n := 16) (by omega)
  have ho₁' := ho₁.write hfill (by rintro f rfl; exact hc)
  generalize hk₁ : ({ k₁ with mem := k₁.mem.fill c.1 0 16 } : State) = k₁' at hres ho₁'
  have hh₁ : ∀ p, k₁'.higherHalf p = k₁.higherHalf p := by
    intro p
    rw [← hk₁]
    rfl
  have hoom₂ : (pmmRequestPage k₁').2.outOfMemory = false := by
    split at hres
    · rwa [← (Prod.mk.inj hres).2, pmmReleasePage_oom, State.store_oom] at hoom
    · rwa [← (Prod.mk.inj hres).2, State.store_oom, State.store_oom, State.store_oom, State.store_oom] at hoom
  obtain ⟨k₂, free₂, a, rfl, he₂, ho₂, hg₂, ha, _, hm₂⟩ := ho₁'.requestPage (.inr hoom₂)
  have ha0 := ho₂.mapped ha
  have hca : c ≠ a := by rintro rfl; exact hc.notFree (by simp)
  have hac : ¬ a = c := fun hx => hca hx.symm
  have hc₂ := hg₂.held hc
  have hhh : ∀ p, k₂.higherHalf p = k.higherHalf p := by
    intro p
    rw [hg₂.globals.higherHalf, hh₁, hg₁.globals.higherHalf]
  rw [← hh₁, ← hg₂.globals.higherHalf] at hres
  simp only [he₂] at hres
  have hst : k₂.store (k₂.higherHalf c.1 + 8) (k₂.higherHalf a.1) = _ := store_field k₂ c 1 (d := 8) rfl (k₂.higherHalf a.1)
  rw [hst] at hres
  have hroot : ∀ m : Mem, m.word c 1 = k₂.higherHalf a.1 → VmaContext.root { k₂ with mem := m } (k₂.higherHalf c.1) = k₂.higherHalf a.1 :=
    fun m hm => (VmaContext.root_eq { k₂ with mem := m } c).trans hm
  have hs1 : ∀ (m : Mem) v, State.store { k₂ with mem := m } (k₂.higherHalf c.1) v = { k₂ with mem := m.store64 (c.slot 0) v } :=
    fun m v => store_field_zero { k₂ with mem := m } c v
  have hs2 : ∀ (m : Mem) v, State.store { k₂ with mem := m } (k₂.higherHalf a.1) v = { k₂ with mem := m.store64 (a.slot 0) v } :=
    fun m v => store_field_zero { k₂ with mem := m } a v
  have hs3 : ∀ (m : Mem) v, State.store { k₂ with mem := m } (k₂.higherHalf a.1 + 8) v = { k₂ with mem := m.store64 (a.slot 1) v } :=
    fun m v => store_field { k₂ with mem := m } a 1 (d := 8) rfl v
  rw [hroot _ (by simp [Mem.word_store64]), hs1, hroot _ (by simp [Mem.word_store64]), hs2,
    hroot _ (by simp [Mem.word_store64, hca]), hs3] at hres
  simp only [ha0, ↓reduceIte] at hres
  obtain ⟨hctx, hk'⟩ := Prod.mk.inj hres
  generalize hm : (((k₂.mem.store64 (c.slot 1) (k₂.higherHalf a.1)).store64 (c.slot 0) (k.higherHalf r.1)).store64
    (a.slot 0) vmaStart).store64 (a.slot 1) 0 = m at hk'
  have hout : Mem.EqOutside {c, a} k₂.mem m := by
    rw [← hm]
    exact (((Mem.EqOutside.store64 _ c 1 _).mono (by simp)).trans ((Mem.EqOutside.store64 _ c 0 _).mono (by simp))).trans
      (((Mem.EqOutside.store64 _ a 0 _).mono (by simp)).trans ((Mem.EqOutside.store64 _ a 1 _).mono (by simp)))
  have ho := ho₂.write hout (by rintro f (rfl | rfl); exacts [hc₂, ha])
  have hzero : ∀ j, k₂.mem.word a j = 0 := by
    intro j
    rw [hm₂, Mem.word_fill_zero]
    simp
  have hword : ∀ f j, m.word f j = if f = a ∧ j = 1 then 0 else if f = a ∧ j = 0 then vmaStart
      else if f = c ∧ j = 0 then k.higherHalf r.1 else if f = c ∧ j = 1 then k₂.higherHalf a.1 else k₂.mem.word f j := by
    intro f j
    rw [← hm, Mem.word_store64, Mem.word_store64, Mem.word_store64, Mem.word_store64]
  subst hk'
  have hcf : c ∈ free₂ ++ [a] ++ [c] := by simp
  have haf : a ∈ free₂ ++ [a] ++ [c] := by simp
  have hfree : ∀ f ∈ ({c, a} : Set Frame), f ∈ free₂ ++ [a] ++ [c] := by
    rintro f (rfl | rfl)
    · exact hcf
    · exact haf
  have hg₁' := hg₁.write hfill (by rintro f rfl; exact hcf)
  rw [hk₁] at hg₁'
  have hone : ∀ {f : Frame}, f ∈ free₂ ++ [a] ++ [c] → ({f} : Set Frame) ⊆ {f | f ∈ free₂ ++ [a] ++ [c]} := by
    rintro f hf g rfl
    exact hf
  refine ⟨free₂, c, a, ⟨ho, hr, ?_, hctx, hc₂, ha, hca, ?_, ?_, ?_, ?_, ?_⟩, ?_, ?_, (hg₁'.trans hg₂).write hout hfree, ?_⟩
  · exact (hhh r.1).trans_ne hr0
  · refine (hword c 0).trans ?_
    simp only [hca, false_and, ↓reduceIte, and_self]
    exact (hhh r.1).symm
  · refine (hword c 1).trans ?_
    simp [hca]
    rfl
  · exact (hword a 0).trans (by simp)
  · have hs := hword a 1
    simp only [and_self, ↓reduceIte] at hs
    simp only [hs]
    decide
  · exact (hword a 4).trans (by simp [hac, hzero])
  · exact (hword a 1).trans (by simp)
  · exact (hword a 3).trans (by simp [hac, hzero])
  · have hm₁' : Mem.EqOutside {c} k.mem k₁.mem := by
      rw [hm₁]
      exact .fill _ _ _ le_rfl
    have hm₂' : Mem.EqOutside {a} k₁'.mem k₂.mem := by
      rw [hm₂]
      exact .fill _ _ _ le_rfl
    have hfill' : Mem.EqOutside {c} k₁.mem k₁'.mem := by
      rw [← hk₁]
      exact hfill
    exact (((hm₁'.mono (hone hcf)).trans (hfill'.mono (hone hcf))).trans (hm₂'.mono (hone haf))).trans
      (hout.mono (fun f hf => hfree f hf))

theorem VmaInv.create {k' : State} {ctx : U64} (h : Owned k all free lab) (hr : lab r = some (r, []))
    (hr0 : k.higherHalf r.1 ≠ 0) (hres : Mm.vmaCreateContext k (k.higherHalf r.1) = (ctx, k'))
    (hoom : k'.outOfMemory = false) : VmaInv ctx (k', []) := by
  obtain ⟨free', c, a, hl, _, hn, _⟩ := h.vmaCreateContext hr hr0 hres hoom
  exact ⟨all, free', lab, r, c, a, hl, .inl ⟨rfl, hn⟩⟩

/-! ## Steps -/

namespace VmaInv

variable {ctx : U64} {s s' : State × List LiveRegion}

theorem exec_alloc {size flags : U64} (he : VmaOp.exec ctx s (.alloc size flags) = some s') :
    size ≠ 0 ∧ ∃ ptr k', vmaAlloc s.1 ctx size flags = some (ptr, k') ∧ k'.outOfMemory = false ∧
      s' = (k', if ptr = 0 then s.2 else ⟨ptr, size⟩ :: s.2) := by
  obtain ⟨k, live⟩ := s
  simp only [VmaOp.exec] at he
  split at he
  · cases he
  · rename_i hs
    refine ⟨hs, ?_⟩
    split at he
    · cases he
    · rename_i ptr k' hres
      split at he
      · cases he
      · rename_i hoom
        exact ⟨ptr, k', hres, by simpa using hoom, (Option.some.inj he).symm⟩

theorem exec_free {ptr : U64} (he : VmaOp.exec ctx s (.free ptr) = some s') :
    (∃ region ∈ s.2, region.start = ptr) ∧ ∃ k', vmaFree s.1 ctx ptr = some k' ∧
      s' = (k', s.2.eraseP fun region => region.start = ptr) := by
  obtain ⟨k, live⟩ := s
  simp only [VmaOp.exec] at he
  split at he
  · rename_i hany
    split at he
    · cases he
    · rename_i k' hres
      refine ⟨?_, k', hres, (Option.some.inj he).symm⟩
      simpa using hany
  · cases he

/-- An allocation that fits and a clean release keep the invariant. -/
theorem step {op : VmaOp} (h : VmaInv ctx s) (hd : op.Clean ctx s) (hf : op.Fits ctx s)
    (he : op.exec ctx s = some s') : VmaInv ctx s' := by
  obtain ⟨k, live⟩ := s
  obtain ⟨all, free, lab, r, c, a, hl, hshape⟩ := h
  simp only at hl hshape
  cases op with
  | alloc size flags =>
      obtain ⟨hs, ptr, k', hres, hoom, rfl⟩ := exec_alloc he
      obtain ⟨rfl, hal⟩ := hf
      rcases hshape with ⟨_, hn⟩ | ⟨b, hb⟩
      · obtain ⟨hptr, hinv⟩ := hl.alloc_idle hn hs hres hoom
        rw [hl.ctx_root, VmaRegion.start_eq, VmaRegion.size_eq, ← hptr] at hal
        have hp : ptr ≠ 0 := by
          rw [hptr]
          exact hl.end_ne_zero
        simp only [hp, ↓reduceIte]
        exact hinv hd hal
      · have hlive := hb.live_eq
        cases hlive
  | free ptr =>
      obtain ⟨⟨region, hmem, hstart⟩, k', hres, rfl⟩ := exec_free he
      simp only at hmem hres
      rcases hshape with ⟨rfl, _⟩ | ⟨b, hb⟩
      · cases hmem
      · have hlive := hb.live_eq
        rw [hlive, List.mem_singleton] at hmem
        have hptr : ptr = k.mem.word b 0 := by rw [← hstart, hmem]
        rw [hptr] at hres
        have hrest : live.eraseP (fun region => region.start = ptr) = [] := by
          rw [hlive, hptr]
          simp
        rw [hrest]
        by_cases hz : k.mem.word a 1 = 0
        · exact hl.free_root hb hz hres
        · simp only [VmaOp.Clean] at hd
          refine hl.free_last hb hz ?_ hres
          rcases hd with hk | hk
          · rw [← hl.ctx_eq, VmaContext.pagemap_eq] at hk
            exact .inl hk
          · rw [← hptr]
            exact .inr (hk ⟨k.mem.word b 0, k.mem.word b 1⟩ (by rw [hlive]; simp) hptr.symm)

/-- An allocation after which the regions are as they should be did fit. -/
theorem fits {op : VmaOp} (h : VmaInv ctx s) (he : op.exec ctx s = some s') (hp : LiveOk s'.2) : op.Fits ctx s := by
  obtain ⟨k, live⟩ := s
  obtain ⟨all, free, lab, r, c, a, hl, hshape⟩ := h
  simp only at hl hshape
  cases op with
  | alloc size flags =>
      obtain ⟨hs, ptr, k', hres, hoom, rfl⟩ := exec_alloc he
      have hend := hl.end_toNat
      rcases hshape with ⟨rfl, hn⟩ | ⟨b, hb⟩
      · obtain ⟨hptr, _⟩ := hl.alloc_idle hn hs hres hoom
        refine ⟨rfl, ?_⟩
        rw [hl.ctx_root, VmaRegion.start_eq, VmaRegion.size_eq, ← hptr]
        have hp0 : ptr ≠ 0 := by
          rw [hptr]
          exact hl.end_ne_zero
        simp only [hp0, ↓reduceIte] at hp
        exact hp.aligned ⟨ptr, size⟩ (by simp)
      · have hptr := hl.alloc_busy hb hres hoom
        have hsz := hb.size
        have hsa := hl.size
        have hpos : (k.mem.word b 1).toNat ≠ 0 := fun hz => hb.size_pos (BitVec.eq_of_toNat_eq hz)
        have hspos : size.toNat ≠ 0 := fun hz => hs (BitVec.eq_of_toNat_eq hz)
        have hp0 : ptr ≠ 0 := by
          rintro rfl
          have hz := congrArg BitVec.toNat hptr
          rw [BitVec.toNat_add, hb.start, hend] at hz
          simp only [BitVec.ofNat_eq_ofNat, BitVec.toNat_ofNat] at hz
          omega
        simp only [hp0, ↓reduceIte, hb.live_eq] at hp
        have hd := (List.pairwise_cons.mp hp.disjoint).1 _ (List.mem_singleton_self _) ptr
        refine absurd ⟨?_, ?_⟩ hd
        · simp only [LiveRegion.Contains, BitVec.sub_self, BitVec.toNat_ofNat]
          omega
        · simp only [LiveRegion.Contains, hptr]
          rw [BitVec.add_comm, BitVec.add_sub_cancel]
          omega
  | free ptr => trivial

end VmaInv

end ShadowOS.Mm
