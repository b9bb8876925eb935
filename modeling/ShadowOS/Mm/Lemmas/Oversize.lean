import ShadowOS.Mm.Lemmas.Client

/-!
# Requests that are too large

The sizes in the headers have 32 bits. On a heap without areas it can be followed what becomes of any request.
-/

namespace ShadowOS.Mm

variable {P : Type} {S : PageSource P} {held : P → Set PageRun} {m m' : Mem} {h h' : Heap P} {a n size reqSize maj : U64} {p' : P}

/-! ## The first area -/

/-- The header of a new area. -/
def newMajor (size : U32) : Major := ⟨0, 0, pagesFor size, pagesFor size * liballocPageSize, 40, 0⟩

/-- The heap after `allocate_new_page` got the pages at `a`. -/
def Heap.withPages (h : Heap P) (a : U64) (size : U32) (p' : P) (m' : Mem) : Heap P :=
  { h with
    pages := p'
    mem := Major.layout.store m' a (newMajor size)
    allocated := h.allocated + (pagesFor size * liballocPageSize).setWidth 64 }

theorem allocateNewPage_eq {size : U32} (hal : S.liballocAlloc h.pages h.mem (pagesFor size) = (a, p', m')) (h0 : a ≠ 0) :
    allocateNewPage S h size = (a, h.withPages a size p' m') := by
  simp only [allocateNewPage, hal, h0, ↓reduceIte]
  rfl

/-- The room that a new area claims to have. -/
theorem toNat_newMajor (size : U32) : (((newMajor size).size - (newMajor size).usage).setWidth 64 : U64).toNat =
    ((pagesFor size).toNat * 4096 + (2 ^ 32 - 40)) % 2 ^ 32 := by
  simp only [newMajor, BitVec.toNat_setWidth, BitVec.toNat_sub, BitVec.toNat_mul, liballocPageSize, BitVec.ofNat_eq_ofNat,
    BitVec.toNat_ofNat]
  omega

theorem takeFrom_first (hfirst : (h.major maj).first = 0) :
    takeFrom h maj size reqSize = .ok (some (h.addMinor maj 0 0 (maj + headerSize) size reqSize)) := by
  simp only [takeFrom, hfirst, ↓reduceIte]

theorem pages_addMinor : (h.addMinor maj 0 0 (maj + headerSize) size reqSize).2.pages = h.pages := rfl

theorem allocated_addMinor : (h.addMinor maj 0 0 (maj + headerSize) size reqSize).2.allocated = h.allocated := rfl

/-- How many pages a request asks for. -/
def requestPages (n : U64) : U32 := pagesFor ((n + (16 + 16)).setWidth 32)

/-- The heap has got its first area, at `a`, and the loop starts there. -/
structure Started (S : PageSource P) (held : P → Set PageRun) (h : Heap P) (n a : U64) (h₁ : Heap P) : Prop where
  loop : kmalloc S h n = kmallocLoop S (n + (16 + 16)) n liballocMaxTurns a false 0 h₁
  ne : a ≠ 0
  major : h₁.major a = newMajor ((n + (16 + 16)).setWidth 32)
  allocated : h₁.allocated = (requestPages n * liballocPageSize).setWidth 64
  held : held h₁.pages = {(a, requestPages n)}
  stop_le : PageRun.stop (a, requestPages n) ≤ 2 ^ 64

theorem kmalloc_started {p : U64} (hS : S.Ok held) (hr : h.Rep held []) (hn : n.toNat + 72 < 2 ^ 64)
    (hres : kmalloc S h n = .ok (p, h')) (hp : p ≠ 0) : ∃ a h₁, Started S held h n a h₁ := by
  have hroot : h.memRoot = 0 := hr.linked.chain.eq_head
  have hbest : h.bestBet = 0 := by simpa using hr.best
  have hne : n + (16 + 16) ≠ 0 := fun h0 => by
    have := congrArg BitVec.toNat h0
    simp only [BitVec.toNat_add, BitVec.ofNat_eq_ofNat, BitVec.toNat_ofNat] at this
    omega
  rcases hal : S.liballocAlloc h.pages h.mem (pagesFor ((n + (16 + 16)).setWidth 32)) with ⟨a, p', m'⟩
  by_cases h0 : a = 0
  · simp only [kmalloc, hne, ↓reduceIte, kmallocSize, hroot, allocateNewPage, hal, h0] at hres
    cases hres
    exact absurd rfl hp
  · obtain ⟨hheld, hstop, -⟩ := hS.alloc hal h0
    obtain ⟨h₁, hh₁⟩ : ∃ h₁, h.withPages a ((n + (16 + 16)).setWidth 32) p' m' = h₁ := ⟨_, rfl⟩
    have hbest₁ : h₁.bestBet = 0 := hh₁ ▸ hbest
    refine ⟨a, { h₁ with memRoot := a }, ?_, h0, ?_, ?_, ?_, hstop⟩
    · simp only [kmalloc, hne, ↓reduceIte, kmallocSize, hroot, allocateNewPage_eq hal h0, h0, hh₁, hbest₁, ne_eq,
        not_true_eq_false]
    · rw [← hh₁]
      exact Major.layout.load_store _ _ _
    · have hzero : h.allocated = 0 := hr.allocated
      rw [← hh₁]
      show h.allocated + _ = _
      rw [hzero, zero_add, requestPages]
    · rw [← hh₁]
      show held p' = _
      rw [hheld, hr.held]
      simp [requestPages]

/-- The best bet may change. -/
theorem exists_bestBet (h : Heap P) (maj : U64) (c : Prop) [Decidable c] :
    ∃ bet, (if c then ({ h with bestBet := maj } : Heap P) else h) = { h with bestBet := bet } := by
  by_cases hc : c
  · exact ⟨maj, if_pos hc⟩
  · exact ⟨h.bestBet, if_neg hc⟩

/-- The area seems to have room, and its first block is given out. -/
theorem kmallocLoop_here (S : PageSource P) (reqSize bestSize : U64) (startedBet : Bool) (fuel : Nat) (hmaj : maj ≠ 0)
    (hfirst : (h.major maj).first = 0)
    (hroom : ¬ ((h.major maj).size - (h.major maj).usage).setWidth 64 < size + headerSize) :
    ∃ bet, kmallocLoop S size reqSize (fuel + 1) maj startedBet bestSize h =
      .ok (({ h with bestBet := bet } : Heap P).addMinor maj 0 0 (maj + headerSize) size reqSize) := by
  obtain ⟨bet, hbet⟩ := exists_bestBet h maj (bestSize < ((h.major maj).size - (h.major maj).usage).setWidth 64)
  have hfirst' : (({ h with bestBet := bet } : Heap P).major maj).first = 0 := hfirst
  refine ⟨bet, ?_⟩
  simp only [kmallocLoop, hmaj, ↓reduceIte, hroom, hbet, takeFrom_first hfirst', bind, Except.bind]

/-- The only area has no room, and a new one is made. -/
theorem kmallocLoop_grown {bestSize : U64} (fuel : Nat) (hmaj : maj ≠ 0) (hnext : (h.major maj).next = 0)
    (hroom : ((h.major maj).size - (h.major maj).usage).setWidth 64 < size + headerSize) {res : U64 × Heap P}
    (hres : kmallocLoop S size reqSize (fuel + 1) maj false bestSize h = .ok res) (hne : res.1 ≠ 0) :
    ∃ bet new h₁, appendMajor S { h with bestBet := bet } maj size = (new, h₁) ∧ new ≠ 0 ∧
      ((h₁.major new).first = 0 → res = h₁.addMinor new 0 0 (new + headerSize) size reqSize) := by
  obtain ⟨bet, hbet⟩ := exists_bestBet h maj (bestSize < ((h.major maj).size - (h.major maj).usage).setWidth 64)
  have hnext' : (({ h with bestBet := bet } : Heap P).major maj).next = 0 := hnext
  simp only [kmallocLoop, hmaj, ↓reduceIte, hroom, hbet, advance, hnext', ne_eq, not_true_eq_false, Bool.false_eq_true] at hres
  rcases hap : appendMajor S { h with bestBet := bet } maj size with ⟨new, h₁⟩
  rw [hap] at hres
  have h0 : new ≠ 0 := fun h0 => by
    simp only [h0, ↓reduceIte, Except.ok.injEq] at hres
    rw [← hres] at hne
    exact hne rfl
  refine ⟨bet, new, h₁, hap, h0, fun hfirst => ?_⟩
  simp only [h0, ↓reduceIte, takeFrom_first hfirst, bind, Except.bind, Except.ok.injEq] at hres
  exact hres.symm

/-! ## What becomes of the request -/

theorem toNat_request (hn : n.toNat + 72 < 2 ^ 64) : (n + (16 + 16) + headerSize).toNat = n.toNat + 72 := by
  simp only [headerSize, BitVec.toNat_add, BitVec.ofNat_eq_ofNat, BitVec.toNat_ofNat]
  omega

theorem toNat_requestPages (n : U64) : (requestPages n).toNat = max 16 (((n.toNat + 112) % 2 ^ 32 + 4095) / 4096) := by
  rw [requestPages, toNat_pagesFor]
  simp only [BitVec.toNat_setWidth, BitVec.toNat_add, BitVec.ofNat_eq_ofNat, BitVec.toNat_ofNat]
  omega

/-- The block fits, but the size of its area does not fit into the header. -/
theorem kmalloc_uncounted {p : U64} (hS : S.Ok held) (hr : h.Rep held []) (hlo : maxRequest < n.toNat)
    (hhi : n.toNat + 112 < 2 ^ 32) (hres : kmalloc S h n = .ok (p, h')) (hp : p ≠ 0) :
    h'.allocated = 0 ∧ ∃ a, held h'.pages = {(a, 0x100000)} := by
  have hsize := toNat_request (n := n) (by omega)
  have hpages := toNat_requestPages n
  rw [maxRequest] at hlo
  obtain ⟨a, h₁, hst⟩ := kmalloc_started hS hr (by omega) hres hp
  have hroom : ¬ ((h₁.major a).size - (h₁.major a).usage).setWidth 64 < n + (16 + 16) + headerSize := by
    rw [hst.major, BitVec.lt_def, toNat_newMajor, hsize, ← requestPages]
    omega
  obtain ⟨k, hk⟩ : ∃ k, liballocMaxTurns = k + 1 := ⟨2 ^ 52 - 1, by simp [liballocMaxTurns]⟩
  obtain ⟨bet, hloop⟩ := kmallocLoop_here S n 0 false k hst.ne
    (by rw [hst.major]; rfl) hroom
  rw [hst.loop, hk, hloop] at hres
  have hheap : _ = h' := congrArg Prod.snd (Except.ok.inj hres)
  have hrun : requestPages n = 0x100000 := by
    apply BitVec.eq_of_toNat_eq
    rw [hpages]
    simp only [BitVec.ofNat_eq_ofNat, BitVec.toNat_ofNat]
    omega
  rw [← hheap, allocated_addMinor, pages_addMinor]
  refine ⟨?_, a, ?_⟩
  · show h₁.allocated = 0
    rw [hst.allocated, hrun]
    rfl
  · show held h₁.pages = _
    rw [hst.held, hrun]

theorem appendMajor_inv {new : U64} (hap : appendMajor S h maj size = (new, h')) (h0 : new ≠ 0) :
    ∃ p' m', S.liballocAlloc h.pages h.mem (pagesFor (size.setWidth 32)) = (new, p', m') ∧
      h' = ((h.withPages new (size.setWidth 32) p' m').setMajorNext maj new).setMajorPrev new maj := by
  rcases hal : S.liballocAlloc h.pages h.mem (pagesFor (size.setWidth 32)) with ⟨a, p', m'⟩
  by_cases ha : a = 0
  · simp only [appendMajor, allocateNewPage, hal, ha, ↓reduceIte] at hap
    exact absurd (congrArg Prod.fst hap).symm h0
  · simp only [appendMajor, allocateNewPage_eq hal ha, ha, ↓reduceIte, Prod.mk.injEq] at hap
    obtain ⟨rfl, rfl⟩ := hap
    exact ⟨p', m', rfl, rfl⟩

/-- A header that is written to does not change the list of another one. -/
theorem first_of_links {b v w : U64} (ha : a.toNat + 40 ≤ 2 ^ 64) (hb : b.toNat + 40 ≤ 2 ^ 64)
    (hab : a.toNat + 40 ≤ b.toNat ∨ b.toNat + 40 ≤ a.toNat) :
    (((h.setMajorNext a v).setMajorPrev b w).major b).first = (h.major b).first := by
  have hother : (h.setMajorNext a v).major b = h.major b :=
    @Layout.load_store_of_apart _ _ Major.layout Major.layout h.mem a b _ ha hb hab
  have hself : ((h.setMajorNext a v).setMajorPrev b w).major b = { (h.setMajorNext a v).major b with prev := w } :=
    Major.layout.load_store _ _ _
  rw [hself, hother]

/-- The block is longer than the pages. -/
theorem kmalloc_escapes {p : U64} (hS : S.Ok held) (hr : h.Rep held []) (hlo : 2 ^ 32 ≤ n.toNat + 112)
    (hhi : n.toNat + 72 < 2 ^ 64) (hres : kmalloc S h n = .ok (p, h')) (hp : p ≠ 0) :
    ∀ r ∈ held h'.pages, r.start ≤ p.toNat → r.stop < p.toNat + n.toNat := by
  have hsize := toNat_request hhi
  have hpages := toNat_requestPages n
  obtain ⟨a, h₁, hst⟩ := kmalloc_started hS hr hhi hres hp
  have hroom : ((h₁.major a).size - (h₁.major a).usage).setWidth 64 < n + (16 + 16) + headerSize := by
    rw [hst.major, BitVec.lt_def, toNat_newMajor, hsize, ← requestPages]
    omega
  obtain ⟨k, hk⟩ : ∃ k, liballocMaxTurns = k + 1 := ⟨2 ^ 52 - 1, by simp [liballocMaxTurns]⟩
  rw [hst.loop, hk] at hres
  obtain ⟨bet, b, h₂, hap, hb, hblock⟩ := kmallocLoop_grown k hst.ne (by rw [hst.major]; rfl) hroom hres hp
  -- the second area has as many pages as the first one
  obtain ⟨p', m', hal, hh₂⟩ := appendMajor_inv hap hb
  obtain ⟨hheld, hstop, hrest⟩ := hS.alloc hal hb
  have hmem : (a, requestPages n) ∈ held h₁.pages := by
    rw [hst.held]
    rfl
  have hapart : PageRun.Apart (a, requestPages n) (b, requestPages n) := (hrest _ hmem).1
  have hstopa := hst.stop_le
  have hstop' : PageRun.stop (b, requestPages n) ≤ 2 ^ 64 := hstop
  simp only [PageRun.Apart, PageRun.start, PageRun.stop] at hapart hstop' hstopa
  have hfirst : (h₂.major b).first = 0 := by
    rw [hh₂, first_of_links (by omega) (by omega) (by omega)]
    exact congrArg Major.first (Major.layout.load_store _ _ _)
  have hres' := hblock hfirst
  have hptr : p = (Block.mk (b + headerSize) 0 0).ptr := congrArg Prod.fst hres'
  have hpages' : h'.pages = p' := (congrArg (fun res => res.2.pages) hres').trans (by rw [pages_addMinor, hh₂]; rfl)
  have haddr : (b + headerSize).toNat = b.toNat + 40 := by
    have hlt : b.toNat + 40 < 2 ^ 64 := by omega
    exact Block.toNat_data (b := ⟨b, 0, 0⟩) hlt
  have hle : (b + headerSize).toNat + 72 ≤ 2 ^ 64 := by omega
  have hbounds := Block.ptr_bounds (b := ⟨b + headerSize, 0, 0⟩) hle
  rw [← hptr] at hbounds
  simp only [haddr] at hbounds
  intro r hr' hstart
  rw [hpages', hheld] at hr'
  rcases hr' with rfl | hr'
  · simp only [PageRun.start, PageRun.stop] at hstart ⊢
    rw [← requestPages]
    omega
  · have hr₁ : r ∈ held h₁.pages := hr'
    rw [hst.held, Set.mem_singleton_iff] at hr₁
    subst hr₁
    simp only [PageRun.start, PageRun.stop] at hstart ⊢
    omega

end ShadowOS.Mm
