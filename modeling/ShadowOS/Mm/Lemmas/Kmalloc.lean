import ShadowOS.Mm.Lemmas.Heap

/-!
# How `kmalloc` finds a place

Every way through the loop over the areas ends with a new block in one of them, or without memory.
-/

namespace ShadowOS.Mm

variable {P : Type} {S : PageSource P} {held : P → Set PageRun} {h h' : Heap P} {A B : Area} {b : Block}
  {areas as bs : List Area} {pre post : List Block} {size reqSize p : U64}

/-! ## A place in an area -/

theorem Area.eq_withBlocks {blocks : List Block} (h : A.blocks = blocks) : A = A.withBlocks blocks := by
  rw [← h]
  rfl

theorem Area.Fits.insert (hA : A.Fits) (hblocks : A.blocks = pre ++ post) (hroom : b.reqSize.toNat + 32 ≤ b.size.toNat)
    (hlo : (pre.getLast?.map Block.stop).getD (A.start + 40) ≤ b.start) (hhi : b.stop ≤ (post.head?.map Block.start).getD A.stop) :
    (A.withBlocks (pre ++ b :: post)).Fits where
  start_pos := hA.start_pos
  stop_le := hA.stop_le
  min_pages := hA.min_pages
  max_pages := hA.max_pages
  laid := (hblocks ▸ hA.laid).insert (by simp only [Block.start, Block.stop]; omega) hlo hhi
  room c hc := by
    have hmem : c ∈ pre ++ b :: post := hc
    rw [List.mem_append, List.mem_cons] at hmem
    rcases hmem with hc | rfl | hc
    · exact hA.room c (by rw [hblocks]; exact List.mem_append_left _ hc)
    · exact hroom
    · exact hA.room c (by rw [hblocks]; exact List.mem_append_right _ hc)

/-- There is one more block in the area `A`. -/
structure Took (held : P → Set PageRun) (as : List Area) (A : Area) (bs : List Area) (reqSize : U64) (h h' : Heap P) (b : Block) :
    Prop where
  reqSize : b.reqSize = reqSize.setWidth 32
  rep : ∃ pre post, A.blocks = pre ++ post ∧ h'.Rep held (as ++ A.withBlocks (pre ++ b :: post) :: bs)
  kept : Kept h.mem h'.mem (as ++ A :: bs)
  errorCount : h'.errorCount = h.errorCount

theorem Heap.Rep.addMinor (hr : h.Rep held (as ++ A :: bs)) (pre post : List Block) (min : U64)
    (hblocks : A.blocks = pre ++ post) (hsize : size.toNat = reqSize.toNat + 32) (hlt : size.toNat < 2 ^ 32)
    (hlo : (pre.getLast?.map Block.stop).getD (A.start + 40) ≤ min.toNat)
    (hhi : min.toNat + 40 + size.toNat ≤ (post.head?.map Block.start).getD A.stop) :
    ∃ b h', h.addMinor A.addr ((pre.map Block.addr).getLast?.getD 0) ((post.map Block.addr).head?.getD 0) min size reqSize =
      (b.ptr, h') ∧ Took held as A bs reqSize h h' b := by
  have hok := hr.ok A (by simp)
  have hA := Area.eq_withBlocks hblocks
  have hsize32 : (size.setWidth 32).toNat = size.toNat := by
    rw [BitVec.toNat_setWidth]
    omega
  have hreq32 : (reqSize.setWidth 32).toNat = reqSize.toNat := by
    rw [BitVec.toNat_setWidth]
    omega
  obtain ⟨b, hb⟩ : ∃ b : Block, b = ⟨min, size.setWidth 32, reqSize.setWidth 32⟩ := ⟨_, rfl⟩
  have haddr : b.addr = min := by rw [hb]
  have hbsize : b.size = size.setWidth 32 := by rw [hb]
  have hbreq : b.reqSize = reqSize.setWidth 32 := by rw [hb]
  have hfits : (A.withBlocks (pre ++ b :: post)).Fits := by
    refine hok.fits.insert hblocks ?_ ?_ ?_
    · rw [hbsize, hbreq]
      omega
    · rwa [Block.start, haddr]
    · rwa [Block.stop, haddr, hbsize, hsize32]
  have hok' : (A.withBlocks (pre ++ post)).Ok h.mem := hA ▸ hok
  obtain ⟨h', hadd, hd⟩ := hok'.addMinor hfits hbsize hbreq
  rw [haddr] at hadd
  refine ⟨b, h', hadd, hbreq, ⟨pre, post, hblocks, ?_⟩, ?_, ?_⟩
  · refine hr.replace rfl hd.ok hd.same.outside hd.next hd.prev (by rw [hd.statics]) ?_
    have hinuse : h'.inuse = h.inuse + size := by rw [hd.statics]
    have hsum : ((live (as ++ A.withBlocks (pre ++ b :: post) :: bs)).map fun b => b.size.toNat).sum =
        ((live (as ++ A :: bs)).map fun b => b.size.toNat).sum + size.toNat := by
      simp only [live_append, live_cons, hblocks, Area.blocks_withBlocks, List.map_append, List.map_cons, List.sum_append,
        List.sum_cons, hbsize, hsize32]
      omega
    rw [hinuse, hr.inuse, hsum, BitVec.ofNat_add, BitVec.ofNat_toNat, BitVec.setWidth_eq]
  · refine hr.kept_of_same hd.same.outside fun c hc => hd.same.data c ?_
    rw [hblocks] at hc
    rcases List.mem_append.mp hc with hc | hc <;> simp [hc]
  · rw [hd.statics]

/-! ## The room in an area -/

theorem toNat_size_add (hlt : size.toNat < 2 ^ 32) : (size + headerSize).toNat = size.toNat + 40 := by
  rw [BitVec.toNat_add]
  simp only [headerSize, BitVec.ofNat_eq_ofNat, BitVec.toNat_ofNat]
  omega

theorem toNat_sub_header {x a : U64} {n : Nat} (hx : x.toNat = n % 2 ^ 64) (hn : n ≤ 2 ^ 64) (hle : a.toNat + 40 ≤ n) :
    (x - a - headerSize).toNat = n - (a.toNat + 40) := by
  have ha := a.isLt
  simp only [BitVec.toNat_sub, headerSize, BitVec.ofNat_eq_ofNat, BitVec.toNat_ofNat, hx]
  omega

theorem toNat_gap {x : U64} {n : Nat} (hx : x.toNat = n % 2 ^ 64) (hn : n ≤ 2 ^ 64) (hle : b.stop ≤ n) :
    (x - b.addr - headerSize - b.size.setWidth 64).toNat = n - b.stop := by
  have hb := b.size.isLt
  rw [Block.stop] at hle
  rw [BitVec.toNat_sub, toNat_sub_header hx hn (by omega), BitVec.toNat_setWidth, Block.stop]
  omega

theorem toNat_stop (h : b.stop < 2 ^ 64) : (b.addr + headerSize + b.size.setWidth 64).toNat = b.stop := by
  rw [Block.stop] at h ⊢
  simp only [BitVec.toNat_add, BitVec.toNat_setWidth, headerSize, BitVec.ofNat_eq_ofNat, BitVec.toNat_ofNat]
  omega

theorem Area.Fits.used_le (hA : A.Fits) : A.used ≤ A.bytes := by
  have hsum := hA.laid.sum_le
  have hmap : (A.blocks.map fun b => Block.stop b - Block.start b) = A.blocks.map fun b => 40 + b.size.toNat := by
    refine List.map_congr_left fun b _ => ?_
    simp only [Block.start, Block.stop]
    omega
  rw [hmap] at hsum
  simp only [Area.used, Area.bytes, Area.start, Area.stop, PageRun.start, PageRun.stop, Area.run] at hsum ⊢
  omega

namespace Area.Ok

theorem toNat_size (hok : A.Ok h.mem) : (h.major A.addr).size.toNat = A.bytes := by
  have hmax := hok.fits.max_pages
  have hsize : (h.major A.addr).size = A.pages * liballocPageSize := hok.size
  rw [hsize, BitVec.toNat_mul, Area.bytes]
  simp only [liballocPageSize, BitVec.ofNat_eq_ofNat, BitVec.toNat_ofNat]
  omega

theorem toNat_stop (hok : A.Ok h.mem) : (A.addr + (h.major A.addr).size.setWidth 64).toNat = A.stop % 2 ^ 64 := by
  have hmax := hok.fits.max_pages
  have hstop : A.stop = A.addr.toNat + A.bytes := rfl
  rw [BitVec.toNat_add, BitVec.toNat_setWidth, hok.toNat_size, hstop, Area.bytes]
  omega

/-- The difference that the loops look at is the room that is left. -/
theorem toNat_diff (hok : A.Ok h.mem) : (((h.major A.addr).size - (h.major A.addr).usage).setWidth 64 : U64).toNat = A.bytes - A.used := by
  have hmax := hok.fits.max_pages
  have hle := hok.fits.used_le
  have husage : (h.major A.addr).usage = BitVec.ofNat 32 A.used := hok.usage
  have hbytes : A.bytes < 2 ^ 32 := by
    rw [Area.bytes]
    omega
  rw [BitVec.toNat_setWidth, BitVec.toNat_sub, hok.toNat_size, husage, BitVec.toNat_ofNat]
  omega

end Area.Ok

/-! ## Cases 2, 3 and 4 -/

/-- What is known of a request. -/
structure Request (size reqSize : U64) : Prop where
  eq : size = reqSize + (16 + 16)
  size_eq : size.toNat = reqSize.toNat + 32
  size_le : size.toNat + 80 ≤ 2 ^ 32 - 4096

theorem Request.refused (hreq : Request size reqSize) (h0 : (S.liballocAlloc h.pages h.mem (pagesFor (size.setWidth 32))).1 = 0) :
    h.Refused S reqSize := by
  rwa [hreq.eq] at h0

theorem takeGap_turn (hr : h.Rep held (as ++ A :: bs)) (hreq : Request size reqSize) {q : Block}
    (hblocks : A.blocks = pre ++ q :: post) (fuel : Nat) :
    takeGap A.addr size reqSize (fuel + 1) q.addr h = takeGap A.addr size reqSize fuel ((post.map Block.addr).head?.getD 0) h ∨
      ∃ b h', takeGap A.addr size reqSize (fuel + 1) q.addr h = .ok (some (b.ptr, h')) ∧ Took held as A bs reqSize h h' b := by
  have hok := hr.ok A (by simp)
  have hq : q ∈ A.blocks := by simp [hblocks]
  have hlinked := hok.linked
  rw [hblocks, List.map_append, List.map_cons] at hlinked
  have hnext : (h.minor q.addr).next = (post.map Block.addr).head?.getD 0 := hlinked.next_eq
  have hsize : (h.minor q.addr).size = q.size := (hok.blocks q hq).size
  obtain ⟨n, hn⟩ : ∃ n, (post.head?.map Block.start).getD A.stop = n := ⟨_, rfl⟩
  have hstop := hok.fits.stop_le
  -- where the gap behind the block ends
  have hgap : q.stop ≤ n ∧ n ≤ 2 ^ 64 ∧
      (if (h.minor q.addr).next = 0 then A.addr + (h.major A.addr).size.setWidth 64 else (h.minor q.addr).next).toNat = n % 2 ^ 64 := by
    have hlaid := hok.fits.laid
    rw [hblocks] at hlaid
    obtain ⟨mid, -, -, -, htail⟩ := Laid.append.mp hlaid
    rw [hnext]
    cases post with
    | nil =>
        subst hn
        exact ⟨htail, hstop, by rw [if_pos (by rfl)]; exact hok.toNat_stop⟩
    | cons r post =>
        have hr' : r ∈ A.blocks := by simp [hblocks]
        have hne : ((r :: post).map Block.addr).head?.getD 0 ≠ 0 := hok.fits.block_ne_zero hr'
        have hlt := r.addr.isLt
        subst hn
        refine ⟨htail.1, hlt.le, ?_⟩
        rw [if_neg hne]
        exact (Nat.mod_eq_of_lt hlt).symm
  obtain ⟨hle, hn64, hend⟩ := hgap
  have hdiff := toNat_gap hend hn64 hle
  have hlt32 : size.toNat < 2 ^ 32 := by
    have := hreq.size_le
    omega
  have hsize40 := toNat_size_add hlt32
  simp only [takeGap, hok.fits.block_ne_zero hq, ↓reduceIte, hsize]
  by_cases hfit : size.toNat + 40 ≤ n - q.stop
  · right
    have haddr : (q.addr + headerSize + q.size.setWidth 64).toNat = q.stop := toNat_stop (by omega)
    obtain ⟨b, h', hadd, htook⟩ := hr.addMinor (pre ++ [q]) post (q.addr + headerSize + q.size.setWidth 64)
      (by rw [hblocks, List.append_assoc]; rfl) hreq.size_eq hlt32 (by simp [haddr]) (by rw [hn]; omega)
    refine ⟨b, h', ?_, htook⟩
    rw [if_pos (by rw [BitVec.le_def, hsize40, hdiff]; exact hfit), hnext]
    simp only [List.map_append, List.map_singleton, List.getLast?_append, List.getLast?_singleton, Option.some_or,
      Option.getD_some] at hadd
    rw [hadd]
  · left
    rw [if_neg (by rw [BitVec.le_def, hsize40, hdiff]; exact hfit), hnext]

theorem takeGap_spec (hr : h.Rep held (as ++ A :: bs)) (hreq : Request size reqSize) {fuel : Nat} {q : Block}
    (hblocks : A.blocks = pre ++ q :: post) (hfuel : post.length + 1 < fuel) :
    takeGap A.addr size reqSize fuel q.addr h = .ok none ∨
      ∃ b h', takeGap A.addr size reqSize fuel q.addr h = .ok (some (b.ptr, h')) ∧ Took held as A bs reqSize h h' b := by
  induction post generalizing pre q fuel with
  | nil =>
      obtain ⟨fuel, rfl⟩ : ∃ n, fuel = n + 2 := ⟨fuel - 2, by simp at hfuel; omega⟩
      refine (takeGap_turn hr hreq hblocks (fuel + 1)).imp (fun hturn => hturn.trans ?_) id
      rfl
  | cons r post ih =>
      obtain ⟨fuel, rfl⟩ : ∃ n, fuel = n + 1 := ⟨fuel - 1, by omega⟩
      rcases takeGap_turn hr hreq hblocks fuel with hturn | hturn
      · rw [hturn]
        have hblocks' : A.blocks = (pre ++ [q]) ++ r :: post := by rw [hblocks, List.append_assoc]; rfl
        exact ih hblocks' (by simpa using hfuel)
      · exact .inr hturn

/-- Every block has a header. -/
theorem Area.length_le (A : Area) : A.blocks.length * 40 ≤ A.used := by
  have hmul : ∀ blocks : List Block, blocks.length * 40 ≤ (blocks.map fun b => 40 + b.size.toNat).sum := fun blocks => by
    induction blocks with
    | nil => simp
    | cons b blocks ih =>
        rw [List.length_cons, List.map_cons, List.sum_cons]
        omega
  have := hmul A.blocks
  rw [Area.used]
  omega

theorem takeFrom_spec (hr : h.Rep held (as ++ A :: bs)) (hreq : Request size reqSize)
    (hroom : A.used + 40 + size.toNat ≤ A.bytes) :
    takeFrom h A.addr size reqSize = .ok none ∧ A.blocks ≠ [] ∨
      ∃ b h', takeFrom h A.addr size reqSize = .ok (some (b.ptr, h')) ∧ Took held as A bs reqSize h h' b := by
  have hok := hr.ok A (by simp)
  have hstop : A.stop = A.addr.toNat + A.bytes := rfl
  have hstop64 := hok.fits.stop_le
  have hmin := hok.fits.min_pages
  have hbytes : A.bytes = A.pages.toNat * 4096 := rfl
  have hlt32 : size.toNat < 2 ^ 32 := by
    have := hreq.size_le
    omega
  have hsize40 := toNat_size_add hlt32
  have hfirst : (h.major A.addr).first = (A.blocks.map Block.addr).head?.getD 0 := hok.linked.chain.eq_head
  have haddr : (A.addr + headerSize).toNat = A.start + 40 := by
    rw [BitVec.toNat_add]
    simp only [headerSize, BitVec.ofNat_eq_ofNat, BitVec.toNat_ofNat, Area.start, PageRun.start, Area.run]
    omega
  have hstart : A.start = A.addr.toNat := rfl
  rw [takeFrom, hfirst]
  cases hblocks : A.blocks with
  | nil =>
      have hused : A.used = 40 := by rw [Area.used, hblocks]; rfl
      obtain ⟨b, h', hadd, htook⟩ := hr.addMinor [] [] (A.addr + headerSize) hblocks hreq.size_eq hlt32
        (by simp [haddr]) (by simp only [List.head?_nil, Option.map_none, Option.getD_none]; omega)
      refine .inr ⟨b, h', ?_, htook⟩
      rw [← hadd]
      rfl
  | cons q post =>
      have hq : q ∈ A.blocks := by simp [hblocks]
      have hqb := hok.fits.block_bounds hq
      have hq64 := q.addr.isLt
      have hne : ((q :: post).map Block.addr).head?.getD 0 ≠ 0 := hok.fits.block_ne_zero hq
      have hdiff : (q.addr - A.addr - headerSize).toNat = q.addr.toNat - (A.addr.toNat + 40) :=
        toNat_sub_header (Nat.mod_eq_of_lt hq64).symm hq64.le hqb.1
      simp only [hne, ↓reduceIte]
      by_cases hfit : size.toNat + 40 ≤ q.addr.toNat - (A.addr.toNat + 40)
      · right
        obtain ⟨b, h', hadd, htook⟩ := hr.addMinor [] (q :: post) (A.addr + headerSize) hblocks hreq.size_eq
          hlt32 (by simp [haddr]) (by simp only [List.head?_cons, Option.map_some, Option.getD_some, Block.start]; omega)
        refine ⟨b, h', ?_, htook⟩
        rw [if_pos (by rw [BitVec.le_def, hsize40]; exact hdiff ▸ hfit), ← hadd]
        rfl
      · rw [if_neg (by rw [BitVec.le_def, hsize40]; exact hdiff ▸ hfit)]
        have hlen := A.length_le
        have hmax := hok.fits.max_pages
        have hused := hok.fits.used_le
        rw [hblocks, List.length_cons] at hlen
        have hfuel : post.length + 1 < liballocMaxTurns := by
          rw [liballocMaxTurns]
          omega
        have hblocks' : A.blocks = [] ++ q :: post := hblocks
        exact (takeGap_spec hr hreq hblocks' hfuel).imp_left fun hnone => ⟨hnone, by simp⟩

/-! ## A new area at the end -/

theorem appendMajor_cases (hS : S.Ok held) (hr : h.Rep held (as ++ [A])) (hreq : Request size reqSize) :
    (∃ h', appendMajor S h A.addr size = (0, h') ∧ h.Refused S reqSize ∧ h'.Rep held (as ++ [A]) ∧
      Kept h.mem h'.mem (as ++ [A]) ∧ h'.errorCount = h.errorCount) ∨
    ∃ N h', appendMajor S h A.addr size = (N.addr, h') ∧ N.blocks = [] ∧ size.toNat + 80 ≤ N.bytes ∧
      h'.Rep held (as ++ [A] ++ [N]) ∧ Kept h.mem h'.mem (as ++ [A]) ∧ h'.errorCount = h.errorCount := by
  have hsize32 : (size.setWidth 32).toNat = size.toNat := by
    have := hreq.size_le
    rw [BitVec.toNat_setWidth]
    omega
  have hsize : (size.setWidth 32).toNat + 80 ≤ 2 ^ 32 - 4096 := hsize32.symm ▸ hreq.size_le
  rcases allocateNewPage_cases hS hr hsize with ⟨h₁, hal, hrefused, hcalm, halloc, hheld⟩ | ⟨N, h₁, hal, hroom, hg⟩
  · left
    have hr₁ : h₁.Rep held (as ++ [A]) := hr.of_agree hcalm.agree hcalm.memRoot hcalm.bestBet halloc hcalm.inuse hheld
    have e := Relinked.setNext hr₁.placed (A := A) (by simp) 0
    have hlinked := hr₁.linked
    rw [List.map_append, List.map_singleton] at hlinked
    have hnext : (h₁.major A.addr).next = 0 := hlinked.next_eq
    have hmajor := e.major A (by simp)
    rw [if_pos rfl] at hmajor
    have hkept₁ : Kept h.mem h₁.mem (as ++ [A]) := .of_agree hr.ok hcalm.agree
    refine ⟨h₁.setMajorNext A.addr 0, ?_, hreq.refused hrefused, ?_, hkept₁.trans e.kept, hcalm.errorCount⟩
    · simp only [appendMajor, hal, ↓reduceIte]
    · have hsame := (Area.Edit.setMajor (hr₁.ok A (by simp)).fits (h := h₁)
        (k := fun r => { r with next := 0 }) rfl).same
      refine hr₁.replace rfl (e.placed.ok A (by simp)) hsame.outside ?_ ?_ rfl hr₁.inuse
      · rw [hmajor, hnext]
      · rw [hmajor]
  · right
    obtain ⟨hrep, hkept⟩ := hg.rep hr
    refine ⟨N, (h₁.setMajorNext A.addr N.addr).setMajorPrev N.addr A.addr, ?_, hg.empty, hsize32 ▸ hroom, hrep, hkept,
      hg.calm.errorCount⟩
    simp only [appendMajor, hal, hg.ok.fits.addr_ne_zero, ↓reduceIte]

/-! ## The loop over the areas -/

/-- No area is without blocks. -/
def Full (areas : List Area) : Prop := ∀ A ∈ areas, A.blocks ≠ []

/-- What a request leads to: nothing but lost time, or a new block. -/
inductive Outcome (S : PageSource P) (held : P → Set PageRun) (areas : List Area) (reqSize : U64) (h : Heap P) : U64 → Heap P → Prop where
  | failed {h' : Heap P} : h.Refused S reqSize → h'.Rep held areas → Kept h.mem h'.mem areas → h'.errorCount = h.errorCount →
      Outcome S held areas reqSize h 0 h'
  | block {h' : Heap P} {b : Block} {areas' : List Area} : h'.Rep held areas' → Full areas' →
      (live areas').Perm (b :: live areas) → b.reqSize = reqSize.setWidth 32 → Kept h.mem h'.mem areas →
      h'.errorCount = h.errorCount → Outcome S held areas reqSize h b.ptr h'

theorem Took.outcome {h₀ : Heap P} (ht : Took held as A bs reqSize h h' b) (hfull : ∀ B ∈ as ++ bs, B.blocks ≠ [])
    (hlive : live (as ++ A :: bs) = live areas) (hkept : Kept h₀.mem h.mem areas) (herr : h.errorCount = h₀.errorCount) :
    Outcome S held areas reqSize h₀ b.ptr h' := by
  obtain ⟨pre, post, hblocks, hrep⟩ := ht.rep
  refine .block hrep (fun B hB => ?_) ?_ ht.reqSize (hkept.trans fun c hc => ht.kept c (hlive ▸ hc))
    (ht.errorCount.trans herr)
  · rcases List.mem_append.mp hB with hB | hB
    · exact hfull B (List.mem_append_left _ hB)
    · rcases List.mem_cons.mp hB with rfl | hB
      · simp
      · exact hfull B (List.mem_append_right _ hB)
  · rw [← hlive]
    simp only [live_append, live_cons, hblocks, Area.blocks_withBlocks, List.append_assoc, List.cons_append]
    rw [← List.append_assoc, ← List.append_assoc]
    exact List.perm_middle

/-- A call that returns, with an outcome. -/
def Returns (S : PageSource P) (held : P → Set PageRun) (areas : List Area) (reqSize : U64) (h : Heap P) (res : Except HeapFault (U64 × Heap P)) :
    Prop :=
  ∃ p h', res = .ok (p, h') ∧ Outcome S held areas reqSize h p h'

theorem advance_returns {again : U64 → Bool → Heap P → Except HeapFault (U64 × Heap P)}
    {grown : U64 → Heap P → Except HeapFault (U64 × Heap P)} {startedBet : Bool} (hS : S.Ok held)
    (hr : h.Rep held (as ++ A :: bs)) (hreq : Request size reqSize)
    (hnext : ∀ B bs', bs = B :: bs' → Returns S held (as ++ A :: bs) reqSize h (again B.addr startedBet h))
    (hroot : bs = [] → startedBet = true → ∀ B cs, as ++ A :: bs = B :: cs →
      Returns S held (as ++ A :: bs) reqSize h (again B.addr false h))
    (hgrown : bs = [] → ∀ N h₁, N.blocks = [] → size.toNat + 80 ≤ N.bytes → h₁.Rep held (as ++ [A] ++ [N]) →
      Kept h.mem h₁.mem (as ++ [A]) → h₁.errorCount = h.errorCount → Returns S held (as ++ A :: bs) reqSize h (grown N.addr h₁)) :
    Returns S held (as ++ A :: bs) reqSize h (advance S size again grown A.addr startedBet h) := by
  have hlinked := hr.linked
  rw [List.map_append, List.map_cons] at hlinked
  have hnext' : (h.major A.addr).next = (bs.map Area.addr).head?.getD 0 := hlinked.next_eq
  rw [advance, hnext']
  cases bs with
  | cons B bs =>
      have hne : ((B :: bs).map Area.addr).head?.getD 0 ≠ 0 := (hr.ok B (by simp)).fits.addr_ne_zero
      rw [if_pos hne]
      exact hnext B bs rfl
  | nil =>
      rw [if_neg (by simp)]
      cases startedBet with
      | true =>
          obtain ⟨B, cs, hcs⟩ : ∃ B cs, as ++ [A] = B :: cs := by cases as <;> simp
          have hmem : h.memRoot = B.addr := by
            rw [hr.linked.chain.eq_head, hcs]
            rfl
          rw [if_pos rfl, hmem]
          exact hroot rfl rfl B cs hcs
      | false =>
          rw [if_neg (by simp)]
          rcases appendMajor_cases hS hr hreq with ⟨h', hap, hrefused, hrep, hkept, herr⟩ |
              ⟨N, h', hap, hempty, hroom, hrep, hkept, herr⟩
          · rw [hap]
            exact ⟨0, h', rfl, .failed hrefused hrep hkept herr⟩
          · rw [hap]
            have hne : N.addr ≠ 0 := (hrep.ok N (by simp)).fits.addr_ne_zero
            simp only [hne, ↓reduceIte]
            exact hgrown rfl N h' hempty hroom hrep hkept herr

theorem Returns.congr {h₁ : Heap P} {res : Except HeapFault (U64 × Heap P)} (hres : Returns S held areas reqSize h₁ res)
    (hmem : h₁.mem = h.mem) (hpages : h₁.pages = h.pages) (herr : h₁.errorCount = h.errorCount) : Returns S held areas reqSize h res := by
  obtain ⟨p, h', hok, hout⟩ := hres
  refine ⟨p, h', hok, ?_⟩
  cases hout with
  | failed hrefused hrep hkept he =>
      refine .failed ?_ hrep (hmem ▸ hkept) (he.trans herr)
      rwa [Heap.Refused, hmem, hpages] at hrefused
  | block hrep hfull hlive hreq hkept he => exact .block hrep hfull hlive hreq (hmem ▸ hkept) (he.trans herr)

/-- A new area has a place. -/
theorem takeFrom_new {N : Area} {h₁ : Heap P} (hreq : Request size reqSize) (hfull : Full areas) (hempty : N.blocks = [])
    (hroom : size.toNat + 80 ≤ N.bytes) (hrep : h₁.Rep held (areas ++ [N])) (hkept : Kept h.mem h₁.mem areas)
    (herr : h₁.errorCount = h.errorCount) :
    ∃ p h', takeFrom h₁ N.addr size reqSize = .ok (some (p, h')) ∧ Outcome S held areas reqSize h p h' := by
  have hused : N.used = 40 := by rw [Area.used, hempty]; rfl
  rcases takeFrom_spec hrep hreq (by omega) with ⟨-, hne⟩ | ⟨b, h', htake, htook⟩
  · exact absurd hempty hne
  · refine ⟨b.ptr, h', htake, htook.outcome ?_ ?_ hkept herr⟩
    · rw [List.append_nil]
      exact hfull
    · simp [live, hempty]

theorem Heap.Rep.setBest (hr : h.Rep held areas) (hA : A ∈ areas) : ({ h with bestBet := A.addr } : Heap P).Rep held areas :=
  ⟨hr.linked, hr.ok, hr.apart, .inr (List.mem_map_of_mem hA), hr.allocated, hr.inuse, hr.held⟩

theorem kmallocLoop_new {N : Area} {h₁ : Heap P} {bestSize : U64} {startedBet : Bool} (hreq : Request size reqSize)
    (hfull : Full areas) (hempty : N.blocks = []) (hroom : size.toNat + 80 ≤ N.bytes) (hrep : h₁.Rep held (areas ++ [N]))
    (hkept : Kept h.mem h₁.mem areas) (herr : h₁.errorCount = h.errorCount) (fuel : Nat) :
    Returns S held areas reqSize h (kmallocLoop S size reqSize (fuel + 1) N.addr startedBet bestSize h₁) := by
  have hok := hrep.ok N (by simp)
  have hused : N.used = 40 := by rw [Area.used, hempty]; rfl
  have hdiff := hok.toNat_diff
  have hlt32 : size.toNat < 2 ^ 32 := by
    have := hreq.size_le
    omega
  have hcase : ¬ ((h₁.major N.addr).size - (h₁.major N.addr).usage).setWidth 64 < size + headerSize := by
    rw [BitVec.lt_def, hdiff, toNat_size_add hlt32]
    omega
  simp only [kmallocLoop, hok.fits.addr_ne_zero, ↓reduceIte, hcase]
  generalize hh₂ : (if bestSize < _ then ({ h₁ with bestBet := N.addr } : Heap P) else h₁) = h₂
  have hh₂ : h₂.Rep held (areas ++ [N]) ∧ h₂.mem = h₁.mem ∧ h₂.errorCount = h₁.errorCount := by
    rw [← hh₂]
    split
    · exact ⟨hrep.setBest (by simp), rfl, rfl⟩
    · exact ⟨hrep, rfl, rfl⟩
  obtain ⟨hrep₂, hmem, herr₂⟩ := hh₂
  obtain ⟨p, h', htake, hout⟩ := takeFrom_new (h := h) hreq hfull hempty hroom hrep₂ (hmem ▸ hkept) (herr₂.trans herr)
  rw [htake]
  exact ⟨p, h', rfl, hout⟩

theorem kmallocLoop_returns (hS : S.Ok held) (hreq : Request size reqSize) {fuel : Nat} {startedBet : Bool} {bestSize : U64}
    (hr : h.Rep held (as ++ A :: bs)) (hfull : Full (as ++ A :: bs))
    (hfuel : bs.length + (if startedBet then (as ++ A :: bs).length else 0) + 1 < fuel) :
    Returns S held (as ++ A :: bs) reqSize h (kmallocLoop S size reqSize fuel A.addr startedBet bestSize h) := by
  induction fuel generalizing as A bs h startedBet bestSize with
  | zero => omega
  | succ fuel ih =>
      have hok := hr.ok A (by simp)
      have hlt32 : size.toNat < 2 ^ 32 := by
        have := hreq.size_le
        omega
      simp only [kmallocLoop, hok.fits.addr_ne_zero, ↓reduceIte]
      generalize hbest : (if bestSize < _ then _ else bestSize) = bestSize'
      generalize hh₁ : (if bestSize < _ then ({ h with bestBet := A.addr } : Heap P) else h) = h₁
      have hh₁ : h₁.Rep held (as ++ A :: bs) ∧ h₁.mem = h.mem ∧ h₁.pages = h.pages ∧ h₁.errorCount = h.errorCount := by
        rw [← hh₁]
        split
        · exact ⟨hr.setBest (by simp), rfl, rfl, rfl⟩
        · exact ⟨hr, rfl, rfl, rfl⟩
      obtain ⟨hr₁, hmem, hpages, herr⟩ := hh₁
      refine Returns.congr ?_ hmem hpages herr
      -- the three ways on
      have hnext : ∀ B bs', bs = B :: bs' →
          Returns S held (as ++ A :: bs) reqSize h₁ (kmallocLoop S size reqSize fuel B.addr startedBet bestSize' h₁) := by
        rintro B bs' rfl
        have hcat : as ++ A :: B :: bs' = (as ++ [A]) ++ B :: bs' := by simp
        rw [hcat] at hr₁ hfull hfuel ⊢
        refine ih hr₁ hfull ?_
        simp only [List.length_cons] at hfuel ⊢
        omega
      have hroot : bs = [] → startedBet = true → ∀ B cs, as ++ A :: bs = B :: cs →
          Returns S held (as ++ A :: bs) reqSize h₁ (kmallocLoop S size reqSize fuel B.addr false bestSize' h₁) := by
        intro hbs hbet B cs hcs
        rw [hcs] at hr₁ hfull hfuel ⊢
        have hr' : h₁.Rep held ([] ++ B :: cs) := hr₁
        refine ih hr' hfull ?_
        simp only [hbs, hbet, ↓reduceIte, Bool.false_eq_true, List.length_cons, List.length_nil] at hfuel ⊢
        omega
      have hcat : bs = [] → as ++ A :: bs = as ++ [A] := fun hbs => by rw [hbs]
      have hpos : ∃ n, fuel = n + 1 := ⟨fuel - 1, by omega⟩
      by_cases hcase : ((h.major A.addr).size - (h.major A.addr).usage).setWidth 64 < size + headerSize
      · rw [if_pos hcase]
        refine advance_returns hS hr₁ hreq hnext hroot fun hbs N h₂ hempty hroom hrep hkept herr₂ => ?_
        rw [hcat hbs] at hfull ⊢
        obtain ⟨p, h', htake, hout⟩ := takeFrom_new hreq hfull hempty hroom hrep hkept herr₂
        rw [htake]
        exact ⟨p, h', rfl, hout⟩
      · rw [if_neg hcase]
        have hroom : A.used + 40 + size.toNat ≤ A.bytes := by
          have hused := hok.fits.used_le
          rw [BitVec.lt_def, hok.toNat_diff, toNat_size_add hlt32] at hcase
          omega
        rcases takeFrom_spec hr₁ hreq hroom with ⟨htake, -⟩ | ⟨b, h', htake, htook⟩
        · simp only [htake, bind, Except.bind]
          refine advance_returns hS hr₁ hreq hnext hroot fun hbs N h₂ hempty hroom hrep hkept herr₂ => ?_
          rw [hcat hbs] at hfull ⊢
          obtain ⟨n, rfl⟩ := hpos
          exact kmallocLoop_new hreq hfull hempty hroom hrep hkept herr₂ n
        · rw [htake]
          exact ⟨b.ptr, h', rfl, htook.outcome (fun B hB => hfull B (Heap.Rep.mem_middle B hB)) rfl (.refl _ _) rfl⟩

/-! ## kmalloc -/

/-- An area has 16 pages at least. -/
theorem Placed.length_le {m : Mem} (hp : Placed m areas) : areas.length ≤ 2 ^ 48 := by
  have hap : areas.Pairwise fun A B => A.stop ≤ B.start ∨ B.stop ≤ A.start := List.pairwise_map.mp hp.apart
  refine length_le_of_apart (n := 65536) (by decide) (fun A hA => ?_) (fun A hA => ?_) hap
  · have hmin := (hp.ok A hA).fits.min_pages
    simp only [Area.start, Area.stop, PageRun.start, PageRun.stop, Area.run]
    omega
  · exact (hp.ok A hA).fits.stop_le

theorem kmallocSize_returns (hS : S.Ok held) (hreq : Request size reqSize) (hr : h.Rep held areas) (hfull : Full areas) :
    Returns S held areas reqSize h (kmallocSize S h size reqSize) := by
  cases areas with
  | nil =>
      have hroot : h.memRoot = 0 := hr.linked.chain.eq_head
      have hbest : h.bestBet = 0 := by simpa using hr.best
      have hsize32 : (size.setWidth 32).toNat = size.toNat := by
        have := hreq.size_le
        rw [BitVec.toNat_setWidth]
        omega
      have hsize : (size.setWidth 32).toNat + 80 ≤ 2 ^ 32 - 4096 := hsize32.symm ▸ hreq.size_le
      rcases allocateNewPage_cases hS hr hsize with ⟨h₁, hal, hrefused, hcalm, halloc, hheld⟩ | ⟨N, h₁, hal, hroom, hg⟩
      · simp only [kmallocSize, hroot, ↓reduceIte, hal]
        refine ⟨0, _, rfl, .failed (hreq.refused hrefused) ?_ (fun b hb => by simp [live] at hb) hcalm.errorCount⟩
        exact hr.of_agree (by simp) hroot.symm hcalm.bestBet halloc hcalm.inuse hheld
      · obtain ⟨h₂, hh₂⟩ : ∃ h₂ : Heap P, { h₁ with memRoot := N.addr } = h₂ := ⟨_, rfl⟩
        have hrep : h₂.Rep held ([] ++ [N]) := hh₂ ▸ hg.rep_first hr
        have hbest₁ : h₁.bestBet = 0 := hg.calm.bestBet.trans hbest
        have herr : h₂.errorCount = h.errorCount := hh₂ ▸ hg.calm.errorCount
        have hkept : Kept h.mem h₂.mem [] := fun b hb => by simp [live] at hb
        obtain ⟨n, hn⟩ : ∃ n, liballocMaxTurns = n + 1 := ⟨2 ^ 52 - 1, by simp [liballocMaxTurns]⟩
        rw [hsize32] at hroom
        simp only [kmallocSize, hroot, ↓reduceIte, hal, hg.ok.fits.addr_ne_zero, hh₂, hn]
        rw [if_neg (not_not.mpr hbest₁)]
        exact kmallocLoop_new hreq (fun B hB => by simp at hB) hg.empty hroom hrep hkept herr n
  | cons A areas =>
      have hroot : h.memRoot = A.addr := hr.linked.chain.eq_head
      have hne := (hr.ok A (by simp)).fits.addr_ne_zero
      have hlen := hr.placed.length_le
      have hfuel : 2 * (A :: areas).length + 1 < liballocMaxTurns := by
        rw [liballocMaxTurns]
        omega
      have hfromRoot : ∀ bestSize, Returns S held (A :: areas) reqSize h
          (kmallocLoop S size reqSize liballocMaxTurns A.addr false bestSize h) := fun bestSize => by
        have hr' : h.Rep held ([] ++ A :: areas) := hr
        refine kmallocLoop_returns hS hreq hr' hfull ?_
        simp only [List.length_cons, Bool.false_eq_true, ↓reduceIte] at hfuel ⊢
        omega
      have hh : ({ h with memRoot := A.addr } : Heap P) = h := by rw [← hroot]
      simp only [kmallocSize, hroot, hne, ↓reduceIte, hh]
      by_cases hbest : h.bestBet = 0
      · simp only [hbest, ne_eq, not_true_eq_false, ↓reduceIte]
        exact hfromRoot 0
      · simp only [ne_eq, hbest, not_false_eq_true, ↓reduceIte]
        split
        · obtain ⟨B, hB, hBaddr⟩ := List.mem_map.mp (hr.best.resolve_left hbest)
          obtain ⟨as, bs, hcat⟩ := List.append_of_mem hB
          rw [← hBaddr]
          rw [hcat] at hr hfull hfuel ⊢
          refine kmallocLoop_returns hS hreq hr hfull ?_
          simp only [List.length_append, List.length_cons, ↓reduceIte] at hfuel ⊢
          omega
        · exact hfromRoot _

theorem kmalloc_returns (hS : S.Ok held) (hn : reqSize.toNat ≤ maxRequest) (hr : h.Rep held areas) (hfull : Full areas) :
    Returns S held areas reqSize h (kmalloc S h reqSize) := by
  have hsize : (reqSize + (16 + 16)).toNat = reqSize.toNat + 32 := by
    rw [maxRequest] at hn
    simp only [BitVec.toNat_add, BitVec.ofNat_eq_ofNat, BitVec.toNat_ofNat]
    omega
  have hne : reqSize + (16 + 16) ≠ 0 := fun h0 => by
    rw [h0] at hsize
    simp at hsize
  rw [kmalloc, if_neg hne]
  refine kmallocSize_returns hS ⟨rfl, hsize, ?_⟩ hr hfull
  rw [hsize]
  rw [maxRequest] at hn
  omega

end ShadowOS.Mm
