import ShadowOS.Lib.MemoryTheorems
import ShadowOS.Mm.Lemmas.Kfree

/-!
# What a client sees of the heap

A client may write what it likes to its own blocks. The bytes behind the other pointers stay as they are.
-/

namespace ShadowOS.Mm

variable {P : Type} {S : PageSource P} {held : P → Set PageRun} {m m' : Mem} {h h' : Heap P} {A : Area} {b c : Block}
  {areas as bs : List Area} {c₀ : Client P}

/-! ## Blocks of different areas -/

theorem Placed.live_apart (hp : Placed m areas) :
    (live areas).Pairwise fun b c => b.stop ≤ c.start ∨ c.stop ≤ b.start := by
  rw [live, List.pairwise_flatMap]
  refine ⟨fun A hA => (hp.ok A hA).fits.laid.pairwise.imp Or.inl, ?_⟩
  refine (List.pairwise_map.mp hp.apart).imp_of_mem fun {A B} hA hB hap b hb c hc => ?_
  have hbA := (hp.ok A hA).fits.block_bounds hb
  have hcB := (hp.ok B hB).fits.block_bounds hc
  have hstart : ∀ A : Area, A.run.start = A.addr.toNat := fun _ => rfl
  have hstop : ∀ A : Area, A.run.stop = A.stop := fun _ => rfl
  simp only [PageRun.Apart, hstart, hstop] at hap
  simp only [Block.start]
  omega

theorem Placed.bounds (hp : Placed m areas) (hb : b ∈ live areas) :
    b.addr.toNat + 56 ≤ b.ptr.toNat ∧ b.ptr.toNat < b.stop ∧ b.ptr.toNat + b.reqSize.toNat ≤ b.stop ∧ b.stop ≤ 2 ^ 64 ∧
      b.ptr.toNat % 16 = 0 := by
  obtain ⟨A, hA, hb⟩ := mem_live.mp hb
  have hfits := (hp.ok A hA).fits
  have hbounds := hfits.block_bounds hb
  have hstop := hfits.stop_le
  have hptr := Block.ptr_bounds (b := b) (by omega)
  omega

theorem Placed.ptr_ne_zero (hp : Placed m areas) (hb : b ∈ live areas) : b.ptr ≠ 0 := by
  intro h0
  have := hp.bounds hb
  rw [h0] at this
  simp at this

/-! ## Counters -/

theorem Area.bytes_eq (A : Area) : A.bytes = A.run.stop - A.run.start := by
  simp only [bytes, run, PageRun.start, PageRun.stop]
  omega

theorem Area.Fits.start_lt_stop (hA : A.Fits) : A.run.start < A.run.stop := by
  have := hA.min_pages
  simp only [run, PageRun.start, PageRun.stop]
  omega

theorem sum_size_le (hA : ∀ A ∈ areas, A.Fits) : ((live areas).map fun b => b.size.toNat).sum ≤ (areas.map Area.bytes).sum := by
  induction areas with
  | nil => exact le_rfl
  | cons A areas ih =>
      obtain ⟨hA, hareas⟩ := List.forall_mem_cons.mp hA
      have hsizes : (A.blocks.map fun b => b.size.toNat).sum ≤ A.used := by
        refine le_trans (List.sum_le_sum fun b _ => ?_) (Nat.le_add_left _ _)
        omega
      rw [live_cons, List.map_append, List.sum_append, List.map_cons, List.sum_cons]
      exact Nat.add_le_add (hsizes.trans hA.used_le) (ih hareas)

namespace Heap.Rep

theorem sum_bytes_lt (hr : h.Rep held areas) : (areas.map Area.bytes).sum < 2 ^ 64 := by
  have hlo : ∀ r ∈ areas.map Area.run, 1 ≤ r.start := List.forall_mem_map.mpr fun A hA => (hr.ok A hA).fits.start_pos
  have hhi : ∀ r ∈ areas.map Area.run, r.stop ≤ 2 ^ 64 := List.forall_mem_map.mpr fun A hA => (hr.ok A hA).fits.stop_le
  have hsum := sum_le_of_apart hlo hhi hr.apart
  have hbytes : areas.map Area.bytes = areas.map ((fun r => r.stop - r.start) ∘ Area.run) :=
    List.map_congr_left fun A _ => A.bytes_eq
  rw [List.map_map, ← hbytes] at hsum
  omega

theorem toNat_allocated (hr : h.Rep held areas) : h.allocated.toNat = (areas.map Area.bytes).sum := by
  rw [hr.allocated, BitVec.toNat_ofNat, Nat.mod_eq_of_lt hr.sum_bytes_lt]

theorem toNat_inuse (hr : h.Rep held areas) : h.inuse.toNat = ((live areas).map fun b => b.size.toNat).sum := by
  have hle := sum_size_le fun A hA => (hr.ok A hA).fits
  rw [hr.inuse, BitVec.toNat_ofNat, Nat.mod_eq_of_lt (hle.trans_lt hr.sum_bytes_lt)]

end Heap.Rep

/-! ## The client's part of a block -/

/-- The client's part of a block is written to. -/
theorem Heap.Rep.data (hr : h.Rep held areas) (hb : b ∈ live areas)
    (hout : ∀ x : U64, x.toNat < b.ptr.toNat ∨ b.stop ≤ x.toNat → m' x = h.mem x) :
    ({ h with mem := m' } : Heap P).Rep held areas ∧ ∀ c ∈ live areas, c ≠ b → h.mem.Agree m' c.ptr.toNat c.stop := by
  have hbb := hr.placed.bounds hb
  obtain ⟨A, hA, hbA⟩ := mem_live.mp hb
  obtain ⟨as, bs, rfl⟩ := List.append_of_mem hA
  have hok := hr.ok A hA
  have hstop := hok.fits.stop_le
  have hbA' := hok.fits.block_bounds hbA
  have hstart : A.start = A.addr.toNat := rfl
  have hagree : ∀ {lo hi : Nat}, hi ≤ b.ptr.toNat ∨ b.stop ≤ lo → h.mem.Agree m' lo hi := fun hlo x hx hx' =>
    hout x (by omega)
  have hmajor : Major.layout.load m' A.addr = Major.layout.load h.mem A.addr := by
    have hsize : Major.layout.size = 40 := rfl
    exact Layout.load_of_agree (by omega) (hagree (by omega))
  have hok' : A.Ok m' := by
    refine hok.congr (by rw [hmajor]) (by rw [hmajor]) (by rw [hmajor]) (by rw [hmajor]) (fun c hc => ?_) fun c hc => ?_
    · have hsize : Minor.layout.size = 36 := rfl
      have hcA := hok.fits.block_bounds hc
      by_cases hcb : c = b
      · subst hcb
        exact Layout.load_of_agree (by omega) (hagree (by omega))
      · have hap := hok.fits.block_apart hbA hc hcb
        exact Layout.load_of_agree (by omega) (hagree (by omega))
    · have hcA := hok.fits.block_bounds hc
      have hnote := hok.fits.toNat_note hc
      by_cases hcb : c = b
      · subst hcb
        exact hout _ (by omega)
      · have hap := hok.fits.block_apart hbA hc hcb
        exact hout _ (by omega)
  refine ⟨?_, fun c hc hcb => ?_⟩
  · refine hr.replace rfl hok' (fun x hx => hout x (by omega)) ?_ ?_ rfl hr.inuse
    · exact congrArg Major.next hmajor
    · exact congrArg Major.prev hmajor
  · have hsym : Std.Symm fun b c : Block => b.stop ≤ c.start ∨ c.stop ≤ b.start := ⟨fun _ _ => Or.symm⟩
    have hap := hr.placed.live_apart.forall hc hb hcb
    have hcc := hr.placed.bounds hc
    simp only [Block.start] at hap
    exact hagree (by omega)

/-! ## A smaller request -/

/-- The block with another size of the request. -/
def Block.withReqSize (b : Block) (v : U32) : Block := { b with reqSize := v }

theorem Area.Fits.withReqSize {pre post : List Block} {v : U32} (hA : A.Fits) (hblocks : A.blocks = pre ++ b :: post)
    (hv : v.toNat ≤ b.reqSize.toNat) : (A.withBlocks (pre ++ b.withReqSize v :: post)).Fits where
  start_pos := hA.start_pos
  stop_le := hA.stop_le
  min_pages := hA.min_pages
  max_pages := hA.max_pages
  laid := by
    have hlaid := hA.laid
    rw [hblocks, Laid.append] at hlaid
    exact Laid.append.mpr hlaid
  room x hx := by
    have hmem : x ∈ pre ++ b.withReqSize v :: post := hx
    have hroom := hA.room
    rw [hblocks] at hroom
    rw [List.mem_append, List.mem_cons] at hmem
    rcases hmem with hx | rfl | hx
    · exact hroom x (by simp [hx])
    · have hb := hroom b (by simp)
      simp only [Block.withReqSize]
      omega
    · exact hroom x (by simp [hx])

theorem Heap.Rep.setReqSize {v : U32} (hr : h.Rep held areas) (hfull : Full areas) (hb : b ∈ live areas)
    (hv : v.toNat ≤ b.reqSize.toNat) :
    ∃ areas' rest, (h.setReqSize b.addr v).Rep held areas' ∧ Full areas' ∧ (live areas).Perm (b :: rest) ∧
      (live areas').Perm (b.withReqSize v :: rest) ∧ Kept h.mem (h.setReqSize b.addr v).mem areas := by
  obtain ⟨A, hA, hbA⟩ := mem_live.mp hb
  obtain ⟨as, bs, rfl⟩ := List.append_of_mem hA
  obtain ⟨pre, post, hblocks⟩ := List.append_of_mem hbA
  have hok := hr.ok A hA
  have e : A.Edit h (h.setReqSize b.addr v) (fun a r => if a = b.addr then { r with reqSize := v } else r) id :=
    Area.Edit.setMinor hok.fits hbA rfl
  generalize h.setReqSize b.addr v = h' at e
  have hperm : ∀ b' : Block, (live (as ++ A.withBlocks (pre ++ b' :: post) :: bs)).Perm
      (b' :: (live as ++ (pre ++ post) ++ live bs)) := fun b' => by
    simp only [live_append, live_cons, Area.blocks_withBlocks, List.append_assoc, List.cons_append]
    rw [← List.append_assoc, ← List.append_assoc (live as) pre]
    exact List.perm_middle
  have hAeq := Area.eq_withBlocks hblocks
  have hmajor : Major.layout.load h'.mem A.addr = Major.layout.load h.mem A.addr := e.major
  have hok' : (A.withBlocks (pre ++ b.withReqSize v :: post)).Ok h'.mem := by
    refine ⟨hok.fits.withReqSize hblocks hv, (congrArg Major.pages hmajor).trans hok.pages,
      (congrArg Major.size hmajor).trans hok.size, (congrArg Major.usage hmajor).trans (hok.usage.trans ?_), ?_, fun x hx => ?_⟩
    · simp [Area.used, hblocks, Block.withReqSize]
    · have haddrs : (pre ++ b.withReqSize v :: post).map Block.addr = A.blocks.map Block.addr := by
        simp [hblocks, Block.withReqSize]
      rw [Area.blocks_withBlocks, haddrs, Area.addr_withBlocks, hmajor]
      refine hok.linked.congr (fun a ha => ?_) fun a ha => ?_
      all_goals
        obtain ⟨x, hx, rfl⟩ := List.mem_map.mp ha
        have hminor : Minor.layout.load h'.mem x.addr = _ := e.minor x hx
        rw [hminor]
        split <;> rfl
    · have hmem : x ∈ pre ++ b.withReqSize v :: post := hx
      by_cases hxb : x = b.withReqSize v
      · subst hxb
        have hminor : Minor.layout.load h'.mem b.addr = _ := (e.minor b hbA).trans (if_pos rfl)
        have hbok := hok.blocks b hbA
        exact ⟨(congrArg Minor.block hminor).trans hbok.block, (congrArg Minor.magic hminor).trans hbok.magic,
          (congrArg Minor.size hminor).trans hbok.size, congrArg Minor.reqSize hminor, (e.note b hbA).trans hbok.note⟩
      · have hxA : x ∈ pre ++ post := by
          simp only [List.mem_append, List.mem_cons, hxb, false_or] at hmem
          exact List.mem_append.mpr hmem
        have hxA' : x ∈ A.blocks := by
          rw [hblocks]
          rcases List.mem_append.mp hxA with hx | hx <;> simp [hx]
        have hne : x ≠ b := by
          have hnd := hok.fits.laid.nodup
          rw [hblocks, List.nodup_middle, List.nodup_cons] at hnd
          exact fun he => hnd.1 (he ▸ hxA)
        have hminor : Minor.layout.load h'.mem x.addr = Minor.layout.load h.mem x.addr :=
          (e.minor x hxA').trans (if_neg fun he => hne (hok.fits.addr_inj hbA hxA' he))
        have hxok := hok.blocks x hxA'
        exact ⟨by rw [hminor, hxok.block]; rfl, by rw [hminor, hxok.magic], by rw [hminor, hxok.size], by rw [hminor, hxok.reqSize],
          (e.note x hxA').trans hxok.note⟩
  refine ⟨as ++ A.withBlocks (pre ++ b.withReqSize v :: post) :: bs, live as ++ (pre ++ post) ++ live bs, ?_, ?_, ?_, hperm _, ?_⟩
  · refine hr.replace rfl hok' e.same.outside (congrArg Major.next e.major) (congrArg Major.prev e.major) (by rw [e.statics]) ?_
    have hinuse : h'.inuse = h.inuse := by rw [e.statics]
    rw [hinuse, hr.inuse]
    simp [live_append, live_cons, hblocks, Block.withReqSize]
  · intro B hB
    rcases List.mem_append.mp hB with hB | hB
    · exact hfull B (by simp [hB])
    · rcases List.mem_cons.mp hB with rfl | hB
      · simp
      · exact hfull B (by simp [hB])
  · have := hperm b
    rwa [← hAeq] at this
  · exact hr.kept_of_same e.same.outside e.same.data

/-! ## Copies -/

/-- Two ranges of `n` bytes that do not wrap around and do not overlap. -/
structure Clear (d s : U64) (n : Nat) : Prop where
  dest_le : d.toNat + n ≤ 2 ^ 64
  src_le : s.toNat + n ≤ 2 ^ 64
  apart : d.toNat + n ≤ s.toNat ∨ s.toNat + n ≤ d.toNat

/-- The source does not change while the first `k` bytes are written. -/
theorem Clear.write_other {d s : U64} {n k i : Nat} {f : Nat → U8} (hc : Clear d s n) (hk : k ≤ n) (hi : i < n) :
    m.write d f k (s + BitVec.ofNat 64 i) = m (s + BitVec.ofNat 64 i) := by
  obtain ⟨hd, hs, hap⟩ := hc
  refine Mem.write_of_le (Nat.le_of_not_lt fun hlt => ?_)
  have hin := (Mem.sub_lt_iff (by omega)).mp hlt
  rw [Mem.toNat_add_ofNat (by omega)] at hin
  omega

theorem copyWords_eq {k : Nat} {d s : U64} (hc : Clear d s (k * 4)) :
    copyWords k m d s = m.write d (fun i => m (s + BitVec.ofNat 64 i)) (k * 4) := by
  induction k generalizing m d s with
  | zero => simp [copyWords]
  | succ k ih =>
      obtain ⟨hd, hs, hap⟩ := id hc
      have hd4 : (d + 4).toNat = (d.toNat + 4) % 2 ^ 64 := by rw [BitVec.toNat_add]; rfl
      have hs4 : (s + 4).toNat = (s.toNat + 4) % 2 ^ 64 := by rw [BitVec.toNat_add]; rfl
      rw [copyWords, Mem.store32_load32]
      by_cases hk : k = 0
      · subst hk
        rfl
      rw [ih ⟨by omega, by omega, by omega⟩]
      -- the words that are left are not in the first one
      have hsame : ∀ i < k * 4, m.write d (fun i => m (s + BitVec.ofNat 64 i)) 4 (s + 4 + BitVec.ofNat 64 i) =
          m (s + BitVec.ofNat 64 (i + 4)) := fun i hi => by
        have hadd : s + 4 + BitVec.ofNat 64 i = s + BitVec.ofNat 64 (i + 4) := by
          rw [BitVec.add_assoc, Nat.add_comm i 4, BitVec.ofNat_add]
          rfl
        rw [hadd]
        exact hc.write_other (by omega) (by omega)
      rw [Mem.write_congr hsame]
      have hww := Mem.write_write (m := m) (a := d) (f := fun i => m (s + BitVec.ofNat 64 i))
        (g := fun i => m (s + BitVec.ofNat 64 (i + 4))) (n := 4) (i := k * 4) (by omega)
      refine hww.trans ?_
      have hlen : 4 + k * 4 = (k + 1) * 4 := by omega
      rw [hlen]
      refine Mem.write_congr fun i hi => ?_
      by_cases h4 : i < 4
      · rw [if_pos h4]
      · rw [if_neg h4, Nat.sub_add_cancel (by omega)]

theorem liballocMemcpy_eq {d s : U64} {n : Nat} (h0 : d ≠ 0) (hc : Clear d s n) :
    liballocMemcpy m d s n = .ok (m.write d (fun i => m (s + BitVec.ofNat 64 i)) n) := by
  obtain ⟨hd, hs, hap⟩ := id hc
  have hw : n / 4 * 4 + n % 4 = n := by omega
  have hcw : Clear d s (n / 4 * 4) := ⟨by omega, by omega, by omega⟩
  have hdist : (d + BitVec.ofNat 64 (n / 4 * 4) - (s + BitVec.ofNat 64 (n / 4 * 4))).toNat = (2 ^ 64 - s.toNat + d.toNat) % 2 ^ 64 := by
    rw [add_sub_add_right_eq_sub, BitVec.toNat_sub]
  have hs64 := s.isLt
  rw [liballocMemcpy, if_neg fun hz => h0 hz.1]
  simp only [copyWords_eq hcw, copyUp_eq _ _ _ (show n % 4 ≤ 2 ^ 64 by omega)]
  -- the bytes that are left are read from what was there before
  have hrest : ∀ i < n % 4, Mem.echo (m.write d (fun i => m (s + BitVec.ofNat 64 i)) (n / 4 * 4)) (d + BitVec.ofNat 64 (n / 4 * 4))
      (s + BitVec.ofNat 64 (n / 4 * 4)) i = m (s + BitVec.ofNat 64 (i + n / 4 * 4)) := fun i hi => by
    rw [Mem.echo_of_lt (.inr (by omega)), BitVec.add_assoc, ← BitVec.ofNat_add, Nat.add_comm (n / 4 * 4) i]
    exact hc.write_other (by omega) (by omega)
  rw [Mem.write_congr hrest, Mem.write_write (by omega), hw]
  congr 1
  refine Mem.write_congr fun i hi => ?_
  by_cases hlt : i < n / 4 * 4
  · rw [if_pos hlt]
  · rw [if_neg hlt, Nat.sub_add_cancel (by omega)]

/-! ## The client's blocks -/

/-- The pointers to these blocks and what is behind them. -/
def contents (m : Mem) (bs : List Block) : List (U64 × List U8) := bs.map fun b => (b.ptr, m.bytes b.ptr b.reqSize.toNat)

theorem contents_cons (m : Mem) (b : Block) (bs : List Block) :
    contents m (b :: bs) = (b.ptr, m.bytes b.ptr b.reqSize.toNat) :: contents m bs := rfl

theorem contents_perm {bs cs : List Block} (h : bs.Perm cs) (m : Mem) : (contents m bs).Perm (contents m cs) := h.map _

theorem Placed.contents_congr {bs : List Block} (hp : Placed m areas) (hsub : bs ⊆ live areas)
    (hag : ∀ b ∈ bs, m.Agree m' b.ptr.toNat b.stop) : contents m' bs = contents m bs := by
  refine List.map_congr_left fun b hb => ?_
  have hbounds := hp.bounds (hsub hb)
  have hbytes : m'.bytes b.ptr b.reqSize.toNat = m.bytes b.ptr b.reqSize.toNat :=
    ((hag b hb).mono le_rfl (by omega)).bytes (by omega)
  rw [hbytes]

/-- The client knows the blocks of these areas and what they hold. -/
structure Client.Sim (held : P → Set PageRun) (c : Client P) (areas : List Area) : Prop where
  rep : c.heap.Rep held areas
  full : Full areas
  blocks : c.blocks.Perm (contents c.heap.mem (live areas))

namespace Client.Sim

variable {c : Client P} {p n : U64} {data : List U8} {i : Nat}

/-- A block of the client. -/
theorem exists_block (hs : c.Sim held areas) (hi : c.blocks[i]? = some (p, data)) :
    ∃ b ∈ live areas, b.ptr = p ∧ c.heap.mem.bytes b.ptr b.reqSize.toNat = data := by
  have hmem := hs.blocks.mem_iff.mp (List.mem_of_getElem? hi)
  obtain ⟨b, hb, he⟩ := List.mem_map.mp hmem
  exact ⟨b, hb, congrArg Prod.fst he, congrArg Prod.snd he⟩

theorem perm_eraseIdx {α : Type} {xs : List α} {x : α} {i : Nat} (hi : xs[i]? = some x) : xs.Perm (x :: xs.eraseIdx i) := by
  obtain ⟨hlt, rfl⟩ := List.getElem?_eq_some_iff.mp hi
  exact (List.getElem_cons_eraseIdx_perm hlt).symm

theorem failed (hs : c.Sim held areas) (hr : h'.Rep held areas) (hk : Kept c.heap.mem h'.mem areas) :
    Client.Sim held ⟨h', c.blocks⟩ areas := by
  refine ⟨hr, hs.full, hs.blocks.trans ?_⟩
  rw [hs.rep.placed.contents_congr (List.Subset.refl _) hk]

theorem added {areas' : List Area} (hs : c.Sim held areas) (hr : h'.Rep held areas') (hfull : Full areas')
    (hlive : (live areas').Perm (b :: live areas)) (hk : Kept c.heap.mem h'.mem areas) :
    Client.Sim held ⟨h', (b.ptr, h'.mem.bytes b.ptr b.reqSize.toNat) :: c.blocks⟩ areas' := by
  refine ⟨hr, hfull, ?_⟩
  refine List.Perm.trans ?_ (contents_perm hlive h'.mem).symm
  rw [contents_cons, hs.rep.placed.contents_congr (List.Subset.refl _) hk]
  exact hs.blocks.cons _

theorem toNat_reqSize {n : U64} (hn : n.toNat ≤ maxRequest) (hb : b.reqSize = n.setWidth 32) : b.reqSize.toNat = n.toNat := by
  rw [maxRequest] at hn
  rw [hb, BitVec.toNat_setWidth]
  omega

theorem malloc (hS : S.Ok held) (hs : c.Sim held areas) (hn : n.toNat ≤ maxRequest) :
    ∃ c' areas', c.exec S (.malloc n) = .ok c' ∧ Client.Sim held c' areas' ∧ c'.heap.errorCount = c.heap.errorCount := by
  obtain ⟨q, h', hres, hout⟩ := kmalloc_returns hS hn hs.rep hs.full
  simp only [exec, hres, bind, Except.bind]
  cases hout with
  | failed _ hr hk herr => exact ⟨_, areas, rfl, hs.failed hr hk, herr⟩
  | @block _ b areas' hr hfull hlive hreq hk herr =>
      have hne : b.ptr ≠ 0 := hr.placed.ptr_ne_zero (hlive.mem_iff.mpr List.mem_cons_self)
      have hsim := hs.added hr hfull hlive hk
      rw [toNat_reqSize hn hreq] at hsim
      exact ⟨_, areas', by rw [if_neg hne], hsim, herr⟩

theorem freed {areas' : List Area} (hs : c.Sim held areas) (hi : c.blocks[i]? = some (b.ptr, data))
    (hdata : c.heap.mem.bytes b.ptr b.reqSize.toNat = data) (hf : Freed held areas b c.heap h' areas') :
    Client.Sim held ⟨h', c.blocks.eraseIdx i⟩ areas' := by
  refine ⟨hf.rep, hf.full, ?_⟩
  have hsub : live areas' ⊆ live areas := fun x hx => hf.live.mem_iff.mpr (List.mem_cons_of_mem _ hx)
  have hperm := ((perm_eraseIdx hi).symm.trans hs.blocks).trans (contents_perm hf.live c.heap.mem)
  rw [contents_cons, hdata, ← hs.rep.placed.contents_congr hsub hf.kept] at hperm
  exact hperm.cons_inv

theorem free (hS : S.Ok held) (hs : c.Sim held areas) (i : Nat) :
    ∃ c' areas', c.exec S (.free i) = .ok c' ∧ Client.Sim held c' areas' ∧ c'.heap.errorCount = c.heap.errorCount := by
  simp only [exec]
  cases hi : c.blocks[i]? with
  | none => exact ⟨c, areas, rfl, hs, rfl⟩
  | some x =>
      obtain ⟨p, data⟩ := x
      obtain ⟨b, hb, rfl, hdata⟩ := hs.exists_block hi
      obtain ⟨areas', hf⟩ := kfree_spec hS hs.rep hs.full hb
      exact ⟨_, areas', rfl, hs.freed hi hdata hf, hf.errorCount⟩

/-- The client's part of one block is written to. -/
theorem rewritten (hs : c.Sim held areas) (hb : b ∈ live areas) (hi : c.blocks[i]? = some (b.ptr, data))
    (hdata : c.heap.mem.bytes b.ptr b.reqSize.toNat = data)
    (hout : ∀ x : U64, x.toNat < b.ptr.toNat ∨ b.stop ≤ x.toNat → m' x = c.heap.mem x) {blocks : List (U64 × List U8)}
    (hblocks : blocks.Perm ((b.ptr, m'.bytes b.ptr b.reqSize.toNat) :: c.blocks.eraseIdx i)) :
    Client.Sim held ⟨{ c.heap with mem := m' }, blocks⟩ areas := by
  obtain ⟨hr, hag⟩ := hs.rep.data hb hout
  have hnd : (live areas).Nodup := by
    refine hs.rep.placed.live_apart.imp_of_mem fun {x y} hx hy hap he => ?_
    have hbx := hs.rep.placed.bounds hx
    subst he
    simp only [Block.start] at hap
    omega
  have hperm := List.perm_cons_erase hb
  have hothers : contents m' ((live areas).erase b) = contents c.heap.mem ((live areas).erase b) := by
    refine hs.rep.placed.contents_congr (fun x hx => List.mem_of_mem_erase hx) fun x hx => ?_
    have hx' := (hnd.mem_erase_iff).mp hx
    exact hag x hx'.2 hx'.1
  have hold : (c.blocks.eraseIdx i).Perm (contents c.heap.mem ((live areas).erase b)) := by
    have hall := ((perm_eraseIdx hi).symm.trans hs.blocks).trans (contents_perm hperm c.heap.mem)
    rw [contents_cons, hdata] at hall
    exact hall.cons_inv
  refine ⟨hr, hs.full, hblocks.trans ?_⟩
  refine List.Perm.trans ?_ (contents_perm hperm m').symm
  rw [contents_cons, hothers]
  exact hold.cons _

theorem set_perm {α : Type} {xs : List α} {x : α} (hi : xs[i]? = some x) (y : α) : (xs.set i y).Perm (y :: xs.eraseIdx i) := by
  obtain ⟨hlt, -⟩ := List.getElem?_eq_some_iff.mp hi
  exact List.set_perm_cons_eraseIdx hlt y

theorem write (hs : c.Sim held areas) (i j : Nat) (v : U8) :
    ∃ c' areas', c.exec S (.write i j v) = .ok c' ∧ Client.Sim held c' areas' ∧ c'.heap.errorCount = c.heap.errorCount := by
  simp only [exec]
  cases hi : c.blocks[i]? with
  | none => exact ⟨c, areas, rfl, hs, rfl⟩
  | some x =>
      obtain ⟨p, data⟩ := x
      obtain ⟨b, hb, rfl, hdata⟩ := hs.exists_block hi
      by_cases hj : j < data.length
      · simp only [hj, ↓reduceIte]
        have hbounds := hs.rep.placed.bounds hb
        have hlen : data.length = b.reqSize.toNat := by rw [← hdata, Mem.length_bytes]
        have haddr : (b.ptr + BitVec.ofNat 64 j).toNat = b.ptr.toNat + j := Mem.toNat_add_ofNat (by omega)
        refine ⟨_, areas, rfl, hs.rewritten hb hi hdata (fun x hx => ?_) ?_, rfl⟩
        · refine Function.update_of_ne (fun he => ?_) _ _
          rw [he, haddr] at hx
          omega
        · rw [Mem.bytes_update _ _ _ (by omega) (by omega), hdata]
          exact set_perm hi _
      · simp only [hj, ↓reduceIte]
        exact ⟨c, areas, rfl, hs, rfl⟩

/-- What is written from the pointer of a block on, within its request, stays inside. -/
theorem write_outside {x : U64} {f : Nat → U8} {k : Nat} (hp : Placed m areas) (hb : b ∈ live areas) (hk : k ≤ b.reqSize.toNat)
    (hx : x.toNat < b.ptr.toNat ∨ b.stop ≤ x.toNat) : m.write b.ptr f k x = m x := by
  have hbounds := hp.bounds hb
  refine Mem.write_of_le (Nat.le_of_not_lt fun hlt => ?_)
  have hin := (Mem.sub_lt_iff (by omega)).mp hlt
  omega

theorem calloc {nobj size : U64} (hS : S.Ok held) (hs : c.Sim held areas) (hn : nobj.toNat * size.toNat < 2 ^ 31) :
    (c.exec S (.calloc nobj size) = .error .null ∧ c.heap.Refused S (nobj * size)) ∨
      ∃ c' areas', c.exec S (.calloc nobj size) = .ok c' ∧ Client.Sim held c' areas' ∧
        c'.heap.errorCount = c.heap.errorCount := by
  have hmul : (nobj * size).toNat = nobj.toNat * size.toNat := by
    rw [BitVec.toNat_mul, Nat.mod_eq_of_lt (by omega)]
  have hreal : (((nobj * size).setWidth 32).signExtend 64 : U64).toNat = nobj.toNat * size.toNat := by
    have hsmall : ((nobj * size).setWidth 32).toNat = nobj.toNat * size.toNat := by
      rw [BitVec.toNat_setWidth, hmul, Nat.mod_eq_of_lt (by omega)]
    rw [BitVec.signExtend_eq_setWidth_of_msb_false, BitVec.toNat_setWidth, hsmall, Nat.mod_eq_of_lt (by omega)]
    rw [BitVec.msb_eq_false_iff_two_mul_lt, hsmall]
    omega
  have heq : (((nobj * size).setWidth 32).signExtend 64 : U64) = nobj * size := BitVec.eq_of_toNat_eq (hreal.trans hmul.symm)
  simp only [exec, kcalloc, heq]
  rw [heq] at hreal
  generalize nobj * size = real at hreal ⊢
  have hle : real.toNat ≤ maxRequest := by
    rw [hreal, maxRequest]
    omega
  obtain ⟨q, h', hres, hout⟩ := kmalloc_returns hS hle hs.rep hs.full
  simp only [hres, bind, Except.bind, liballocMemset]
  cases hout with
  | failed hrefused hr hk herr =>
      by_cases h0 : real = 0
      · right
        subst h0
        exact ⟨_, areas, rfl, hs.failed hr hk, herr⟩
      · left
        rw [if_pos ⟨rfl, h0⟩]
        exact ⟨rfl, hrefused⟩
  | @block _ b areas' hr hfull hlive hreq hk herr =>
      right
      have hb : b ∈ live areas' := hlive.mem_iff.mpr List.mem_cons_self
      have hne : b.ptr ≠ 0 := hr.placed.ptr_ne_zero hb
      have hreqSize := toNat_reqSize hle hreq
      have hsim := hs.added hr hfull hlive hk
      have hwrite : setBytes 0 real.toNat h'.mem b.ptr = h'.mem.write b.ptr (fun _ => 0) real.toNat :=
        setBytes_eq 0 _ _ (by omega)
      have hzeros : (h'.mem.write b.ptr (fun _ => 0) real.toNat).bytes b.ptr b.reqSize.toNat =
          List.replicate (nobj.toNat * size.toNat) 0 := by
        rw [Mem.bytes_write _ _ _ (by omega) (by omega), hreqSize, hreal, List.map_const', List.length_range]
      have hsim' : Client.Sim held ⟨{ h' with mem := h'.mem.write b.ptr (fun _ => 0) real.toNat },
          (b.ptr, List.replicate (nobj.toNat * size.toNat) 0) :: c.blocks⟩ areas' := by
        refine hsim.rewritten (i := 0) hb rfl rfl (fun x hx => write_outside hr.placed hb (by omega) hx) ?_
        rw [hzeros]
        exact .refl _
      rw [if_neg fun hz => hne hz.1, if_pos (by omega), hwrite]
      exact ⟨_, areas', by simp only [hne, ↓reduceIte], hsim', herr⟩

/-- What the memory holds behind the pointer of a client's block. -/
theorem holds (hs : c.Sim held areas) {x : U64 × List U8} (hx : x ∈ c.blocks) : c.heap.mem.bytes x.1 x.2.length = x.2 := by
  obtain ⟨b, hb, rfl⟩ := List.mem_map.mp (hs.blocks.mem_iff.mp hx)
  rw [Mem.length_bytes]

theorem shrunk {v : U32} (hs : c.Sim held areas) (hb : b ∈ live areas) (hi : c.blocks[i]? = some (b.ptr, data))
    (hdata : c.heap.mem.bytes b.ptr b.reqSize.toNat = data) (hv : v.toNat ≤ b.reqSize.toNat) :
    ∃ areas', Client.Sim held ⟨c.heap.setReqSize b.addr v, (b.ptr, data.take v.toNat) :: c.blocks.eraseIdx i⟩ areas' := by
  obtain ⟨areas', rest, hr, hfull, hlive, hlive', hk⟩ := hs.rep.setReqSize hs.full hb hv
  refine ⟨areas', hr, hfull, List.Perm.trans ?_ (contents_perm hlive' _).symm⟩
  have hsub : rest ⊆ live areas := fun x hx => hlive.mem_iff.mpr (List.mem_cons_of_mem _ hx)
  have hold := ((perm_eraseIdx hi).symm.trans hs.blocks).trans (contents_perm hlive c.heap.mem)
  rw [contents_cons, hdata] at hold
  have hbounds := hs.rep.placed.bounds hb
  have hbytes : (c.heap.setReqSize b.addr v).mem.bytes b.ptr b.reqSize.toNat = data :=
    (((hk b hb).mono le_rfl (by omega)).bytes (by omega)).trans hdata
  have hhead : (c.heap.setReqSize b.addr v).mem.bytes b.ptr v.toNat = data.take v.toNat := by
    rw [← hbytes, Mem.take_bytes _ _ hv]
  rw [contents_cons, hs.rep.placed.contents_congr hsub fun x hx => hk x (hsub hx)]
  have hptr : (b.withReqSize v).ptr = b.ptr := rfl
  have hreq : (b.withReqSize v).reqSize = v := rfl
  rw [hptr, hreq, hhead]
  exact hold.cons_inv.cons _

/-- The data is copied to a new block and the old one is freed. -/
theorem moved {areas' : List Area} {b' : Block} (hS : S.Ok held) (hs : c.Sim held areas) (hb : b ∈ live areas)
    (hi : c.blocks[i]? = some (b.ptr, data)) (hdata : c.heap.mem.bytes b.ptr b.reqSize.toNat = data) (hr : h'.Rep held areas')
    (hfull : Full areas') (hlive : (live areas').Perm (b' :: live areas)) (hk : Kept c.heap.mem h'.mem areas)
    (hlt : b.reqSize.toNat < b'.reqSize.toNat) :
    ∃ m'' areas'', liballocMemcpy h'.mem b'.ptr b.ptr b.reqSize.toNat = .ok m'' ∧
      Client.Sim held ⟨kfree S { h' with mem := m'' } b.ptr, (b'.ptr, data ++
        ((kfree S { h' with mem := m'' } b.ptr).mem.bytes b'.ptr b'.reqSize.toNat).drop data.length) :: c.blocks.eraseIdx i⟩ areas'' ∧
      (kfree S { h' with mem := m'' } b.ptr).errorCount = h'.errorCount := by
  have hb' : b' ∈ live areas' := hlive.mem_iff.mpr List.mem_cons_self
  have hbl : b ∈ live areas' := hlive.mem_iff.mpr (List.mem_cons_of_mem _ hb)
  have hbounds := hr.placed.bounds hbl
  have hbounds' := hr.placed.bounds hb'
  have hlen : data.length = b.reqSize.toNat := by rw [← hdata, Mem.length_bytes]
  have hclear : Clear b'.ptr b.ptr b.reqSize.toNat := by
    have hsym : Std.Symm fun b c : Block => b.stop ≤ c.start ∨ c.stop ≤ b.start := ⟨fun _ _ => Or.symm⟩
    have hne : b' ≠ b := by
      rintro rfl
      omega
    have hap := hr.placed.live_apart.forall hb' hbl hne
    simp only [Block.start] at hap
    exact ⟨by omega, by omega, by omega⟩
  obtain ⟨m'', hm''⟩ : ∃ m'', h'.mem.write b'.ptr (fun i => h'.mem (b.ptr + BitVec.ofNat 64 i)) b.reqSize.toNat = m'' := ⟨_, rfl⟩
  -- the new block with the copy in it
  have hcopied : Client.Sim held ⟨{ h' with mem := m'' }, (b'.ptr, m''.bytes b'.ptr b'.reqSize.toNat) :: c.blocks⟩ areas' := by
    refine (hs.added hr hfull hlive hk).rewritten (i := 0) hb' rfl rfl (fun x hx => ?_) (.refl _)
    rw [← hm'']
    exact write_outside hr.placed hb' hlt.le hx
  have hdata' : h'.mem.bytes b.ptr b.reqSize.toNat = data :=
    (((hk b hb).mono le_rfl (by omega)).bytes (by omega)).trans hdata
  have hhead : (m''.bytes b'.ptr b'.reqSize.toNat).take data.length = data := by
    rw [hlen, Mem.take_bytes _ _ hlt.le, ← hm'', Mem.bytes_write _ _ _ le_rfl (by omega), ← hdata']
    rfl
  -- the old one is gone
  have hi' : ((b'.ptr, m''.bytes b'.ptr b'.reqSize.toNat) :: c.blocks)[i + 1]? = some (b.ptr, data) := hi
  obtain ⟨d, hd, hdptr, hddata⟩ := hcopied.exists_block hi'
  obtain ⟨areas'', hf⟩ := kfree_spec hS hcopied.rep hcopied.full hd
  have hfreed := hcopied.freed (hdptr.symm ▸ hi') hddata hf
  rw [hdptr] at hfreed hf
  rw [List.eraseIdx_cons_succ] at hfreed
  have hholds := hfreed.holds List.mem_cons_self
  simp only [Mem.length_bytes] at hholds
  refine ⟨m'', areas'', ?_, ?_, hf.errorCount⟩
  · rw [liballocMemcpy_eq (hr.placed.ptr_ne_zero hb') hclear, hm'']
  · rw [hholds]
    have hsplit := List.take_append_drop data.length (m''.bytes b'.ptr b'.reqSize.toNat)
    rw [hhead] at hsplit
    rw [hsplit]
    exact hfreed

/-- `krealloc` finds the header of a live block. -/
theorem krealloc_eq (hs : c.Sim held areas) (hb : b ∈ live areas) (h0 : n ≠ 0) : krealloc S c.heap b.ptr n =
    if n ≤ b.reqSize.setWidth 64 then .ok (b.ptr, c.heap.setReqSize b.addr (n.setWidth 32))
    else (do
      let (q, h) ← kmalloc S c.heap n
      let mem ← liballocMemcpy h.mem q b.ptr b.reqSize.toNat
      .ok (q, kfree S { h with mem := mem } b.ptr)) := by
  obtain ⟨A, hA, hbA⟩ := mem_live.mp hb
  have hbok := (hs.rep.ok A hA).blocks b hbA
  have hmin : c.heap.unalign b.ptr - headerSize = b.addr := hbok.unalign
  have hmagic : (c.heap.minor b.addr).magic = liballocMagic := hbok.magic
  have hreq : (c.heap.minor b.addr).reqSize = b.reqSize := hbok.reqSize
  simp only [krealloc, h0, hs.rep.placed.ptr_ne_zero hb, ↓reduceIte, hmin, hmagic, ne_eq, not_true_eq_false, hreq]

theorem realloc (hS : S.Ok held) (hs : c.Sim held areas) (hn : n.toNat ≤ maxRequest) (i : Nat) :
    (c.exec S (.realloc i n) = .error .null ∧ c.heap.Refused S n) ∨
      ∃ c' areas', c.exec S (.realloc i n) = .ok c' ∧ Client.Sim held c' areas' ∧ c'.heap.errorCount = c.heap.errorCount := by
  simp only [exec]
  cases hi : c.blocks[i]? with
  | none => exact .inr ⟨c, areas, rfl, hs, rfl⟩
  | some x =>
      obtain ⟨p, data⟩ := x
      obtain ⟨b, hb, rfl, hdata⟩ := hs.exists_block hi
      have hlen : data.length = b.reqSize.toNat := by rw [← hdata, Mem.length_bytes]
      by_cases h0 : n = 0
      · right
        obtain ⟨areas', hf⟩ := kfree_spec hS hs.rep hs.full hb
        simp only [krealloc, h0, ↓reduceIte, bind, Except.bind]
        exact ⟨_, areas', rfl, hs.freed hi hdata hf, hf.errorCount⟩
      simp only [hs.krealloc_eq hb h0]
      have hptr := hs.rep.placed.ptr_ne_zero hb
      by_cases hle : n ≤ b.reqSize.setWidth 64
      · -- the block is large enough: only the request in its header changes
        right
        have hle' : n.toNat ≤ b.reqSize.toNat := by
          have := BitVec.le_def.mp hle
          rwa [BitVec.toNat_setWidth, Nat.mod_eq_of_lt (by omega)] at this
        have hv : (n.setWidth 32).toNat = n.toNat := by
          rw [BitVec.toNat_setWidth, Nat.mod_eq_of_lt (by omega)]
        obtain ⟨areas', hs'⟩ := hs.shrunk hb hi hdata (hv.trans_le hle')
        have hdrop : ((c.heap.setReqSize b.addr (n.setWidth 32)).mem.bytes b.ptr n.toNat).drop data.length = [] :=
          List.drop_eq_nil_of_le (by rw [Mem.length_bytes]; omega)
        rw [hv] at hs'
        simp only [hle, ↓reduceIte, bind, Except.bind, hptr, hdrop, List.append_nil]
        exact ⟨_, areas', rfl, hs', rfl⟩
      · have hlt : b.reqSize.toNat < n.toNat := by
          have := mt BitVec.le_def.mpr hle
          rw [BitVec.toNat_setWidth, Nat.mod_eq_of_lt (by omega)] at this
          omega
        obtain ⟨q, h', hres, hout⟩ := kmalloc_returns hS hn hs.rep hs.full
        simp only [hle, ↓reduceIte, hres, bind, Except.bind]
        cases hout with
        | failed hrefused hr hk herr =>
            by_cases hz : b.reqSize.toNat = 0
            · -- nothing to copy to the null pointer, and the old block is freed
              right
              have hs' := hs.failed hr hk
              have hcopy : liballocMemcpy h'.mem 0 b.ptr b.reqSize.toNat = .ok h'.mem := by
                simp [liballocMemcpy, hz, copyWords, copyUp]
              obtain ⟨areas', hf⟩ := kfree_spec hS hr hs.full hb
              have hdata' : h'.mem.bytes b.ptr b.reqSize.toNat = data := by
                rw [hz] at hlen ⊢
                exact (List.eq_nil_of_length_eq_zero hlen).symm
              simp only [hcopy, ↓reduceIte]
              exact ⟨_, areas', rfl, hs'.freed hi hdata' hf, hf.errorCount.trans herr⟩
            · left
              simp only [liballocMemcpy, hz, ne_eq, not_false_eq_true, and_self, ↓reduceIte]
              exact ⟨trivial, hrefused⟩
        | @block _ b' areas' hr hfull hlive hreq hk herr =>
            right
            have hreqSize := toNat_reqSize hn hreq
            obtain ⟨m'', areas'', hcopy, hs', herr'⟩ := hs.moved hS hb hi hdata hr hfull hlive hk (by omega)
            rw [hreqSize] at hs'
            have htake : data.take n.toNat = data := List.take_of_length_le (by omega)
            have hne := hr.placed.ptr_ne_zero (hlive.mem_iff.mpr List.mem_cons_self)
            simp only [hcopy, hne, ↓reduceIte, htake]
            exact ⟨_, areas'', rfl, hs', herr'.trans herr⟩

/-- One call: it can only fail on a null pointer, when there are no pages. -/
theorem step (hS : S.Ok held) (hs : c.Sim held areas) {op : HeapOp} (hop : op.Bounded) :
    (c.exec S op = .error .null ∧ ∃ n, op.stores = some n ∧ c.heap.Refused S n) ∨
      ∃ c' areas', c.exec S op = .ok c' ∧ Client.Sim held c' areas' ∧ c'.heap.errorCount = c.heap.errorCount := by
  cases op with
  | malloc n => exact .inr (hs.malloc hS hop)
  | calloc nobj size => exact (hs.calloc hS hop).imp_left fun h => ⟨h.1, _, rfl, h.2⟩
  | free i => exact .inr (hs.free hS i)
  | realloc i n => exact (hs.realloc hS hop i).imp_left fun h => ⟨h.1, _, rfl, h.2⟩
  | write i j v => exact .inr (hs.write i j v)

/-! ## What the client can rely on -/

theorem boot {mem : Mem} {pages : P} (hp : held pages = ∅) : Client.Sim held ⟨Heap.boot mem pages, []⟩ [] where
  rep :=
    { linked := ⟨rfl, trivial⟩
      ok := by simp
      apart := .nil
      best := .inl rfl
      allocated := rfl
      inuse := rfl
      held := by simp [Heap.boot, hp] }
  full := by simp [Full]
  blocks := .nil

theorem sound (hs : c.Sim held areas) : c.Sound held where
  aligned x hx := by
    obtain ⟨b, hb, rfl⟩ := List.mem_map.mp (hs.blocks.mem_iff.mp hx)
    exact ⟨hs.rep.placed.ptr_ne_zero hb, (hs.rep.placed.bounds hb).2.2.2.2⟩
  inside x hx := by
    obtain ⟨b, hb, rfl⟩ := List.mem_map.mp (hs.blocks.mem_iff.mp hx)
    obtain ⟨A, hA, hbA⟩ := mem_live.mp hb
    have hbounds := (hs.rep.ok A hA).fits.block_bounds hbA
    have hstart : A.run.start = A.addr.toNat := rfl
    have hstop : A.run.stop = A.stop := rfl
    rw [Heap.Holds, hs.rep.held]
    refine ⟨A.run, List.mem_map_of_mem hA, ?_⟩
    dsimp only
    rw [Mem.length_bytes]
    omega
  holds _ hx := hs.holds hx
  apart := by
    refine hs.blocks.symm.pairwise ?_ fun h => ⟨h.1.symm, h.2.symm⟩
    refine List.pairwise_map.mpr (hs.rep.placed.live_apart.imp_of_mem fun {b b'} hb hb' hap => ?_)
    have hbounds := hs.rep.placed.bounds hb
    have hbounds' := hs.rep.placed.bounds hb'
    simp only [Block.start] at hap
    simp only [Mem.length_bytes]
    refine ⟨fun he => ?_, by omega⟩
    have := congrArg BitVec.toNat he
    omega

theorem accounted (hs : c.Sim held areas) : c.Accounted held where
  inuse_ge := by
    rw [hs.rep.toNat_inuse, (hs.blocks.map _).sum_eq, contents, List.map_map]
    refine List.sum_le_sum fun b hb => ?_
    obtain ⟨A, hA, hbA⟩ := mem_live.mp hb
    have hroom := (hs.rep.ok A hA).fits.room b hbA
    simpa using hroom
  inuse_le := by
    rw [hs.rep.toNat_inuse, hs.rep.toNat_allocated]
    exact sum_size_le fun A hA => (hs.rep.ok A hA).fits
  allocated := by
    refine ⟨areas.map Area.run, ?_, hs.rep.held, ?_⟩
    · refine hs.rep.apart.imp_of_mem fun {r r'} hr _ hap he => ?_
      obtain ⟨A, hA, rfl⟩ := List.mem_map.mp hr
      have hlt := (hs.rep.ok A hA).fits.start_lt_stop
      rw [← he] at hap
      exact hap.elim hlt.not_ge hlt.not_ge
    · rw [hs.rep.toNat_allocated, List.map_map]
      exact congrArg List.sum (List.map_congr_left fun A _ => A.bytes_eq)
  empty hnone := by
    have hnil : areas = [] := by
      refine List.eq_nil_iff_forall_not_mem.mpr fun A hA => ?_
      obtain ⟨b, hb⟩ := List.exists_mem_of_ne_nil _ (hs.full A hA)
      have := hs.blocks.mem_iff.mpr (List.mem_map_of_mem (mem_live.mpr ⟨A, hA, hb⟩))
      simp [hnone] at this
    subst hnil
    refine ⟨?_, hs.rep.linked.chain, ?_, hs.rep.allocated, hs.rep.inuse⟩
    · rw [hs.rep.held]
      simp
    · simpa using hs.rep.best

/-- Freeing a block once more is noticed, as long as its pages are held. -/
theorem free_twice (hS : S.Ok held) (hs : c.Sim held areas) {x : U64 × List U8} (hx : x ∈ c.blocks) {r : PageRun}
    (hr : r ∈ held (kfree S c.heap x.1).pages) (hlo : r.start ≤ x.1.toNat) (hhi : x.1.toNat < r.stop) :
    kfree S (kfree S c.heap x.1) x.1 = { kfree S c.heap x.1 with errorCount := (kfree S c.heap x.1).errorCount + 1 } := by
  obtain ⟨b, hb, rfl⟩ := List.mem_map.mp (hs.blocks.mem_iff.mp hx)
  obtain ⟨areas', hf⟩ := kfree_spec hS hs.rep hs.full hb
  rw [hf.rep.held] at hr
  obtain ⟨B, hB, rfl⟩ := List.mem_map.mp hr
  exact (hf.dead B hB hlo hhi).kfree_eq (hs.rep.placed.ptr_ne_zero hb)

end Client.Sim

end ShadowOS.Mm
