import ShadowOS.Base.Run
import ShadowOS.Mm.Lemmas.Oversize

/-!
# The kernel heap over whole runs

A client calls `kmalloc`, `kcalloc`, `krealloc` and `kfree` in any order and writes to its blocks. The results hold for every
page source that keeps to `PageSource.Ok`.
-/

namespace ShadowOS.Mm

/-! ## A page source -/

/-- The runs that are held, all of them below the next address. -/
structure Pool where
  runs : List PageRun
  next : Nat
  pos : 0 < next
  below : ∀ r ∈ runs, r.stop ≤ next

namespace Pool

theorem toNat_next (p : Pool) {n : U32} (h : p.next + n.toNat * 4096 < 2 ^ 64) : (BitVec.ofNat 64 p.next).toNat = p.next := by
  rw [BitVec.toNat_ofNat, Nat.mod_eq_of_lt ((Nat.le_add_right _ _).trans_lt h)]

theorem below_grow (p : Pool) {n : U32} (h : p.next + n.toNat * 4096 < 2 ^ 64) :
    ∀ r ∈ (BitVec.ofNat 64 p.next, n) :: p.runs, PageRun.stop r ≤ p.next + n.toNat * 4096 := by
  refine List.forall_mem_cons.mpr ⟨?_, fun r hr => (p.below r hr).trans (Nat.le_add_right _ _)⟩
  rw [PageRun.stop, p.toNat_next h]

theorem pos_grow (p : Pool) (n : U32) : 0 < p.next + n.toNat * 4096 := Nat.add_pos_left p.pos _

/-- A run of `n` pages more. -/
def grow (p : Pool) (n : U32) (h : p.next + n.toNat * 4096 < 2 ^ 64) : Pool :=
  ⟨(BitVec.ofNat 64 p.next, n) :: p.runs, p.next + n.toNat * 4096, p.pos_grow n, p.below_grow h⟩

theorem below_drop (p : Pool) (r : PageRun) : ∀ r' ∈ p.runs.filter (· ≠ r), r'.stop ≤ p.next :=
  fun r' hr' => p.below r' (List.mem_of_mem_filter hr')

def drop (p : Pool) (r : PageRun) : Pool := ⟨p.runs.filter (· ≠ r), p.next, p.pos, p.below_drop r⟩

/-- Every run begins where the last one has ended. -/
def source : PageSource Pool where
  liballocAlloc p m n :=
    if h : p.next + n.toNat * 4096 < 2 ^ 64 then (BitVec.ofNat 64 p.next, p.grow n h, m) else (0, p, m)
  liballocFree p m a n := (p.drop (a, n), m)

def held (p : Pool) : Set PageRun := {r | r ∈ p.runs}

theorem pos_start : 0 < 4096 := by decide

/-- Nothing is held yet. -/
def start : Pool := ⟨[], 4096, pos_start, List.forall_mem_nil _⟩

theorem source_ok : source.Ok held where
  failed {p p' m m' n} h := by
    simp only [source] at h
    split at h
    · rename_i hlt
      have h0 : BitVec.ofNat 64 p.next = 0#64 := congrArg Prod.fst h
      have := congrArg BitVec.toNat h0
      have := p.pos
      simp only [BitVec.toNat_ofNat] at *
      omega
    · cases h
      exact ⟨rfl, fun _ _ => .refl _ _ _⟩
  alloc {p p' m m' n a} h ha := by
    simp only [source] at h
    split at h
    · rename_i hlt
      cases h
      have hnext := p.toNat_next hlt
      refine ⟨?_, ?_, fun r hr => ⟨.inl ?_, .refl _ _ _⟩⟩
      · ext r
        exact List.mem_cons
      · simp only [PageRun.stop, hnext]
        omega
      · simp only [PageRun.start, hnext]
        exact p.below r hr
    · cases h
      exact absurd rfl ha
  free {p p' m m' n a} hmem h := by
    cases h
    refine ⟨?_, fun _ _ => .refl _ _ _⟩
    ext r
    simp [held, drop]

end Pool

/-! ## The runs of a client -/

section

variable {P : Type} {S : PageSource P} {held : P → Set PageRun} {mem : Mem} {pages : P} {ops : List HeapOp}

/-- The areas that the memory represents in every state of a run. -/
theorem allStates_sim (hS : S.Ok held) (hp : held pages = ∅) (hops : ∀ op ∈ ops, op.Bounded) :
    AllStates (Client.step S) (fun c => c.heap.errorCount = 0 ∧ ∃ areas, c.Sim held areas) ⟨Heap.boot mem pages, []⟩ ops := by
  refine AllSteps.allStates (C := fun _ op => op.Bounded) (fun {c op c'} hc hop hstep => ?_) ⟨rfl, [], .boot hp⟩
    (allSteps_of_forall hops)
  obtain ⟨herr, areas, hs⟩ := hc
  rcases hs.step hS hop with ⟨hnull, -⟩ | ⟨c₁, areas', hok, hs', herr'⟩
  · simp [Client.step, hnull, Except.toOption] at hstep
  · simp only [Client.step, hok, Except.toOption, Option.some.injEq] at hstep
    subst hstep
    exact ⟨herr'.trans herr, areas', hs'⟩

/-- The client finds in its blocks what it has written, and the heap finds no error. -/
theorem heap_keeps_data (hS : S.Ok held) (hp : held pages = ∅) (hops : ∀ op ∈ ops, op.Bounded) :
    AllStates (Client.step S) (fun c => c.Sound held ∧ c.heap.errorCount = 0) ⟨Heap.boot mem pages, []⟩ ops := by
  refine (allStates_sim hS hp hops).mono fun c hc => ?_
  obtain ⟨herr, areas, hs⟩ := hc
  exact ⟨hs.sound, herr⟩

/-- The counters are right, and the last block that is freed takes all pages with it. -/
theorem heap_counts_pages (hS : S.Ok held) (hp : held pages = ∅) (hops : ∀ op ∈ ops, op.Bounded) :
    AllStates (Client.step S) (Client.Accounted held) ⟨Heap.boot mem pages, []⟩ ops := by
  refine (allStates_sim hS hp hops).mono fun c hc => ?_
  obtain ⟨-, areas, hs⟩ := hc
  exact hs.accounted

/-- No call goes on for ever. There is a null pointer only when the page source has no pages for the block, and only the calls
that store something in it do not return then. -/
theorem heap_calls_return (hS : S.Ok held) (hp : held pages = ∅) (hops : ∀ op ∈ ops, op.Bounded) :
    AllSteps (Client.step S) (fun c op =>
      (∀ fault, c.exec S op = .error fault → fault = .null ∧ ∃ n, op.stores = some n ∧ c.heap.Refused S n) ∧
        ∀ n h', op = .malloc n → kmalloc S c.heap n = .ok (0, h') → c.heap.Refused S n) ⟨Heap.boot mem pages, []⟩ ops := by
  refine AllSteps.mono_states (fun {c op} hc hop => ⟨fun fault hfault => ?_, fun n h' hn hres => ?_⟩)
    (allStates_sim hS hp hops) (allSteps_of_forall hops)
  · obtain ⟨-, areas, hs⟩ := hc
    rcases hs.step hS hop with ⟨hnull, hrefused⟩ | ⟨c₁, areas', hok, -⟩
    · rw [hnull] at hfault
      cases hfault
      exact ⟨rfl, hrefused⟩
    · rw [hok] at hfault
      cases hfault
  · obtain ⟨-, areas, hs⟩ := hc
    subst hn
    obtain ⟨q, h₁, hres₁, hout⟩ := kmalloc_returns hS hop hs.rep hs.full
    rw [hres₁] at hres
    cases hout with
    | failed hrefused _ _ _ => exact hrefused
    | @block _ b areas' hr _ hlive _ _ _ =>
        have hne : b.ptr ≠ 0 := hr.placed.ptr_ne_zero (hlive.mem_iff.mpr List.mem_cons_self)
        injection hres with hres
        exact absurd (congrArg Prod.fst hres) hne

/-- A pointer that is freed once more is noticed, as long as the pages are held. -/
theorem heap_notices_double_free (hS : S.Ok held) (hp : held pages = ∅) (hops : ∀ op ∈ ops, op.Bounded) :
    AllStates (Client.step S) (fun c => ∀ b ∈ c.blocks,
      (∃ r ∈ held (kfree S c.heap b.1).pages, r.start ≤ b.1.toNat ∧ b.1.toNat < r.stop) →
        kfree S (kfree S c.heap b.1) b.1 = { kfree S c.heap b.1 with errorCount := (kfree S c.heap b.1).errorCount + 1 })
      ⟨Heap.boot mem pages, []⟩ ops := by
  refine (allStates_sim hS hp hops).mono fun c hc b hb hheld => ?_
  obtain ⟨-, areas, hs⟩ := hc
  obtain ⟨r, hr, hlo, hhi⟩ := hheld
  exact hs.free_twice hS hb hr hlo hhi

/-- The largest request: a block of the first area lies in its pages, and the pages are counted, up to this size only. -/
theorem kmalloc_serves_iff {n p : U64} {h : Heap P} (hS : S.Ok held) (hp : held pages = ∅) (hn : n.toNat + 72 < 2 ^ 64)
    (hres : kmalloc S (Heap.boot mem pages) n = .ok (p, h)) (hne : p ≠ 0) :
    (h.Holds held p n.toNat ∧ h.Counted held) ↔ n.toNat ≤ maxRequest := by
  have hs : Client.Sim held ⟨Heap.boot mem pages, []⟩ [] := .boot hp
  constructor
  · intro hserved
    obtain ⟨⟨r, hr, hlo, hhi⟩, runs, -, hruns, hsum⟩ := hserved
    by_contra hlarge
    by_cases hwrap : 2 ^ 32 ≤ n.toNat + 112
    · have := kmalloc_escapes hS hs.rep hwrap hn hres hne r hr hlo
      omega
    · obtain ⟨hzero, a, hheld⟩ := kmalloc_uncounted hS hs.rep (by omega) (by omega) hres hne
      rw [hheld] at hruns
      have hmem : (a, 0x100000) ∈ runs := by
        have : ((a, 0x100000) : PageRun) ∈ ({(a, 0x100000)} : Set PageRun) := rfl
        rwa [hruns] at this
      have hle := List.single_le_sum (l := runs.map fun r => r.stop - r.start) (fun _ _ => Nat.zero_le _) _ (List.mem_map_of_mem hmem)
      rw [← hsum, hzero] at hle
      simp only [PageRun.start, PageRun.stop, BitVec.ofNat_eq_ofNat, BitVec.toNat_ofNat] at hle
      omega
  · intro hle
    obtain ⟨c, areas, hexec, hsim, -⟩ := hs.malloc hS hle
    simp only [Client.exec, hres, bind, Except.bind, hne, ↓reduceIte, Except.ok.injEq] at hexec
    subst hexec
    have hinside := hsim.sound.inside _ List.mem_cons_self
    rw [Mem.length_bytes] at hinside
    exact ⟨hinside, hsim.accounted.allocated⟩

end

/-! ### A client -/

/-- Two blocks in one area; one of them is moved and the other one freed. -/
def heapOps : List HeapOp := [.malloc 3, .calloc 1 2, .write 0 1 7, .realloc 0 50, .free 1]

theorem Pool.held_start : Pool.start.held = ∅ := by
  simp [held, start]

/-- The first block is still there, and its pages are, when the other one is freed. -/
theorem heapOps_eval :
    ((run (Client.step Pool.source) ⟨Heap.boot (fun _ => 0) Pool.start, []⟩ heapOps).any fun c =>
      c.blocks.map (·.2.take 3) = [[0, 7, 0]] ∧ c.heap.allocated = 65536) = true ∧
    ((run (Client.step Pool.source) ⟨Heap.boot (fun _ => 0) Pool.start, []⟩ [.malloc 1, .malloc 1]).any fun c =>
      c.blocks.any fun b => (kfree Pool.source c.heap b.1).pages.runs = [(4096, 16)] ∧ 4096 ≤ b.1.toNat ∧ b.1.toNat < 8192) = true ∧
    ((kmalloc Pool.source (Heap.boot (fun _ => 0) Pool.start) 100).toOption.any fun r => r.1 ≠ 0) = true ∧
    ((kmalloc Pool.source (Heap.boot (fun _ => 0) Pool.start) 0xffffffff).toOption.any fun r => r.1 ≠ 0) = true := by
  decide +kernel

theorem heap_keeps_data_pool : ∃ c, run (Client.step Pool.source) ⟨Heap.boot (fun _ => 0) Pool.start, []⟩ heapOps = some c ∧
    c.blocks.map (·.2.take 3) = [[0, 7, 0]] ∧ c.Sound Pool.held := by
  obtain ⟨c, hrun, hc⟩ := (Option.any_eq_true _ _).mp heapOps_eval.1
  have hall := @heap_keeps_data _ _ _ (fun _ => 0) _ heapOps Pool.source_ok Pool.held_start (by decide)
  exact ⟨c, hrun, (of_decide_eq_true hc).1, (hall.last hrun).1⟩

theorem heap_counts_pages_pool : ∃ c, run (Client.step Pool.source) ⟨Heap.boot (fun _ => 0) Pool.start, []⟩ heapOps = some c ∧
    c.heap.allocated = 65536 ∧ c.Accounted Pool.held := by
  obtain ⟨c, hrun, hc⟩ := (Option.any_eq_true _ _).mp heapOps_eval.1
  have hall := @heap_counts_pages _ _ _ (fun _ => 0) _ heapOps Pool.source_ok Pool.held_start (by decide)
  exact ⟨c, hrun, (of_decide_eq_true hc).2, hall.last hrun⟩

theorem heap_calls_return_pool : (∀ op ∈ heapOps, op.Bounded) ∧
    AllSteps (Client.step Pool.source) (fun c op =>
      (∀ fault, c.exec Pool.source op = .error fault → fault = .null ∧ ∃ n, op.stores = some n ∧ c.heap.Refused Pool.source n) ∧
        ∀ n h', op = .malloc n → kmalloc Pool.source c.heap n = .ok (0, h') → c.heap.Refused Pool.source n)
      ⟨Heap.boot (fun _ => 0) Pool.start, []⟩ heapOps :=
  ⟨by decide, heap_calls_return Pool.source_ok Pool.held_start (by decide)⟩

theorem heap_notices_double_free_pool : ∃ c b, run (Client.step Pool.source) ⟨Heap.boot (fun _ => 0) Pool.start, []⟩
      [.malloc 1, .malloc 1] = some c ∧ b ∈ c.blocks ∧
    kfree Pool.source (kfree Pool.source c.heap b.1) b.1 =
      { kfree Pool.source c.heap b.1 with errorCount := (kfree Pool.source c.heap b.1).errorCount + 1 } := by
  obtain ⟨c, hrun, hc⟩ := (Option.any_eq_true _ _).mp heapOps_eval.2.1
  obtain ⟨b, hb, hkept⟩ := List.any_eq_true.mp hc
  obtain ⟨hruns, hlo, hhi⟩ := of_decide_eq_true hkept
  have hall := @heap_notices_double_free _ _ _ (fun _ => 0) _ [.malloc 1, .malloc 1] Pool.source_ok Pool.held_start
    (by decide)
  refine ⟨c, b, hrun, hb, hall.last hrun b hb ⟨(4096, 16), ?_, hlo, hhi.trans (by decide)⟩⟩
  show (4096, 16) ∈ (kfree Pool.source c.heap b.1).pages.runs
  rw [hruns]
  exact List.mem_singleton_self _

theorem kmalloc_serves_iff_pool : ∃ p h p' h', kmalloc Pool.source (Heap.boot (fun _ => 0) Pool.start) 100 = .ok (p, h) ∧
    kmalloc Pool.source (Heap.boot (fun _ => 0) Pool.start) 0xffffffff = .ok (p', h') ∧
    (h.Holds Pool.held p 100 ∧ h.Counted Pool.held) ∧ ¬ (h'.Holds Pool.held p' 0xffffffff ∧ h'.Counted Pool.held) := by
  obtain ⟨⟨p, h⟩, hres, hp⟩ := ok_of_any heapOps_eval.2.2.1
  obtain ⟨⟨p', h'⟩, hres', hp'⟩ := ok_of_any heapOps_eval.2.2.2
  refine ⟨p, h, p', h', hres, hres', ?_, fun hserved => ?_⟩
  · exact (kmalloc_serves_iff Pool.source_ok Pool.held_start (by decide) hres (of_decide_eq_true hp)).mpr (by decide)
  · have := (kmalloc_serves_iff Pool.source_ok Pool.held_start (by decide) hres' (of_decide_eq_true hp')).mp hserved
    exact absurd this (by decide)

end ShadowOS.Mm
