import ShadowOS.Mm.ExhaustionTheorems
import ShadowOS.Proc.Lemmas.Switch
import ShadowOS.Proc.SchedulerTheorems

/-!
# The bounds of the process table
-/

namespace ShadowOS.Proc

open Mm

variable {H : Type} {A : Allocator H} {inUse : H → Set U64} {k k' k₀ : Kernel H} {last : U64 → RegisterCtx} {ops : List SchedOp}
  {user : Bool} {entry pagemap : U64}

namespace SchedOp

def call (A : Allocator H) (k : Kernel H) : SchedOp → Option (Kernel H)
  | .spawn user entry pagemap => (schedulerSpawn A k user entry pagemap).toOption.map Prod.snd
  | .tick ctx => (schedulerTick k ctx).toOption.map Prod.snd
  | .exit => some (schedulerExit A k)

/-- The indices at which a call reads or writes the table. -/
def indices (A : Allocator H) (k : Kernel H) : SchedOp → List Nat
  | .spawn user _ pagemap =>
      let (proc, mm, _) := A.kmalloc k.mm k.heap pcbSize
      if proc = 0 ∨ (spawnStack mm user pagemap).isNone then []
      -- the entry is written, and then `scheduler_proc_add_vnode` reads it
      else k.count.toNat :: if k.count + 1 ≤ k.count then [] else [k.count.toNat]
  | .tick ctx =>
      if k.locked ∨ k.count = 0 then []
      else
        let k' := tickCurrent k ctx
        let pcb := k'.pcbs (k'.table k'.currentPid.toNat)
        k.currentPid.toNat :: k'.currentPid.toNat ::
          if k'.table k'.currentPid.toNat ≠ 0 ∧ pcb.state = .terminated then [pcb.pid.toNat] else []
  | .exit =>
      k.currentPid.toNat :: if k.table k.currentPid.toNat ≠ 0 then [(k.pcbs (k.table k.currentPid.toNat)).pid.toNat] else []

/-- A spawn without room in the table fails and leaves it alone. -/
def FailsWhenFull (A : Allocator H) (k : Kernel H) : SchedOp → Prop
  | .spawn user entry pagemap => procMaxProcs ≤ k.count.toNat →
      ∃ k', schedulerSpawn A k user entry pagemap = .ok (-1, k') ∧ k'.count = k.count ∧ k'.table = k.table
  | _ => True

/-- A call stays inside of the table. -/
def InTable (A : Allocator H) (k : Kernel H) (op : SchedOp) : Prop :=
  (∀ i ∈ op.indices A k, i < procMaxProcs) ∧ op.FailsWhenFull A k

/-- A spawn has room in the table, or no memory for a control block. -/
def HasRoom (A : Allocator H) (k : Kernel H) : SchedOp → Prop
  | .spawn _ _ _ => k.count.toNat < procMaxProcs ∨ (A.kmalloc k.mm k.heap pcbSize).1 = 0
  | _ => True

instance (A : Allocator H) (k : Kernel H) (op : SchedOp) : Decidable (op.HasRoom A k) :=
  match op with
  | .spawn _ _ _ => inferInstanceAs (Decidable (_ ∨ _))
  | .tick _ => isTrue trivial
  | .exit => isTrue trivial

end SchedOp

/-! ## Steps -/

/-- A spawn stays inside exactly if there is room. -/
theorem spawn_inTable_iff : (SchedOp.spawn user entry pagemap).InTable A k ↔ (SchedOp.spawn user entry pagemap).HasRoom A k := by
  rcases hkm : A.kmalloc k.mm k.heap pcbSize with ⟨proc, mm, heap⟩
  constructor
  · intro h
    by_contra hfull
    simp only [SchedOp.HasRoom, hkm, not_or, Nat.not_lt] at hfull
    obtain ⟨k', hres, hcount, _⟩ := h.2 hfull.1
    rcases schedulerSpawn_cases hkm hres with ⟨h0, _⟩ | ⟨_, _, _, _, _, _, _, _, rfl⟩
    · exact hfull.2 h0
    · exact absurd hcount (by simp)
  · intro h
    simp only [SchedOp.HasRoom, hkm] at h
    by_cases h0 : proc = 0
    · refine ⟨?_, fun _ => ⟨{ k with mm := mm, heap := heap }, ?_, rfl, rfl⟩⟩
      · simp [SchedOp.indices, hkm, h0]
      · simp [schedulerSpawn, hkm, h0]
    · have hlt := h.resolve_right h0
      refine ⟨fun i hi => ?_, fun hfull => absurd hlt (Nat.not_lt.mpr hfull)⟩
      simp only [SchedOp.indices, hkm] at hi
      split at hi
      · cases hi
      · split at hi
        · rw [List.mem_singleton.mp hi]
          exact hlt
        · have hi : i = k.count.toNat := by simpa using hi
          rw [hi]
          exact hlt

namespace Switching

variable {blocks : List U64}

/-- The index of the current process and its pid are in the table. -/
theorem exit_inTable (h : Switching inUse procMaxProcs blocks k last) : SchedOp.exit.InTable A k := by
  refine ⟨fun i hi => ?_, trivial⟩
  simp only [SchedOp.indices] at hi
  split at hi
  · rename_i h0
    have hpid := (h.slots _ h.current h0).pid
    rw [hpid] at hi
    have hi : i = k.currentPid.toNat := by simpa using hi
    rw [hi]
    exact h.current
  · rw [List.mem_singleton.mp hi]
    exact h.current

theorem tick_inTable (h : Switching inUse procMaxProcs blocks k last) (ctx : RegisterCtx) : (SchedOp.tick ctx).InTable A k := by
  refine ⟨fun i hi => ?_, trivial⟩
  simp only [SchedOp.indices] at hi
  split at hi
  · cases hi
  · rename_i hrun
    rw [not_or] at hrun
    have hmid := h.tickCurrent hrun.2 ctx
    rw [List.mem_cons, List.mem_cons] at hi
    rcases hi with rfl | rfl | hi
    · exact h.current
    · exact hmid.current
    · split at hi
      · rename_i h0
        rw [List.mem_singleton.mp hi, (hmid.slots _ hmid.current h0.1).pid]
        exact hmid.current
      · cases hi

end Switching

/-- Every entry of the table is a process with its index as pid, and the spawns have not left the table. -/
def Tabled (inUse : H → Set U64) (k : Kernel H) : Prop := ∃ blocks last, Switching inUse procMaxProcs blocks k last

theorem Tabled.inTable_iff {op : SchedOp} (h : Tabled inUse k) : op.InTable A k ↔ op.HasRoom A k := by
  obtain ⟨blocks, last, h⟩ := h
  cases op with
  | spawn user entry pagemap => exact spawn_inTable_iff
  | tick ctx => exact ⟨fun _ => trivial, fun _ => h.tick_inTable ctx⟩
  | exit => exact ⟨fun _ => trivial, fun _ => h.exit_inTable⟩

theorem Tabled.step {op : SchedOp} (hA : AllocatorSpec A inUse) (h : Tabled inUse k) (hroom : op.HasRoom A k)
    (he : op.call A k = some k') : Tabled inUse k' := by
  obtain ⟨blocks, last, h⟩ := h
  cases op with
  | spawn user entry pagemap =>
      simp only [SchedOp.call] at he
      cases hres : schedulerSpawn A k user entry pagemap with
      | error e =>
          rw [hres] at he
          cases he
      | ok res =>
          rw [hres] at he
          obtain ⟨pid, k₁⟩ := res
          cases Option.some.inj he
          obtain ⟨n, hn, blocks', h'⟩ := h.spawn hA rfl hres
          rcases hroom with hroom | h0
          · have hsize : n = procMaxProcs := le_antisymm (hn.trans (max_le le_rfl hroom)) h'.size
            exact ⟨blocks', _, hsize ▸ h'⟩
          · -- without a block nothing but the heap changes
            rcases schedulerSpawn_cases rfl hres with ⟨_, rfl⟩ | ⟨hne, _⟩
            · refine ⟨blocks, last, fun i hi hi0 => ?_, h.nodup, fun b hb => hA.kept _ _ _ (h.used b hb), h.length, h.size,
                h.count, h.current⟩
              have hs := h.slots i hi hi0
              exact hs.congr rfl (.refl _) hs.running hs.block rfl
            · exact absurd h0 hne
  | tick ctx =>
      simp only [SchedOp.call] at he
      cases hres : schedulerTick k ctx with
      | error e =>
          rw [hres] at he
          cases he
      | ok res =>
          rw [hres] at he
          obtain ⟨ctx', k₁⟩ := res
          cases Option.some.inj he
          exact ⟨blocks, _, h.tick hres⟩
  | exit =>
      cases Option.some.inj he
      obtain ⟨blocks', h'⟩ := h.exit hA
      exact ⟨blocks', last, h'⟩

/-! ## Runs -/

/-- In every run the table is not left, and a spawn fails for the lack of room, exactly if there is room whenever a process is
spawned. -/
theorem scheduler_table_bounded_iff (hA : AllocatorSpec A inUse) (hboot : k₀.Boot) (hinit : (schedulerInit A k₀).procs ≠ 0) :
    AllSteps (SchedOp.call A) (SchedOp.InTable A) (schedulerInit A k₀) ops ↔
      AllSteps (SchedOp.call A) (SchedOp.HasRoom A) (schedulerInit A k₀) ops := by
  have hstart : Tabled inUse (schedulerInit A k₀) := ⟨[], fun _ => ⟨fun _ => 0, 0, 0, 0, 0, 0⟩, .init hboot hinit _⟩
  exact allSteps_iff Tabled.inTable_iff (fun h hroom he => Tabled.step hA h hroom he) hstart

theorem scheduler_table_bounded_iff_sample :
    AllSteps (SchedOp.call bumpAllocator) (SchedOp.InTable bumpAllocator) (schedulerInit bumpAllocator sampleProcs)
      [sampleSpawn 0, sampleTick, sampleSpawn 1, .exit] :=
  (scheduler_table_bounded_iff bumpAllocator_spec ⟨rfl, rfl, rfl⟩ (by decide +kernel)).mpr (by decide +kernel)

/-! ## A machine without free frames -/

structure Drained (k : Mm.State) : Prop where
  idx : k.stack.idx = 0
  hhdm : k.hhdmOffset ≠ 0

namespace Drained

variable {mm : Mm.State}

theorem nextTable (h : Drained mm) (t i : U64) : Drained (nextTable mm t i).2 := by
  simp only [Mm.nextTable, request_of_idx h.idx]
  split
  · exact ⟨h.idx, h.hhdm⟩
  · exact h

theorem vmmMap (h : Drained mm) (pm v p fl : U64) : Drained (vmmMap mm pm v p fl) :=
  have htable := ((h.nextTable pm (pmlIdx v 39)).nextTable _ (pmlIdx v 30)).nextTable _ (pmlIdx v 21)
  ⟨htable.idx, htable.hhdm⟩

theorem mapRange {dest src start size flags : U64} (h : Drained mm) (fuel : Nat) (offset : U64) :
    Drained (mapRange dest src start size flags fuel offset mm) := by
  induction fuel generalizing mm offset with
  | zero => exact h
  | succ fuel ih =>
      simp only [Proc.mapRange]
      split
      · split
        · exact ih (h.vmmMap _ _ _ _) _
        · exact ih h _
      · exact h

theorem spawnMaps (h : Drained mm) (user : Bool) (pagemap proc procs : U64) :
    Drained (spawnMaps mm user pagemap proc procs) :=
  ((h.vmmMap pagemap proc proc (mapFlags user)).mapRange _ _).mapRange _ _

theorem root_store_self (mm : Mm.State) (p v : U64) : VmaContext.root (mm.store p v) p = VmaContext.root mm p := by
  refine Mem.load64_store64_of_disjoint fun d hd => ?_
  have hnext : p + 8 - mm.hhdmOffset + BitVec.ofNat 64 d - (p - mm.hhdmOffset) = 8 + BitVec.ofNat 64 d := by ring
  have h8 : (8 : U64).toNat = 8 := rfl
  change 8 ≤ (p + 8 - mm.hhdmOffset + BitVec.ofNat 64 d - (p - mm.hhdmOffset)).toNat
  rw [hnext, BitVec.toNat_add, BitVec.toNat_ofNat, h8]
  omega

theorem root_store_next (mm : Mm.State) (p v : U64) : VmaContext.root (mm.store (p + 8) v) p = v :=
  Mem.load64_store64_self _ _ _

/-- The context and its first region are both at the page 0, so that the context ends up without a region. -/
theorem vmaCreateContext (h : Drained mm) (pagemap : U64) : ∃ mm', vmaCreateContext mm pagemap = (mm.hhdmOffset, mm') ∧
    Drained mm' ∧ VmaContext.root mm' mm.hhdmOffset = 0 := by
  have hreq : ∀ m, pmmRequestPage { mm with outOfMemory := true, mem := m } = (0, { mm with outOfMemory := true, mem := m }) :=
    fun m => request_of_idx h.idx
  have hne := h.hhdm
  unfold Mm.vmaCreateContext
  rw [request_of_idx h.idx]
  simp only [higherHalf_zero, hne, ↓reduceIte, State.memset, hreq, root_store_next, root_store_self]
  exact ⟨_, rfl, ⟨h.idx, hne⟩, root_store_next _ _ _⟩

theorem spawnStack (h : Drained mm) (user : Bool) (pagemap : U64) :
    ∃ mm', spawnStack mm user pagemap = some (mm.hhdmOffset, 0, mm') ∧ Drained mm' := by
  obtain ⟨mm', hctx, hd, hroot⟩ := h.vmaCreateContext pagemap
  have halloc : vmaAlloc mm' mm.hhdmOffset stackSize (mapFlags user) = some (0, mm') := if_pos (.inr (.inl hroot))
  exact ⟨mm', by simp only [Proc.spawnStack, hctx, halloc]; rfl, hd⟩

end Drained

/-- A kernel without free frames, with room on the heap, after `n` processes were spawned. -/
structure Crowded (n : Nat) (k : Kernel U64) : Prop where
  count : k.count.toNat = n
  heap : k.heap.toNat = 0x5000 + n * 8496
  stdout : k.stdout ≠ 0
  drained : Drained k.mm

namespace Crowded

variable {n : Nat} {k : Kernel U64}

theorem kmalloc (h : Crowded n k) (hn : n ≤ 4096) :
    bumpAllocator.kmalloc k.mm k.heap pcbSize = (k.heap, k.mm, k.heap + pcbSize) := by
  have hheap := h.heap
  have hsize : pcbSize.toNat = 8496 := rfl
  have hlt : k.heap < k.heap + pcbSize := by
    rw [BitVec.lt_def, BitVec.toNat_add, hsize]
    omega
  simp only [bumpAllocator, hlt, ↓reduceIte]

theorem heap_ne (h : Crowded n k) : k.heap ≠ 0 := by
  intro hc
  have hheap := h.heap
  have h0 : (0 : U64).toNat = 0 := rfl
  rw [hc, h0] at hheap
  omega

theorem spawn (h : Crowded n k) (hn : n ≤ 4096) :
    ∃ k', (sampleSpawn 0).call bumpAllocator k = some k' ∧ Crowded (n + 1) k' := by
  obtain ⟨mm, hstack, hd⟩ := h.drained.spawnStack true (samplePagemap 0)
  have hcount := h.count
  have hheap := h.heap
  have h1 : (1 : U64).toNat = 1 := rfl
  have hsize : pcbSize.toNat = 8496 := rfl
  have hinc : (k.count + 1).toNat = n + 1 := by
    rw [BitVec.toNat_add, h1]
    omega
  have hgrow : (k.heap + pcbSize).toNat = 0x5000 + (n + 1) * 8496 := by
    rw [BitVec.toNat_add, hsize]
    omega
  have hlt : ¬ k.count + 1 ≤ k.count := by
    rw [BitVec.le_def]
    omega
  have hfds : (0 : U64) < BitVec.ofNat 64 procMaxFds := by decide
  simp only [sampleSpawn, SchedOp.call, schedulerSpawn, h.kmalloc hn, h.heap_ne, ↓reduceIte, hstack, schedulerProcAddVnode,
    Function.update_self, hlt, or_self, h.stdout, newPcb, hfds]
  exact ⟨_, rfl, hinc, hgrow, h.stdout, hd.spawnMaps _ _ _ _⟩

/-- So many spawns in a row all succeed. -/
theorem run {m : Nat} (h : Crowded n k) (hm : n + m ≤ 4096) :
    ∃ k', run (SchedOp.call bumpAllocator) k (List.replicate m (sampleSpawn 0)) = some k' ∧ Crowded (n + m) k' := by
  induction m generalizing n k with
  | zero => exact ⟨k, rfl, h⟩
  | succ m ih =>
      obtain ⟨k₁, hspawn, h₁⟩ := h.spawn (by omega)
      obtain ⟨k', hrun, h'⟩ := ih h₁ (by omega)
      refine ⟨k', ?_, by rwa [Nat.add_right_comm] at h'⟩
      rw [List.replicate_succ, run_cons_some hspawn, hrun]

end Crowded

/-- The machine with no free frame left, before the scheduler starts. -/
def crowdedProcs : Kernel U64 := { sampleProcs with mm := drainedKernel }

/-- After 2048 spawns the next one writes past the end of the table. -/
theorem scheduler_table_overflows :
    ¬ AllSteps (SchedOp.call bumpAllocator) (SchedOp.InTable bumpAllocator) (schedulerInit bumpAllocator crowdedProcs)
      (List.replicate 2049 (sampleSpawn 0)) := by
  have hstart : Crowded 0 (schedulerInit bumpAllocator crowdedProcs) :=
    ⟨by decide, by decide, by decide, by decide, by decide⟩
  obtain ⟨k, hrun, h⟩ := hstart.run (m := 2048) (by decide)
  intro hall
  have hsplit : List.replicate 2049 (sampleSpawn 0) = List.replicate 2048 (sampleSpawn 0) ++ sampleSpawn 0 :: [] :=
    List.replicate_succ'
  rw [hsplit] at hall
  have hin := hall.after hrun
  rcases spawn_inTable_iff.mp hin with hroom | hnone
  · rw [h.count] at hroom
    exact absurd hroom (by decide)
  · rw [h.kmalloc (by decide)] at hnone
    exact h.heap_ne hnone

end ShadowOS.Proc
