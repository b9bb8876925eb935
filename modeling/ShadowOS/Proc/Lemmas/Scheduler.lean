import ShadowOS.Base.Run
import ShadowOS.Proc.Lemmas.Descriptors

/-!
# Processes over whole runs
-/

namespace ShadowOS.Proc

open Mm

variable {H : Type} {A : Allocator H} {inUse : H → Set U64} {k k' : Kernel H} {live : List Process}

theorem umod_lt (x : U64) {n : U64} (h : n ≠ 0) : (x % n).toNat < n.toNat := by
  rw [BitVec.toNat_umod]
  exact Nat.mod_lt _ (Nat.pos_of_ne_zero fun hc => h (BitVec.eq_of_toNat_eq hc))

/-! ## What the calls do -/

/-- The block of a process that was just spawned. -/
structure NewProcess (k : Kernel H) (pcb : Pcb) : Prop where
  pid : pcb.pid = k.count
  state : pcb.state = .ready
  timeslice : pcb.timeslice = procDefaultTime
  fds : ∀ T, k.stdout ∈ T → FdInv T pcb

/-- A spawn fails without a block, or enters a new process under the number of processes. -/
theorem schedulerSpawn_cases {user : Bool} {entry pagemap pid : U64} {proc : U64} {mm : Mm.State} {heap : H}
    (hkm : A.kmalloc k.mm k.heap pcbSize = (proc, mm, heap))
    (hres : schedulerSpawn A k user entry pagemap = .ok (pid, k')) :
    proc = 0 ∧ k' = { k with mm := mm, heap := heap } ∨
    proc ≠ 0 ∧ pid = k.count ∧ ∃ vmaCtx stack mm' pcb, spawnStack mm user pagemap = some (vmaCtx, stack, mm') ∧
      NewProcess k pcb ∧ k' = { k with
      mm := spawnMaps mm' user pagemap proc k.procs
      heap := heap
      count := k.count + 1
      pcbs := Function.update k.pcbs proc pcb
      table := Function.update k.table k.count.toNat proc } := by
  simp only [schedulerSpawn, hkm] at hres
  split at hres
  · exact .inl ⟨‹_›, (Prod.mk.inj (Except.ok.inj hres)).2.symm⟩
  · refine .inr ⟨‹_›, ?_⟩
    split at hres
    · cases hres
    · rename_i vmaCtx stack mm' hstack
      generalize hk₁ : ({ k with
        mm := spawnMaps mm' user pagemap proc k.procs
        heap := heap
        count := k.count + 1
        pcbs := Function.update k.pcbs proc (newPcb (k.pcbs proc) user k.count entry pagemap vmaCtx stack)
        table := Function.update k.table k.count.toNat proc } : Kernel H) = k₁ at hres
      cases hadd : schedulerProcAddVnode k₁ k.count k.stdout with
      | error e =>
          rw [hadd] at hres
          cases hres
      | ok res =>
          obtain ⟨r, k₂⟩ := res
          rw [hadd] at hres
          obtain ⟨hpid, hk'⟩ := Prod.mk.inj (Except.ok.inj hres)
          refine ⟨hpid.symm, ?_⟩
          subst hk'
          have hnew : ∀ T, FdInv T (newPcb (k.pcbs proc) user k.count entry pagemap vmaCtx stack) :=
            fun T => .newPcb _ _ _ _ _ _ _
          rcases schedulerProcAddVnode_cases hadd with ⟨_, he⟩ | ⟨_, pcb, hsame, hfew, htable, hcount, _, he⟩
          · rw [he, ← hk₁]
            exact ⟨vmaCtx, stack, mm', _, hstack, ⟨rfl, rfl, rfl, fun T _ => hnew T⟩, rfl⟩
          · rw [← hk₁] at hsame hfew htable hcount he
            simp only [Function.update_self, Function.update_idem] at hsame hfew htable hcount he
            exact ⟨vmaCtx, stack, mm', pcb, hstack, ⟨hsame.pid, hsame.state, hsame.timeslice,
              fun T hT => (hnew T).add hfew hT htable hcount⟩, he⟩

/-- A spawn that returns a pid has a block for the process and a vnode for its output. -/
theorem schedulerSpawn_pid {user : Bool} {entry pagemap pid : U64}
    (hres : schedulerSpawn A k user entry pagemap = .ok (pid, k')) (hpid : pid ≠ -1) :
    (A.kmalloc k.mm k.heap pcbSize).1 ≠ 0 ∧ k.stdout ≠ 0 := by
  rcases hkm : A.kmalloc k.mm k.heap pcbSize with ⟨proc, mm, heap⟩
  have hcases := schedulerSpawn_cases hkm hres
  simp only [schedulerSpawn, hkm] at hres
  split at hres
  · exact absurd (Prod.mk.inj (Except.ok.inj hres)).1.symm hpid
  · rename_i h0
    refine ⟨h0, fun hout => ?_⟩
    rcases hcases with ⟨hc, _⟩ | ⟨_, rfl, _⟩
    · exact h0 hc
    · have hnext : ¬ k.count + 1 ≤ k.count := by
        have hne : k.count.toNat ≠ 2 ^ 64 - 1 := fun hc => hpid (BitVec.eq_of_toNat_eq hc)
        have hlt := k.count.isLt
        rw [BitVec.le_def, BitVec.toNat_add]
        simp only [BitVec.ofNat_eq_ofNat, BitVec.toNat_ofNat]
        omega
      split at hres
      · cases hres
      · -- the assertion on the vnode fails
        simp only [schedulerProcAddVnode, hout, Function.update_self, h0, hnext, or_self, ↓reduceIte] at hres
        cases hres

theorem tickCurrent_eq (k : Kernel H) (ctx : RegisterCtx) :
    (tickCurrent k ctx).table = k.table ∧ (tickCurrent k ctx).count = k.count ∧
      ((tickCurrent k ctx).currentPid = k.currentPid ∨ (tickCurrent k ctx).currentPid = (k.currentPid + 1) % k.count) := by
  simp only [tickCurrent]
  split
  · split
    · exact ⟨rfl, rfl, .inr rfl⟩
    · exact ⟨rfl, rfl, .inl rfl⟩
  · exact ⟨rfl, rfl, .inl rfl⟩

theorem tickNext_ne (k : Kernel H) (ctx : RegisterCtx) (h : k.table k.currentPid.toNat ≠ 0) :
    tickNext k ctx ≠ .error .nextProc := by
  simp only [tickNext, h, ↓reduceIte]
  split
  · split
    · simp
    · simp
  · simp
  · simp
  · simp

/-! ## The invariant -/

/-- Every process that is alive has a pid, a block and an entry of its own, and the table has no other entries. -/
structure SchedInv (inUse : H → Set U64) (k : Kernel H) (live : List Process) : Prop where
  pids : (live.map Process.pid).Nodup
  blocks : (live.map Process.proc).Nodup
  entry : ∀ p ∈ live, k.table p.pid.toNat = p.proc
  nonnull : ∀ p ∈ live, p.proc ≠ 0
  used : ∀ p ∈ live, p.proc ∈ inUse k.heap
  pid : ∀ p ∈ live, (k.pcbs p.proc).pid = p.pid
  alive : ∀ p ∈ live, (k.pcbs p.proc).state ≠ .terminated
  bound : ∀ p ∈ live, p.pid.toNat < procMaxProcs
  table : ∀ i < procMaxProcs, k.table i ≠ 0 → ∃ p ∈ live, p.pid.toNat = i
  count : k.count.toNat = live.length
  few : live.length ≤ procMaxProcs
  current : k.currentPid.toNat < procMaxProcs

namespace SchedInv

/-- The entry that is current names the process with that pid. -/
theorem current_mem (h : SchedInv inUse k live) (hne : k.table k.currentPid.toNat ≠ 0) :
    ∃ p ∈ live, p.pid = k.currentPid ∧ p.proc = k.table k.currentPid.toNat := by
  obtain ⟨p, hp, hpid⟩ := h.table _ h.current hne
  refine ⟨p, hp, BitVec.eq_of_toNat_eq hpid, ?_⟩
  rw [← hpid, h.entry p hp]

/-- The block of a process may change if it keeps the pid and the process is not terminated. -/
theorem update (h : SchedInv inUse k live) {proc : U64} {pcb : Pcb} {currentPid : U64} (mm : Mm.State) (locked : Bool)
    (hpid : pcb.pid = (k.pcbs proc).pid) (halive : pcb.state ≠ .terminated)
    (hcur : currentPid.toNat < procMaxProcs) :
    SchedInv inUse { k with
      mm := mm, pcbs := Function.update k.pcbs proc pcb, currentPid := currentPid, locked := locked } live := by
  refine ⟨h.pids, h.blocks, h.entry, h.nonnull, h.used, fun p hp => ?_, fun p hp => ?_, h.bound, h.table, h.count, h.few,
    hcur⟩
  · by_cases he : p.proc = proc
    · simp only [he, Function.update_self, hpid]
      rw [← he]
      exact h.pid p hp
    · simp only [Function.update_of_ne he]
      exact h.pid p hp
  · by_cases he : p.proc = proc
    · simp only [he, Function.update_self]
      exact halive
    · simp only [Function.update_of_ne he]
      exact h.alive p hp

theorem unlock (h : SchedInv inUse k live) (locked : Bool) : SchedInv inUse { k with locked := locked } live :=
  ⟨h.pids, h.blocks, h.entry, h.nonnull, h.used, h.pid, h.alive, h.bound, h.table, h.count, h.few, h.current⟩

/-! ## Ticks -/

theorem tickCurrent (h : SchedInv inUse k live) (h0 : k.count ≠ 0) (ctx : RegisterCtx) :
    SchedInv inUse (Proc.tickCurrent k ctx) live := by
  simp only [Proc.tickCurrent]
  split
  · rename_i hrun
    have hlt := umod_lt (k.currentPid + 1) h0
    have hcount := h.count
    have hfew := h.few
    split
    · exact h.update k.mm k.locked rfl (by simp) (by omega)
    · exact h.update k.mm k.locked rfl (by simp [hrun.2.1]) h.current
  · exact h

theorem tickNext {ctx ctx' : RegisterCtx} (h : SchedInv inUse k live) (hres : Proc.tickNext k ctx = .ok (ctx', k')) :
    SchedInv inUse k' live ∧ k'.count = k.count ∧ k'.currentPid = k.currentPid := by
  simp only [Proc.tickNext] at hres
  split at hres
  · cases hres
  · rename_i hne
    obtain ⟨p, hp, _, hproc⟩ := h.current_mem hne
    rw [← hproc] at hres
    split at hres
    · split at hres
      · cases hres
      · rw [← (Prod.mk.inj (Except.ok.inj hres)).2]
        exact ⟨h.update _ _ rfl (by simp) h.current, rfl, rfl⟩
    · rename_i hs
      exact absurd hs (h.alive p hp)
    · rw [← (Prod.mk.inj (Except.ok.inj hres)).2]
      exact ⟨h.unlock false, rfl, rfl⟩
    · rw [← (Prod.mk.inj (Except.ok.inj hres)).2]
      exact ⟨h.unlock false, rfl, rfl⟩

/-- A tick stays at the current process or goes on to the next. -/
theorem tick {ctx ctx' : RegisterCtx} (h : SchedInv inUse k live) (hres : schedulerTick k ctx = .ok (ctx', k')) :
    SchedInv inUse k' live ∧ k'.count = k.count ∧
      (k'.currentPid = k.currentPid ∨ k.count ≠ 0 ∧ k'.currentPid = (k.currentPid + 1) % k.count) := by
  simp only [schedulerTick] at hres
  split at hres
  · cases hres
  · split at hres
    · rw [← (Prod.mk.inj (Except.ok.inj hres)).2]
      exact ⟨h.unlock false, rfl, .inl rfl⟩
    · rename_i h0
      obtain ⟨_, hcount, hcur⟩ := tickCurrent_eq { k with locked := true } ctx
      obtain ⟨hinv, hcount', hcur'⟩ := ((h.unlock true).tickCurrent h0 ctx).tickNext hres
      refine ⟨hinv, hcount'.trans hcount, ?_⟩
      rw [hcur']
      exact hcur.imp_right fun hcur => ⟨h0, hcur⟩

/-! ## Exit and spawn -/

/-- The process at the current entry exits, and its own entry is cleared. -/
theorem exit (h : SchedInv inUse k live) (hA : AllocatorSpec A inUse) :
    SchedInv inUse (schedulerExit A k) (live.filter fun p => p.proc ≠ k.table k.currentPid.toNat) := by
  by_cases hne : k.table k.currentPid.toNat = 0
  · have hall : (live.filter fun p => p.proc ≠ k.table k.currentPid.toNat) = live := by
      rw [List.filter_eq_self]
      intro p hp
      simpa [hne] using h.nonnull p hp
    rw [hall]
    simp only [schedulerExit, hne, ne_eq, not_true_eq_false, ↓reduceIte]
    exact h
  · obtain ⟨q, hq, hcur, hproc⟩ := h.current_mem hne
    have hrest : (live.filter fun p => p.proc ≠ k.table k.currentPid.toNat) = live.erase q := by
      rw [(List.Nodup.of_map _ h.pids).erase_eq_filter]
      refine List.filter_congr (fun p hp => ?_)
      rw [← hproc]
      have hiff : p.proc = q.proc ↔ p = q :=
        ⟨fun he => List.inj_on_of_nodup_map h.blocks hp hq he, fun he => by rw [he]⟩
      by_cases hpq : p = q
      · simp [hpq]
      · simp [hiff, hpq]
    have hpid : (k.pcbs q.proc).pid.toNat = q.pid.toNat := by rw [h.pid q hq]
    have hmem : ∀ p ∈ live.erase q, p ∈ live ∧ p ≠ q := by
      intro p hp
      rw [(List.Nodup.of_map _ h.pids).mem_erase_iff] at hp
      exact ⟨hp.2, hp.1⟩
    have hother : ∀ p ∈ live.erase q, p.proc ≠ q.proc := fun p hp he =>
      (hmem p hp).2 (List.inj_on_of_nodup_map h.blocks (hmem p hp).1 hq he)
    have hpids : ∀ p ∈ live.erase q, p.pid.toNat ≠ q.pid.toNat := fun p hp he =>
      (hmem p hp).2 (List.inj_on_of_nodup_map h.pids (hmem p hp).1 hq (BitVec.eq_of_toNat_eq he))
    have hlen := List.length_erase_of_mem hq
    have hpos := List.length_pos_of_mem hq
    have hcount := h.count
    have hfew := h.few
    have hsub : (live.erase q).Sublist live := List.erase_sublist
    have hdec : (k.count - 1).toNat = live.length - 1 := by
      have hlt := k.count.isLt
      have h1 : (1 : U64).toNat = 1 := rfl
      rw [BitVec.toNat_sub, h1]
      omega
    rw [hrest]
    simp only [schedulerExit, ne_eq, hne, not_false_eq_true, ↓reduceIte]
    rw [← hproc]
    simp only [hpid]
    refine ⟨h.pids.sublist (hsub.map _), h.blocks.sublist (hsub.map _), fun p hp => ?_, fun p hp => h.nonnull p (hmem p hp).1,
      fun p hp => ?_, fun p hp => ?_, fun p hp => ?_, fun p hp => h.bound p (hmem p hp).1, fun i hi hne => ?_, ?_, ?_, ?_⟩
    · simp only [Function.update_of_ne (hpids p hp)]
      exact h.entry p (hmem p hp).1
    · exact hA.freed _ _ _ ⟨h.used p (hmem p hp).1, hother p hp⟩
    · simp only [Function.update_of_ne (hother p hp)]
      exact h.pid p (hmem p hp).1
    · simp only [Function.update_of_ne (hother p hp)]
      exact h.alive p (hmem p hp).1
    · by_cases hiq : i = q.pid.toNat
      · subst hiq
        simp at hne
      · simp only [Function.update_of_ne hiq] at hne
        obtain ⟨p, hp, hpi⟩ := h.table i hi hne
        refine ⟨p, ?_, hpi⟩
        rw [(List.Nodup.of_map _ h.pids).mem_erase_iff]
        exact ⟨by rintro rfl; exact hiq hpi.symm, hp⟩
    · simp only [hdec, hlen]
    · omega
    · simp only
      split
      · decide
      · rename_i h0
        have hlt := umod_lt (k.currentPid + 1) h0
        omega

/-- A new process is entered under a pid that no other has. -/
theorem spawn {user : Bool} {entry pagemap pid proc : U64} {mm : Mm.State} {heap : H} (h : SchedInv inUse k live)
    (hA : AllocatorSpec A inUse) (hfew : live.length < procMaxProcs) (hnew : ∀ p ∈ live, p.pid ≠ k.count)
    (hkm : A.kmalloc k.mm k.heap pcbSize = (proc, mm, heap))
    (hres : schedulerSpawn A k user entry pagemap = .ok (pid, k')) :
    SchedInv inUse k' (if proc = 0 then live else ⟨pid, proc⟩ :: live) := by
  have hfresh := hA.fresh k.mm k.heap pcbSize
  have hused := hA.used k.mm k.heap pcbSize
  have hkept := hA.kept k.mm k.heap pcbSize
  rw [hkm] at hfresh hused hkept
  rcases schedulerSpawn_cases hkm hres with ⟨h0, rfl⟩ | ⟨h0, rfl, _, _, _, pcb, _, hnewp, rfl⟩
  · rw [if_pos h0]
    exact ⟨h.pids, h.blocks, h.entry, h.nonnull, fun p hp => hkept (h.used p hp), h.pid, h.alive, h.bound, h.table, h.count,
      h.few, h.current⟩
  · rw [if_neg h0]
    have hcount := h.count
    have hblock : ∀ p ∈ live, p.proc ≠ proc := by
      rintro p hp rfl
      exact hfresh h0 (h.used p hp)
    have hpids : ∀ p ∈ live, p.pid.toNat ≠ k.count.toNat := fun p hp he => hnew p hp (BitVec.eq_of_toNat_eq he)
    have hinc : (k.count + 1).toNat = live.length + 1 := by
      have h1 : (1 : U64).toNat = 1 := rfl
      rw [BitVec.toNat_add, h1]
      rw [procMaxProcs] at hfew
      omega
    refine ⟨?_, ?_, ?_, ?_, ?_, ?_, ?_, ?_, fun i hi hne => ?_, hinc, hfew, h.current⟩
    · rw [List.map_cons, List.nodup_cons]
      refine ⟨fun hc => ?_, h.pids⟩
      obtain ⟨p, hp, he⟩ := List.mem_map.mp hc
      exact hnew p hp he
    · rw [List.map_cons, List.nodup_cons]
      refine ⟨fun hc => ?_, h.blocks⟩
      obtain ⟨p, hp, he⟩ := List.mem_map.mp hc
      exact hblock p hp he
    · refine List.forall_mem_cons.mpr ⟨by simp, fun p hp => ?_⟩
      simp only [Function.update_of_ne (hpids p hp)]
      exact h.entry p hp
    · exact List.forall_mem_cons.mpr ⟨h0, h.nonnull⟩
    · exact List.forall_mem_cons.mpr ⟨hused h0, fun p hp => hkept (h.used p hp)⟩
    · refine List.forall_mem_cons.mpr ⟨by simpa using hnewp.pid, fun p hp => ?_⟩
      simp only [Function.update_of_ne (hblock p hp)]
      exact h.pid p hp
    · refine List.forall_mem_cons.mpr ⟨by simp [hnewp.state], fun p hp => ?_⟩
      simp only [Function.update_of_ne (hblock p hp)]
      exact h.alive p hp
    · exact List.forall_mem_cons.mpr ⟨by simp only; omega, h.bound⟩
    · by_cases hic : i = k.count.toNat
      · exact ⟨⟨k.count, proc⟩, by simp, hic.symm⟩
      · simp only [Function.update_of_ne hic] at hne
        obtain ⟨p, hp, hpi⟩ := h.table i hi hne
        exact ⟨p, by simp [hp], hpi⟩

/-! ## Steps -/

theorem step {s s' : Kernel H × List Process} (op : SchedOp) (h : SchedInv inUse s.1 s.2) (hA : AllocatorSpec A inUse)
    (hfew : op.Few s) (hnew : op.NewPid s) (he : op.exec A s = some s') : SchedInv inUse s'.1 s'.2 := by
  obtain ⟨k, live⟩ := s
  cases op with
  | spawn user entry pagemap =>
      simp only [SchedOp.exec] at he
      split at he
      · cases he
      · rename_i pid k' hres
        cases Option.some.inj he
        exact h.spawn hA hfew hnew rfl hres
  | tick ctx =>
      simp only [SchedOp.exec] at he
      split at he
      · cases he
      · rename_i ctx' k' hres
        cases Option.some.inj he
        exact (h.tick hres).1
  | exit =>
      cases Option.some.inj he
      exact h.exit hA

theorem noneLost {s : Kernel H × List Process} (h : SchedInv inUse s.1 s.2) : NoneLost s := ⟨h.pids, h.entry⟩

theorem init {k₀ : Kernel H} (hboot : k₀.Boot) (hinit : (schedulerInit A k₀).procs ≠ 0) :
    SchedInv inUse (schedulerInit A k₀) [] := by
  simp only [schedulerInit] at hinit ⊢
  refine ⟨.nil, .nil, by simp, by simp, by simp, by simp, by simp, by simp, fun i hi hne => ?_, ?_, by simp, ?_⟩
  · simp only [hinit, ↓reduceIte, hi] at hne
    exact absurd rfl hne
  · simp [hboot.count]
  · simp [hboot.currentPid, procMaxProcs]

end SchedInv

/-! ## A table without holes -/

/-- The processes have the pids below their number, and one of them is current. -/
structure Dense (inUse : H → Set U64) (s : Kernel H × List Process) : Prop where
  inv : SchedInv inUse s.1 s.2
  lt : ∀ p ∈ s.2, p.pid.toNat < s.1.count.toNat
  all : ∀ i < s.1.count.toNat, ∃ p ∈ s.2, p.pid.toNat = i
  current : s.1.currentPid.toNat < s.1.count.toNat ∨ s.1.currentPid = 0

namespace Dense

variable {s s' : Kernel H × List Process}

theorem entry (h : Dense inUse s) {pid : U64} (hlt : pid.toNat < s.1.count.toNat) :
    ∃ p ∈ s.2, s.1.table pid.toNat = p.proc := by
  obtain ⟨p, hp, hpid⟩ := h.all _ hlt
  refine ⟨p, hp, ?_⟩
  rw [← hpid, h.inv.entry p hp]

theorem current_lt (h : Dense inUse s) (h0 : s.1.count ≠ 0) : s.1.currentPid.toNat < s.1.count.toNat := by
  rcases h.current with hlt | hz
  · exact hlt
  · rw [hz]
    exact Nat.pos_of_ne_zero fun hc => h0 (BitVec.eq_of_toNat_eq hc)

theorem someoneToRun (h : Dense inUse s) : SomeoneToRun s := by
  obtain ⟨k, live⟩ := s
  refine ⟨fun hne => ?_, fun ctx => ?_⟩
  · refine h.entry (h.current_lt fun h0 => hne ?_)
    have hcount := h.inv.count
    rw [h0] at hcount
    exact List.eq_nil_of_length_eq_zero hcount.symm
  · simp only [schedulerTick]
    split
    · simp
    · split
      · simp
      · rename_i h0
        obtain ⟨htable, _, hcur⟩ := tickCurrent_eq { k with locked := true } ctx
        refine tickNext_ne _ ctx ?_
        have hlt : (tickCurrent { k with locked := true } ctx).currentPid.toNat < k.count.toNat := by
          rcases hcur with hcur | hcur
          · rw [hcur]
            exact h.current_lt h0
          · rw [hcur]
            exact umod_lt _ h0
        obtain ⟨p, hp, he⟩ := h.entry hlt
        rw [htable]
        simp only at he ⊢
        rw [he]
        exact h.inv.nonnull p hp

theorem spawn {user : Bool} {entry pagemap : U64} (h : Dense inUse s) (hA : AllocatorSpec A inUse)
    (hc : (SchedOp.spawn user entry pagemap).LastExits s) (he : (SchedOp.spawn user entry pagemap).exec A s = some s') :
    Dense inUse s' := by
  obtain ⟨k, live⟩ := s
  have hcount := h.inv.count
  have hinv := h.inv.step (.spawn user entry pagemap) hA
    (show live.length < procMaxProcs by rw [← hcount]; exact hc)
    (fun p hp hpid => Nat.ne_of_lt (h.lt p hp) (congrArg BitVec.toNat hpid)) he
  simp only [SchedOp.exec] at he
  split at he
  · cases he
  · rename_i pid k' hres
    cases Option.some.inj he
    rcases schedulerSpawn_cases rfl hres with ⟨h0, rfl⟩ | ⟨h0, rfl, _, _, _, pcb, _, _, rfl⟩
    · simp only [h0, ↓reduceIte] at hinv ⊢
      exact ⟨hinv, h.lt, h.all, h.current⟩
    · simp only [h0, ↓reduceIte] at hinv ⊢
      have hinc : (k.count + 1).toNat = k.count.toNat + 1 := hinv.count.trans (by rw [List.length_cons, ← hcount])
      refine ⟨hinv, ?_, fun i hi => ?_, ?_⟩
      · refine List.forall_mem_cons.mpr ⟨by simp only; omega, fun p hp => ?_⟩
        have := h.lt p hp
        simp only at this ⊢
        omega
      · simp only at hi
        by_cases hic : i = k.count.toNat
        · exact ⟨⟨k.count, _⟩, List.mem_cons_self, hic.symm⟩
        · obtain ⟨p, hp, hpi⟩ := h.all i (by simp only; omega)
          exact ⟨p, List.mem_cons_of_mem _ hp, hpi⟩
      · refine h.current.imp_left fun hlt => ?_
        simp only at hlt ⊢
        omega

theorem tick {ctx : RegisterCtx} (h : Dense inUse s) (he : (SchedOp.tick ctx).exec A s = some s') : Dense inUse s' := by
  obtain ⟨k, live⟩ := s
  simp only [SchedOp.exec] at he
  split at he
  · cases he
  · rename_i ctx' k' hres
    cases Option.some.inj he
    obtain ⟨hinv, hcount, hcur⟩ := h.inv.tick hres
    refine ⟨hinv, ?_, ?_, ?_⟩
    · simp only [hcount]
      exact h.lt
    · simp only [hcount]
      exact h.all
    · simp only [hcount]
      rcases hcur with hcur | ⟨h0, hcur⟩
      · rw [hcur]
        exact h.current
      · rw [hcur]
        exact .inl (umod_lt _ h0)

theorem exit (h : Dense inUse s) (hA : AllocatorSpec A inUse) (hc : SchedOp.exit.LastExits s)
    (he : SchedOp.exit.exec A s = some s') : Dense inUse s' := by
  obtain ⟨k, live⟩ := s
  have hinv := h.inv.step .exit hA trivial trivial he
  cases Option.some.inj he
  by_cases hne : k.table k.currentPid.toNat = 0
  · have hexit : schedulerExit A k = k := by simp only [schedulerExit, hne, ne_eq, not_true_eq_false, ↓reduceIte]
    have hall : (live.filter fun p => p.proc ≠ k.table k.currentPid.toNat) = live := by
      rw [List.filter_eq_self]
      intro p hp
      simpa [hne] using h.inv.nonnull p hp
    simp only [hexit, hall]
    exact h
  · have hlast := hc hne
    have hcount : (schedulerExit A k).count = k.count - 1 := by
      simp only [schedulerExit, ne_eq, hne, not_false_eq_true, ↓reduceIte]
    have hcur : (schedulerExit A k).currentPid = if k.count - 1 = 0 then 0 else (k.currentPid + 1) % (k.count - 1) := by
      simp only [schedulerExit, ne_eq, hne, not_false_eq_true, ↓reduceIte]
    obtain ⟨q, hq, hqpid, hqproc⟩ := h.inv.current_mem hne
    have hqlt := h.lt q hq
    simp only at hqpid hlast
    have hdec : (k.count - 1).toNat = q.pid.toNat := by
      rw [← hlast, BitVec.add_sub_cancel, hqpid]
    have hcnt : k.count.toNat = q.pid.toNat + 1 := by
      have hb := h.inv.bound q hq
      have h1 : (1 : U64).toNat = 1 := rfl
      rw [← hlast, BitVec.toNat_add, ← hqpid, h1]
      rw [procMaxProcs] at hb
      omega
    refine ⟨hinv, fun p hp => ?_, fun i hi => ?_, ?_⟩
    · simp only [List.mem_filter, decide_eq_true_eq, hcount, hdec] at hp ⊢
      have hlt := h.lt p hp.1
      have hpq : p.pid.toNat ≠ q.pid.toNat := by
        intro hpid
        have hpq := List.inj_on_of_nodup_map h.inv.pids hp.1 hq (BitVec.eq_of_toNat_eq hpid)
        exact hp.2 (by rw [hpq, hqproc])
      simp only at hlt
      omega
    · simp only [hcount, hdec] at hi
      obtain ⟨p, hp, hpi⟩ := h.all i (by simp only; omega)
      refine ⟨p, ?_, hpi⟩
      simp only [List.mem_filter, decide_eq_true_eq]
      refine ⟨hp, fun hproc => ?_⟩
      have hpq := List.inj_on_of_nodup_map h.inv.blocks hp hq (hproc.trans hqproc.symm)
      rw [hpq] at hpi
      omega
    · simp only [hcount, hcur]
      split
      · exact .inr rfl
      · exact .inl (umod_lt _ ‹_›)

theorem step {op : SchedOp} (h : Dense inUse s) (hA : AllocatorSpec A inUse) (hc : op.LastExits s)
    (he : op.exec A s = some s') : Dense inUse s' := by
  cases op with
  | spawn user entry pagemap => exact h.spawn hA hc he
  | tick ctx => exact h.tick he
  | exit => exact h.exit hA hc he

theorem init {k₀ : Kernel H} (hboot : k₀.Boot) (hinit : (schedulerInit A k₀).procs ≠ 0) :
    Dense inUse (schedulerInit A k₀, []) := by
  refine ⟨.init hboot hinit, by simp, fun i hi => ?_, .inr ?_⟩
  · simp [schedulerInit, hboot.count] at hi
  · simp [schedulerInit, hboot.currentPid]

end Dense

end ShadowOS.Proc
