import ShadowOS.Proc.Lemmas.Switch
import ShadowOS.Proc.SchedulerTheorems

/-!
# Theorems about ticks and descriptor tables
-/

namespace ShadowOS.Proc

open Mm

variable {H : Type} {A : Allocator H} {k k₁ : Kernel H}

/-! ## Descriptors -/

/-- After a spawn, over any additions and removals of descriptors, the table of the process stays compact and every call
changes the open vnodes by its own. -/
theorem descriptors_stay_compact {user : Bool} {entry pagemap pid : U64} {ops : List FdOp}
    (hspawn : schedulerSpawn A k user entry pagemap = .ok (pid, k₁)) (hpid : pid ≠ -1) (hops : ∀ op ∈ ops, op.NonNull) :
    run FdOp.exec k₁ ops ≠ none ∧
      AllStates FdOp.exec (fun k' => (k'.pcbs (k₁.table pid.toNat)).Compact) k₁ ops ∧
      AllSteps FdOp.exec (FdOp.Exact (k₁.table pid.toNat)) k₁ ops := by
  have hstart : (k₁.pcbs (k₁.table pid.toNat)).Compact := by
    obtain ⟨h0, hout⟩ := schedulerSpawn_pid hspawn hpid
    rcases schedulerSpawn_cases (Prod.mk.eta (p := A.kmalloc k.mm k.heap pcbSize)).symm hspawn with
      ⟨hc, _⟩ | ⟨_, rfl, _, _, _, pcb, _, hnew, rfl⟩
    · exact absurd hc h0
    · simp only [Function.update_self]
      exact hnew.fds _ hout
  generalize k₁.table pid.toNat = proc at hstart ⊢
  have hsteps : AllSteps FdOp.exec (fun _ op => op.NonNull) k₁ ops := allSteps_of_forall hops
  have hstates : AllStates FdOp.exec (fun k' => (k'.pcbs proc).Compact) k₁ ops := by
    refine hsteps.allStates (fun h hop he => ?_) hstart
    obtain ⟨⟨k', he', hc⟩, _⟩ := h.call hop
    cases he.symm.trans he'
    exact hc
  obtain ⟨k', hrun, _⟩ := AllSteps.completes (I := fun k' => (k'.pcbs proc).Compact) (fun h hop => (h.call hop).1) hstart hsteps
  exact ⟨by rw [hrun]; exact Option.some_ne_none k', hstates, hsteps.mono_states (fun h hop => (h.call hop).2) hstates⟩

theorem descriptors_stay_compact_sample :
    ∃ pid k₁, schedulerSpawn bumpAllocator (schedulerInit bumpAllocator sampleProcs) true 0x400000 (samplePagemap 0) = .ok (pid, k₁) ∧
      AllStates FdOp.exec (fun k' => (k'.pcbs (k₁.table pid.toNat)).Compact) k₁
        [.add 0 0x3000, .add 0 0x4000, .remove 0 1, .remove 0 5] := by
  obtain ⟨⟨pid, k₁⟩, hspawn, hpid⟩ := ok_of_any (p := fun res => res.1 == 0)
    (x := schedulerSpawn bumpAllocator (schedulerInit bumpAllocator sampleProcs) true 0x400000 (samplePagemap 0))
    (by decide +kernel)
  have h0 : pid = 0 := eq_of_beq hpid
  refine ⟨pid, k₁, hspawn, (descriptors_stay_compact hspawn ?_ ?_).2.1⟩
  · rw [h0]
    decide
  · simp [FdOp.NonNull]

/-! ## The lock -/

/-- The first half of a tick as the slice of the current process ends. -/
theorem tickCurrent_of_sliceEnds (ctx : RegisterCtx) (h0 : k.table k.currentPid.toNat ≠ 0) (h : SliceEnds k) :
    tickCurrent k ctx = { k with
      pcbs := Function.update k.pcbs (k.table k.currentPid.toNat) { k.pcbs (k.table k.currentPid.toNat) with
        ctx := ctx, state := .ready, timeslice := procDefaultTime }
      currentPid := (k.currentPid + 1) % k.count } := by
  obtain ⟨hrun, hsys, hslice⟩ := h
  have hzero : (1 : U64) - 1 = 0 := by decide
  simp only [tickCurrent, ne_eq, h0, not_false_eq_true, hrun, hsys, and_self, ↓reduceIte, hslice, hzero]

/-- Otherwise it saves the context of the process at most. -/
theorem tickCurrent_of_not_sliceEnds (ctx : RegisterCtx) (h : ¬ SliceEnds k) :
    ∃ pcb, pcb.state = (k.pcbs (k.table k.currentPid.toNat)).state ∧
      pcb.pagemap = (k.pcbs (k.table k.currentPid.toNat)).pagemap ∧
      tickCurrent k ctx = { k with pcbs := Function.update k.pcbs (k.table k.currentPid.toNat) pcb } := by
  simp only [tickCurrent]
  split
  · rename_i hrun
    have hne : (k.pcbs (k.table k.currentPid.toNat)).timeslice - 1 ≠ 0 := by
      intro hc
      refine h ⟨hrun.2.1, hrun.2.2, ?_⟩
      rw [BitVec.sub_eq_iff_eq_add] at hc
      exact hc
    rw [if_neg hne]
    refine ⟨_, ?_, ?_, rfl⟩
    · rfl
    · rfl
  · exact ⟨_, rfl, rfl, by rw [Function.update_eq_self]⟩

/-- The process that a tick looks at, as its first half leaves it. -/
theorem tickCurrent_nextProc (ctx : RegisterCtx) (h0 : k.table k.currentPid.toNat ≠ 0) :
    (tickCurrent k ctx).table (tickCurrent k ctx).currentPid.toNat = nextProc k ∧
      (((tickCurrent k ctx).pcbs (nextProc k)).state = .ready ↔
        (k.pcbs (nextProc k)).state = .ready ∨ SliceEnds k ∧ nextProc k = k.table k.currentPid.toNat) ∧
      (((tickCurrent k ctx).pcbs (nextProc k)).state = .terminated ↔ (k.pcbs (nextProc k)).state = .terminated) ∧
      ((tickCurrent k ctx).pcbs (nextProc k)).pagemap = (k.pcbs (nextProc k)).pagemap := by
  by_cases hs : SliceEnds k
  · rw [tickCurrent_of_sliceEnds ctx h0 hs]
    have hnext : nextProc k = k.table ((k.currentPid + 1) % k.count).toNat := by rw [nextProc, if_pos hs]
    by_cases hp : nextProc k = k.table k.currentPid.toNat
    · have hrun := hs.1
      simp only [← hnext, hp, Function.update_self, hs, hrun, and_self, or_true, reduceCtorEq]
    · simp only [← hnext, Function.update_of_ne hp, hp, and_false, or_false, and_self]
  · obtain ⟨pcb, hstate, hpm, he⟩ := tickCurrent_of_not_sliceEnds ctx hs
    have hnext : nextProc k = k.table k.currentPid.toNat := by rw [nextProc, if_neg hs]
    rw [he]
    simp only [hnext, Function.update_self, hstate, hpm, hs, false_and, or_false, and_self]

/-- The second half of a tick, with the lock held. -/
theorem tickNext_drops_iff (ctx : RegisterCtx) (hlocked : k.locked = true) :
    (∃ ctx' k', tickNext k ctx = .ok (ctx', k') ∧ k'.locked = false) ↔
      k.table k.currentPid.toNat ≠ 0 ∧
        ((k.pcbs (k.table k.currentPid.toNat)).state = .ready → (k.pcbs (k.table k.currentPid.toNat)).pagemap ≠ 0) ∧
        ((k.pcbs (k.table k.currentPid.toNat)).state = .terminated → k.count = 1) := by
  simp only [tickNext]
  by_cases h0 : k.table k.currentPid.toNat = 0
  · rw [if_pos h0]
    refine iff_of_false ?_ fun h => h.1 h0
    rintro ⟨_, _, he, _⟩
    cases he
  · rw [if_neg h0]
    cases hst : (k.pcbs (k.table k.currentPid.toNat)).state with
    | ready =>
        by_cases hpm : (k.pcbs (k.table k.currentPid.toNat)).pagemap = 0
        · rw [if_pos hpm]
          refine iff_of_false ?_ fun h => h.2.1 rfl hpm
          rintro ⟨_, _, he, _⟩
          cases he
        · rw [if_neg hpm]
          exact iff_of_true ⟨_, _, rfl, rfl⟩ ⟨h0, fun _ => hpm, fun he => (by cases he)⟩
    | terminated =>
        have hone : k.count - 1 = 0 ↔ k.count = 1 := by
          rw [BitVec.sub_eq_iff_eq_add]
          rfl
        by_cases hc : k.count = 1
        · rw [if_pos (hone.mpr hc)]
          exact iff_of_true ⟨_, _, rfl, rfl⟩ ⟨h0, fun he => (by cases he), fun _ => hc⟩
        · rw [if_neg (mt hone.mp hc)]
          refine iff_of_false ?_ fun h => hc (h.2.2 rfl)
          rintro ⟨_, _, he, hl⟩
          rw [← (Prod.mk.inj (Except.ok.inj he)).2, hlocked] at hl
          cases hl
    | running => exact iff_of_true ⟨_, _, rfl, rfl⟩ ⟨h0, fun he => (by cases he), fun he => (by cases he)⟩
    | waiting => exact iff_of_true ⟨_, _, rfl, rfl⟩ ⟨h0, fun he => (by cases he), fun he => (by cases he)⟩

theorem schedulerTick_halves (ctx : RegisterCtx) (hfree : k.locked = false) (hcount : k.count ≠ 0) :
    schedulerTick k ctx = tickNext { tickCurrent k ctx with locked := true } ctx := by
  rw [← Switching.tickCurrent_locked]
  simp only [schedulerTick, hfree, Bool.false_eq_true, ↓reduceIte, hcount]

/-- A tick drops its lock exactly when there is no process, or the process that it looks at has a pagemap if it is to run, and
is the only one if it has terminated. -/
theorem tick_drops_lock_iff {ctx : RegisterCtx} (hfree : k.locked = false) (hproc : k.table k.currentPid.toNat ≠ 0) :
    DropsLock k ctx ↔ CanDropLock k := by
  by_cases hcount : k.count = 0
  · have htick : schedulerTick k ctx = .ok (ctx, { k with locked := false }) := by
      simp only [schedulerTick, hfree, Bool.false_eq_true, ↓reduceIte, hcount]
    refine iff_of_true ⟨ctx, _, htick, rfl, fun _ hc => ?_⟩ (.inl hcount)
    rw [hcount] at hc
    exact absurd hc (by decide)
  · have htick := schedulerTick_halves ctx hfree hcount
    obtain ⟨hnext, hready, hterm, hpm⟩ := tickCurrent_nextProc ctx hproc
    have hiff := tickNext_drops_iff (k := { tickCurrent k ctx with locked := true }) ctx rfl
    rw [← htick] at hiff
    simp only [hnext, (tickCurrent_eq k ctx).2.1, hready, hterm, hpm] at hiff
    rw [CanDropLock, or_iff_right hcount, ← hiff, DropsLock]
    constructor
    · rintro ⟨ctx', k', he, hl, _⟩
      exact ⟨ctx', k', he, hl⟩
    · rintro ⟨ctx', k', he, hl⟩
      refine ⟨ctx', k', he, hl, fun hst hmany => ?_⟩
      -- a process that has terminated is the one the tick looks at, and then it is the last one
      have hs : ¬ SliceEnds k := fun hs => by
        rw [hs.1] at hst
        cases hst
      have hcur : nextProc k = k.table k.currentPid.toNat := by rw [nextProc, if_neg hs]
      have hone := (hiff.mp ⟨ctx', k', he, hl⟩).2.2 (by rw [hcur]; exact hst)
      rw [hone] at hmany
      exact absurd hmany (by decide)

/-- Processes with these states, of which the first one is current. -/
def sampleTable (states : List ProcessState) : Kernel U64 :=
  { sampleProcs with
    pcbs := fun p => { sampleProcs.pcbs p with
      pid := p - 0x1000, state := states.getD (p - 0x1000).toNat .ready, timeslice := 1, pagemap := samplePagemap (p - 0x1000) }
    table := fun i => if i < states.length then BitVec.ofNat 64 (0x1000 + i) else 0
    count := BitVec.ofNat 64 states.length }

def sampleCtx : RegisterCtx := ⟨fun _ => 7, 0, 0, 0, 0, 0⟩

theorem tick_drops_lock_iff_sample : DropsLock (sampleTable [.running, .ready]) sampleCtx :=
  (tick_drops_lock_iff rfl (by decide)).mpr (.inr (by decide))

/-- The current process has terminated and another one is ready: the tick returns with the lock held. -/
theorem tick_keeps_lock : ((schedulerTick (sampleTable [.terminated, .ready]) sampleCtx).toOption.any fun res =>
    res.2.locked && res.2.currentPid == 0) = true := by
  decide

/-! ## Round robin -/

namespace RoundRobin

variable {n c : Nat}

theorem sliceEnds (h : RoundRobin n c k) : SliceEnds k := by
  rw [SliceEnds, h.current]
  exact ⟨(h.state c h.lt).trans (if_pos rfl), h.idle c h.lt, h.slice c h.lt⟩

theorem next_toNat (h : RoundRobin n c k) : ((k.currentPid + 1) % k.count).toNat = (c + 1) % n := by
  have hn := k.count.isLt
  have hlt := h.lt
  rw [h.count] at hn
  rw [BitVec.toNat_umod, h.count, BitVec.toNat_add, h.current]
  simp only [BitVec.ofNat_eq_ofNat, BitVec.toNat_ofNat]
  rw [Nat.mod_eq_of_lt (a := c + 1 % 2 ^ 64) (by omega)]

/-- After the first half of a tick every process is ready. -/
theorem tickCurrent (h : RoundRobin n c k) (ctx : RegisterCtx) {i : Nat} (hi : i < n) :
    ((Proc.tickCurrent k ctx).pcbs (k.table i)).state = .ready ∧
      ((Proc.tickCurrent k ctx).pcbs (k.table i)).inSyscall = false ∧
      ((Proc.tickCurrent k ctx).pcbs (k.table i)).timeslice = procDefaultTime ∧
      ((Proc.tickCurrent k ctx).pcbs (k.table i)).pagemap = (k.pcbs (k.table i)).pagemap := by
  rw [tickCurrent_of_sliceEnds ctx (h.current ▸ h.nonnull c h.lt) h.sliceEnds, h.current]
  by_cases hc : i = c
  · rw [hc]
    simp only [Function.update_self, true_and, and_true]
    exact h.idle c h.lt
  · have hne : k.table i ≠ k.table c := fun he => hc (h.distinct i hi c h.lt he)
    simp only [Function.update_of_ne hne, and_true]
    exact ⟨(h.state i hi).trans (if_neg hc), h.idle i hi, h.slice i hi⟩

/-- One tick: the current process becomes ready and the next one runs. -/
theorem tick (h : RoundRobin n c k) (hpm : HavePagemaps n k) (ctx : RegisterCtx) :
    ∃ k', tickExec k ctx = some k' ∧ RoundRobin n ((c + 1) % n) k' ∧ HavePagemaps n k' ∧
      ∀ i < n, Dispatched k ctx k' (k.table i) ↔ i = (c + 1) % n := by
  have hlt : (c + 1) % n < n := Nat.mod_lt _ (Nat.zero_lt_of_lt h.lt)
  have hcount : k.count ≠ 0 := by
    intro hc
    have h0 := h.count
    rw [hc] at h0
    exact absurd h.lt (by simp at h0; omega)
  have h0 : k.table k.currentPid.toNat ≠ 0 := h.current ▸ h.nonnull c h.lt
  have htick := schedulerTick_halves ctx h.unlocked hcount
  obtain ⟨htable, hcount', _⟩ := tickCurrent_eq k ctx
  have hcur : (Proc.tickCurrent k ctx).currentPid.toNat = (c + 1) % n := by
    rw [tickCurrent_of_sliceEnds ctx h0 h.sliceEnds]
    exact h.next_toNat
  have hmid := fun i => h.tickCurrent ctx (i := i)
  generalize hk₁ : Proc.tickCurrent k ctx = k₁ at htick htable hcount' hcur hmid
  have hnext : k₁.table k₁.currentPid.toNat = k.table ((c + 1) % n) := by rw [htable, hcur]
  obtain ⟨hready, _, _, hpm'⟩ := hmid _ hlt
  -- the next process is ready and has a pagemap
  have hexec : tickExec k ctx = some { k₁ with
      pcbs := Function.update k₁.pcbs (k.table ((c + 1) % n)) { k₁.pcbs (k.table ((c + 1) % n)) with state := .running }
      mm := vmmSwitchPagemap k₁.mm (k.pcbs (k.table ((c + 1) % n))).pagemap
      locked := false } := by
    simp only [tickExec, htick, tickNext, hnext, if_neg (h.nonnull _ hlt), hready, hpm', if_neg (hpm _ hlt)]
  have hself : ∀ i < n, k.table i = k.table ((c + 1) % n) ↔ i = (c + 1) % n := fun i hi =>
    ⟨h.distinct i hi _ hlt, fun he => by rw [he]⟩
  refine ⟨_, hexec, ⟨hlt, ?_, hcur, rfl, ?_, ?_, fun i hi => ?_, fun i hi => ?_, fun i hi => ?_⟩,
    fun i hi => ?_, fun i hi => ?_⟩
  · rw [← h.count, ← hcount']
  · simp only [htable]
    exact h.nonnull
  · simp only [htable]
    exact h.distinct
  · simp only [htable, Function.update_apply, hself i hi]
    split
    · rfl
    · exact (hmid i hi).1
  · simp only [htable, Function.update_apply, hself i hi]
    split
    · exact (hmid _ hlt).2.1
    · exact (hmid i hi).2.1
  · simp only [htable, Function.update_apply, hself i hi]
    split
    · exact (hmid _ hlt).2.2.1
    · exact (hmid i hi).2.2.1
  · simp only [htable, Function.update_apply, hself i hi]
    split
    · exact hpm'.trans_ne (hpm _ hlt)
    · exact (hmid i hi).2.2.2.trans_ne (hpm i hi)
  · simp only [Dispatched, hk₁, Function.update_apply, hself i hi]
    split
    · rename_i he
      exact iff_of_true ⟨hcount, (hmid i hi).1, rfl⟩ he
    · rename_i he
      refine iff_of_false (fun hd => ?_) he
      rw [(hmid i hi).1] at hd
      cases hd.2.2

end RoundRobin

/-- Any number of ticks: the turn moves on by as many places. -/
theorem RoundRobin.ticks {n c : Nat} (h : RoundRobin n c k) (hpm : HavePagemaps n k) (ctxs : List RegisterCtx) :
    ∃ k', run tickExec k ctxs = some k' ∧ RoundRobin n ((c + ctxs.length) % n) k' ∧ HavePagemaps n k' ∧
      dispatchOrder n k ctxs = (List.range ctxs.length).map fun j => (c + 1 + j) % n := by
  induction ctxs generalizing k c with
  | nil =>
      refine ⟨k, rfl, ?_, hpm, rfl⟩
      rw [List.length_nil, Nat.add_zero, Nat.mod_eq_of_lt h.lt]
      exact h
  | cons ctx ctxs ih =>
      obtain ⟨k₁, he, h₁, hpm₁, hd⟩ := h.tick hpm ctx
      obtain ⟨k', hrun, h', hpm', horder⟩ := ih h₁ hpm₁
      have hlen : ((c + 1) % n + ctxs.length) % n = (c + (ctxs.length + 1)) % n := by
        rw [Nat.mod_add_mod]
        congr 1
        omega
      rw [hlen] at h'
      refine ⟨k', by rw [run_cons_some he, hrun], h', hpm', ?_⟩
      have hfirst : (List.range n).filter (fun i => Dispatched k ctx k₁ (k.table i)) = [(c + 1) % n] := by
        have hlt : (c + 1) % n < n := h₁.lt
        have hp : (List.range n).filter (fun i => Dispatched k ctx k₁ (k.table i)) =
            (List.range n).filter (fun i => i = (c + 1) % n) :=
          List.filter_congr fun i hi => decide_eq_decide.mpr (hd i (List.mem_range.mp hi))
        rw [hp, List.filter_eq, List.count_eq_one_of_mem List.nodup_range (List.mem_range.mpr hlt), List.replicate_one]
      simp only [dispatchOrder, he, hfirst, horder, List.length_cons, List.range_succ_eq_map, List.map_cons, List.map_map,
        List.singleton_append, Nat.add_zero, List.cons.injEq, true_and]
      refine List.map_congr_left fun j _ => ?_
      rw [Nat.add_assoc, Nat.mod_add_mod, Function.comp]
      congr 1
      omega

/-- After any ticks the turn has moved on by as many places and the process whose turn it is runs alone, and any `n` ticks
after them give the processor to every process once. -/
theorem round_robin {n c : Nat} (h : RoundRobin n c k) (hpm : HavePagemaps n k) (ctxs : List RegisterCtx) :
    ∃ k', run tickExec k ctxs = some k' ∧ RoundRobin n ((c + ctxs.length) % n) k' ∧
      ∀ window : List RegisterCtx, window.length = n → (dispatchOrder n k' window).Perm (List.range n) := by
  obtain ⟨k', hrun, h', hpm', _⟩ := h.ticks hpm ctxs
  refine ⟨k', hrun, h', fun window hlen => ?_⟩
  obtain ⟨_, _, _, _, horder⟩ := h'.ticks hpm' window
  rw [horder, hlen]
  generalize (c + ctxs.length) % n = c'
  have hrotate : (List.range n).map (fun j => (c' + 1 + j) % n) = (List.range n).rotate (c' + 1) := by
    refine List.ext_getElem (by simp) fun i hi hi' => ?_
    rw [List.getElem_map, List.getElem_range, List.getElem_rotate, List.getElem_range, List.length_range, Nat.add_comm]
  rw [hrotate]
  exact List.rotate_perm _ _

theorem sampleTable_roundRobin : RoundRobin 3 0 (sampleTable [.running, .ready, .ready]) :=
  ⟨by decide, by decide, by decide, by decide, by decide, by decide, by decide, by decide, by decide⟩

theorem round_robin_sample : ∃ k', run tickExec (sampleTable [.running, .ready, .ready]) [sampleCtx, sampleCtx] = some k' ∧
    (dispatchOrder 3 k' [sampleCtx, sampleCtx, sampleCtx]).Perm (List.range 3) := by
  obtain ⟨k', hrun, _, hwindow⟩ := round_robin sampleTable_roundRobin (by rw [HavePagemaps]; decide) [sampleCtx, sampleCtx]
  exact ⟨k', hrun, hwindow _ rfl⟩

/-- Two processes of which the second one has no pagemap. -/
def sampleUnmapped : Kernel U64 :=
  { sampleTable [.running, .ready] with
    pcbs := fun p => { (sampleTable [.running, .ready]).pcbs p with pagemap := 0 } }

/-- The tick that should give the processor to a process without a pagemap stops at an assertion. -/
theorem tick_stops_without_pagemap : RoundRobin 2 0 sampleUnmapped ∧
    (schedulerTick sampleUnmapped sampleCtx).toOption.isNone = true :=
  ⟨⟨by decide, by decide, by decide, by decide, by decide, by decide, by decide, by decide, by decide⟩, by decide⟩

end ShadowOS.Proc
