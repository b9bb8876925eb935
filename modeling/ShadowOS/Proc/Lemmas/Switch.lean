import ShadowOS.Proc.Lemmas.Scheduler

/-!
# Context switches over whole runs

An entry of the table knows its index, and two entries never have the same block, whatever was spawned over.
-/

namespace ShadowOS.Proc

open Mm

variable {H : Type} {A : Allocator H} {inUse : H → Set U64} {blocks blocks' : List U64} {k k' : Kernel H}
  {last last' : U64 → RegisterCtx} {i n : Nat}

/-- What holds of the process at the index `i` of the table. -/
structure Slot (blocks : List U64) (last : U64 → RegisterCtx) (k : Kernel H) (i : Nat) : Prop where
  pid : (k.pcbs (k.table i)).pid.toNat = i
  state : (k.pcbs (k.table i)).state = .ready ∨ (k.pcbs (k.table i)).state = .running
  running : (k.pcbs (k.table i)).state = .running → k.currentPid.toNat = i
  timeslice : (k.pcbs (k.table i)).timeslice = procDefaultTime
  block : k.table i ∈ blocks
  saved : (k.pcbs (k.table i)).state = .ready → (k.pcbs (k.table i)).ctx = last (k.table i)

namespace Slot

theorem congr (h : Slot blocks last k i) (htable : k'.table i = k.table i)
    (hsame : SameProcess (k.pcbs (k.table i)) (k'.pcbs (k.table i)))
    (hcur : (k.pcbs (k.table i)).state = .running → k'.currentPid.toNat = i) (hblock : k.table i ∈ blocks')
    (hlast : last' (k.table i) = last (k.table i)) : Slot blocks' last' k' i := by
  constructor
  · rw [htable, hsame.pid]
    exact h.pid
  · rw [htable, hsame.state]
    exact h.state
  · rw [htable, hsame.state]
    exact hcur
  · rw [htable, hsame.timeslice]
    exact h.timeslice
  · rw [htable]
    exact hblock
  · rw [htable, hsame.state, hsame.ctx, hlast]
    exact h.saved

end Slot

/-- The entries below `n`: those of the table, and the ones that spawns wrote past its end. The processes that were spawned
and have not exited have the control blocks `blocks`; some of them may have lost their entry. -/
structure Switching (inUse : H → Set U64) (n : Nat) (blocks : List U64) (k : Kernel H) (last : U64 → RegisterCtx) :
    Prop where
  slots : ∀ i < n, k.table i ≠ 0 → Slot blocks last k i
  nodup : (0 :: blocks).Nodup
  used : ∀ b ∈ blocks, b ∈ inUse k.heap
  length : blocks.length = k.count.toNat
  size : procMaxProcs ≤ n
  count : k.count.toNat ≤ n
  current : k.currentPid.toNat < n

namespace Switching

/-- No block is in two entries. -/
theorem inj (h : Switching inUse n blocks k last) {j : Nat} (hi : i < n) (hj : j < n) (hi0 : k.table i ≠ 0)
    (he : k.table i = k.table j) : i = j := by
  have hpi := (h.slots i hi hi0).pid
  have hpj := (h.slots j hj (he ▸ hi0)).pid
  rw [he] at hpi
  exact hpi.symm.trans hpj

theorem oneRunning (h : Switching inUse n blocks k last) : OneRunning k := by
  intro i hi h0
  have hs := h.slots i (Nat.lt_of_lt_of_le hi h.size) h0
  refine ⟨hs.running, hs.state, hs.pid, ?_⟩
  rw [hs.timeslice]
  decide

theorem setLocked (h : Switching inUse n blocks k last) (locked : Bool) : Switching inUse n blocks { k with locked := locked } last :=
  ⟨fun i hi h0 => (h.slots i hi h0).congr rfl (.refl _) (h.slots i hi h0).running (h.slots i hi h0).block rfl, h.nodup, h.used,
    h.length, h.size, h.count, h.current⟩

/-! ## Ticks -/

/-- A running process outside of a system call is always preempted: its slice is one tick. -/
theorem tickCurrent_eq_of_running (h : Switching inUse n blocks k last) (ctx : RegisterCtx) (h0 : k.table k.currentPid.toNat ≠ 0)
    (hrun : (k.pcbs (k.table k.currentPid.toNat)).state = .running)
    (hsys : (k.pcbs (k.table k.currentPid.toNat)).inSyscall = false) : ∃ pcb, pcb.ctx = ctx ∧ pcb.state = .ready ∧
      pcb.pid = (k.pcbs (k.table k.currentPid.toNat)).pid ∧ pcb.timeslice = procDefaultTime ∧
      tickCurrent k ctx = { k with
        pcbs := Function.update k.pcbs (k.table k.currentPid.toNat) pcb
        currentPid := (k.currentPid + 1) % k.count } := by
  have hslice := (h.slots _ h.current h0).timeslice
  have hzero : procDefaultTime - 1 = 0 := by decide
  simp only [tickCurrent, ne_eq, h0, not_false_eq_true, hrun, hsys, and_self, ↓reduceIte, hslice, hzero]
  exact ⟨{ k.pcbs (k.table k.currentPid.toNat) with
    ctx := ctx, state := .ready, timeslice := procDefaultTime, inSyscall := false }, rfl, rfl, rfl, rfl, rfl⟩

theorem tickCurrent_eq_of_not (ctx : RegisterCtx) (h : ¬ (k.table k.currentPid.toNat ≠ 0 ∧
    (k.pcbs (k.table k.currentPid.toNat)).state = .running ∧
    (k.pcbs (k.table k.currentPid.toNat)).inSyscall = false)) : tickCurrent k ctx = k := by
  simp only [tickCurrent]
  rw [if_neg h]

/-- Nothing is preempted where the first half of a tick does nothing. -/
theorem lastCtx_eq {ctx : RegisterCtx} (h : tickCurrent k ctx = k) : SwitchOp.lastCtx k last ctx = last := by
  funext proc
  refine if_neg fun hp => ?_
  have hready := hp.2.2
  rw [h, hp.2.1] at hready
  cases hready

theorem tickCurrent (h : Switching inUse n blocks k last) (hcount : k.count ≠ 0) (ctx : RegisterCtx) :
    Switching inUse n blocks (Proc.tickCurrent k ctx) (SwitchOp.lastCtx k last ctx) := by
  by_cases hc : k.table k.currentPid.toNat ≠ 0 ∧ (k.pcbs (k.table k.currentPid.toNat)).state = .running ∧
      (k.pcbs (k.table k.currentPid.toNat)).inSyscall = false
  · obtain ⟨h0, hrun, hsys⟩ := hc
    obtain ⟨pcb, hctx, hstate, hpid, hslice, he⟩ := h.tickCurrent_eq_of_running ctx h0 hrun hsys
    have hlt : ((k.currentPid + 1) % k.count).toNat < n := Nat.lt_of_lt_of_le (umod_lt _ hcount) h.count
    have hlast : SwitchOp.lastCtx k last ctx (k.table k.currentPid.toNat) = ctx :=
      if_pos ⟨hcount, hrun, by rw [he]; simpa using hstate⟩
    generalize hk' : Proc.tickCurrent k ctx = k' at he
    subst he
    refine ⟨fun i hi hi0 => ?_, h.nodup, h.used, h.length, h.size, h.count, hlt⟩
    simp only at hi0
    have hs := h.slots i hi hi0
    by_cases hic : i = k.currentPid.toNat
    · subst hic
      constructor
      · simp only [Function.update_self, hpid, hs.pid]
      · simp only [Function.update_self, hstate, true_or]
      · simp [hstate]
      · simp only [Function.update_self, hslice]
      · exact hs.block
      · simp only [Function.update_self, hctx, hlast, implies_true]
    · have hne : k.table i ≠ k.table k.currentPid.toNat := fun hc => hic (h.inj hi h.current hi0 hc)
      refine hs.congr rfl ?_ (fun hc => absurd (hs.running hc) (Ne.symm hic)) hs.block ?_
      · simp only [Function.update_of_ne hne]
        exact .refl _
      · exact if_neg fun hp => hic (hs.running hp.2.1).symm
  · have he := tickCurrent_eq_of_not ctx hc
    rw [he, lastCtx_eq he]
    exact h

/-- The second half of a tick: nothing changes, or the current process was ready and now runs. -/
theorem tickNext_cases {ctx ctx' : RegisterCtx} (h : Switching inUse n blocks k last)
    (hres : tickNext k ctx = .ok (ctx', k')) :
    k' = { k with locked := false } ∨ k.table k.currentPid.toNat ≠ 0 ∧
      (k.pcbs (k.table k.currentPid.toNat)).state = .ready ∧ ctx' = (k.pcbs (k.table k.currentPid.toNat)).ctx ∧
      ∃ pcb, pcb.pid = (k.pcbs (k.table k.currentPid.toNat)).pid ∧ pcb.state = .running ∧
        pcb.timeslice = (k.pcbs (k.table k.currentPid.toNat)).timeslice ∧
        pcb.pagemap = (k.pcbs (k.table k.currentPid.toNat)).pagemap ∧ k' = { k with
          pcbs := Function.update k.pcbs (k.table k.currentPid.toNat) pcb
          mm := vmmSwitchPagemap k.mm pcb.pagemap
          locked := false } := by
  simp only [tickNext] at hres
  split at hres
  · cases hres
  · rename_i h0
    have hs := h.slots _ h.current h0
    split at hres
    · rename_i hready
      split at hres
      · cases hres
      · obtain ⟨hctx, hk⟩ := Prod.mk.inj (Except.ok.inj hres)
        exact .inr ⟨h0, hready, hctx.symm, { k.pcbs (k.table k.currentPid.toNat) with state := .running },
          rfl, rfl, rfl, rfl, hk.symm⟩
    · rename_i hterm
      rcases hs.state with hst | hst
      · rw [hterm] at hst
        cases hst
      · rw [hterm] at hst
        cases hst
    · exact .inl (Prod.mk.inj (Except.ok.inj hres)).2.symm
    · exact .inl (Prod.mk.inj (Except.ok.inj hres)).2.symm

theorem tickNext {ctx ctx' : RegisterCtx} (h : Switching inUse n blocks k last) (hres : Proc.tickNext k ctx = .ok (ctx', k')) :
    Switching inUse n blocks k' last := by
  rcases h.tickNext_cases hres with rfl | ⟨h0, -, -, pcb, hpid, hstate, hslice, -, rfl⟩
  · exact h.setLocked false
  · refine ⟨fun i hi hi0 => ?_, h.nodup, h.used, h.length, h.size, h.count, h.current⟩
    simp only at hi0
    have hs := h.slots i hi hi0
    by_cases hic : i = k.currentPid.toNat
    · subst hic
      constructor
      · simp only [Function.update_self, hpid, hs.pid]
      · simp only [Function.update_self, hstate, or_true]
      · simp only [implies_true]
      · simp only [Function.update_self, hslice, hs.timeslice]
      · exact hs.block
      · simp [hstate]
    · have hne : k.table i ≠ k.table k.currentPid.toNat := fun hc => hic (h.inj hi h.current hi0 hc)
      refine hs.congr rfl ?_ hs.running hs.block rfl
      simp only [Function.update_of_ne hne]
      exact .refl _

/-- The first half of a tick does not look at the lock. -/
theorem tickCurrent_locked (k : Kernel H) (locked : Bool) (ctx : RegisterCtx) :
    Proc.tickCurrent { k with locked := locked } ctx = { Proc.tickCurrent k ctx with locked := locked } := by
  simp only [Proc.tickCurrent]
  split
  · split
    · rfl
    · rfl
  · rfl

/-- A tick with processes to run goes through both halves. -/
theorem tick_halves {ctx ctx' : RegisterCtx} (hcount : k.count ≠ 0) (hres : schedulerTick k ctx = .ok (ctx', k')) :
    Proc.tickNext { Proc.tickCurrent k ctx with locked := true } ctx = .ok (ctx', k') := by
  rw [← tickCurrent_locked]
  simp only [schedulerTick, hcount, ↓reduceIte] at hres
  split at hres
  · cases hres
  · exact hres

theorem tick {ctx ctx' : RegisterCtx} (h : Switching inUse n blocks k last) (hres : schedulerTick k ctx = .ok (ctx', k')) :
    Switching inUse n blocks k' (SwitchOp.lastCtx k last ctx) := by
  by_cases hcount : k.count = 0
  · have hlast : SwitchOp.lastCtx k last ctx = last := funext fun proc => if_neg fun hp => hp.1 hcount
    simp only [schedulerTick, if_pos hcount] at hres
    split at hres
    · cases hres
    · rw [hlast, ← (Prod.mk.inj (Except.ok.inj hres)).2]
      exact h.setLocked false
  · exact ((h.tickCurrent hcount ctx).setLocked true).tickNext (tick_halves hcount hres)

/-- A process that gets the processor is the current one after the first half of the tick, and goes on with what its block
holds. -/
theorem tick_lossless (h : Switching inUse n blocks k last) (ctx : RegisterCtx) :
    SwitchOp.Lossless (k, last) (.sched (.tick ctx)) := by
  intro ctx' k' hres proc ⟨hcount, hready, hrun⟩
  have hmid := (h.tickCurrent hcount ctx).setLocked true
  rcases hmid.tickNext_cases (tick_halves hcount hres) with rfl | ⟨h0, hst, hctx, pcb, -, -, -, hpm, rfl⟩
  · rw [hready] at hrun
    cases hrun
  · simp only at h0 hst hctx hrun ⊢
    by_cases hp : proc = (Proc.tickCurrent k ctx).table (Proc.tickCurrent k ctx).currentPid.toNat
    · have hs := (h.tickCurrent hcount ctx).slots _ (h.tickCurrent hcount ctx).current h0
      rw [hp, hctx, hs.saved hst, Function.update_self]
      exact ⟨rfl, rfl⟩
    · rw [Function.update_of_ne hp, hready] at hrun
      cases hrun

/-! ## The other calls -/

theorem flag (h : Switching inUse n blocks k last) (proc : U64) (inSyscall : Bool) :
    Switching inUse n blocks { k with pcbs := Function.update k.pcbs proc { k.pcbs proc with inSyscall := inSyscall } } last := by
  refine ⟨fun i hi h0 => ?_, h.nodup, h.used, h.length, h.size, h.count, h.current⟩
  have hs := h.slots i hi h0
  refine hs.congr rfl ?_ hs.running hs.block rfl
  by_cases hp : k.table i = proc
  · simp only [hp, Function.update_self]
    exact ⟨rfl, rfl, rfl, rfl, rfl⟩
  · simp only [Function.update_of_ne hp]
    exact .refl _

/-- The process at the current entry goes, and the other ones are ready. -/
theorem exit (h : Switching inUse n blocks k last) (hA : AllocatorSpec A inUse) :
    ∃ blocks', Switching inUse n blocks' (schedulerExit A k) last := by
  by_cases h0 : k.table k.currentPid.toNat = 0
  · have hexit : schedulerExit A k = k := by simp only [schedulerExit, h0, ne_eq, not_true_eq_false, ↓reduceIte]
    rw [hexit]
    exact ⟨blocks, h⟩
  · have hcur := h.slots _ h.current h0
    have hnd := (List.nodup_cons.mp h.nodup).2
    have hlen := List.length_erase_of_mem hcur.block
    have hpos := List.length_pos_of_mem hcur.block
    have hdec : (k.count - 1).toNat = blocks.length - 1 := by
      have h1 : (1 : U64).toNat = 1 := rfl
      have hlt := k.count.isLt
      have hlength := h.length
      rw [BitVec.toNat_sub, h1]
      omega
    have hcount : (k.count - 1).toNat ≤ n := by
      have hle := h.count
      have hlength := h.length
      omega
    refine ⟨blocks.erase (k.table k.currentPid.toNat), ?_⟩
    simp only [schedulerExit, ne_eq, h0, not_false_eq_true, ↓reduceIte, hcur.pid]
    refine ⟨fun i hi hi0 => ?_, h.nodup.sublist (List.erase_sublist.cons_cons 0), fun b hb => ?_, ?_, h.size, hcount, ?_⟩
    · have hic : i ≠ k.currentPid.toNat := by
        rintro rfl
        simp at hi0
      simp only [Function.update_of_ne hic] at hi0
      have hs := h.slots i hi hi0
      have hne : k.table i ≠ k.table k.currentPid.toNat := fun hc => hic (h.inj hi h.current hi0 hc)
      refine hs.congr (Function.update_of_ne hic _ _) ?_ (fun hc => absurd (hs.running hc) (Ne.symm hic))
        (hnd.mem_erase_iff.mpr ⟨hne, hs.block⟩) rfl
      simp only [Function.update_of_ne hne]
      exact .refl _
    · obtain ⟨hne, hb⟩ := hnd.mem_erase_iff.mp hb
      exact hA.freed _ _ _ ⟨h.used b hb, hne⟩
    · exact hlen.trans hdec.symm
    · simp only
      split
      · exact Nat.lt_of_lt_of_le (by decide) h.size
      · exact Nat.lt_of_lt_of_le (umod_lt _ ‹_›) hcount

/-- There are fewer blocks than addresses, so the number of processes does not wrap. -/
theorem count_succ (h : Switching inUse n blocks k last) {proc : U64} (h0 : proc ≠ 0) (hnew : proc ∉ blocks) :
    (k.count + 1).toNat = blocks.length + 1 := by
  have hnd : (proc :: 0 :: blocks).Nodup := by
    refine List.nodup_cons.mpr ⟨?_, h.nodup⟩
    rw [List.mem_cons, not_or]
    exact ⟨h0, hnew⟩
  have hle := (hnd.map (f := BitVec.toFin) fun _ _ he => BitVec.eq_of_toFin_eq he).length_le_card
  have h1 : (1 : U64).toNat = 1 := rfl
  have hlength := h.length
  rw [List.length_map, Fintype.card_fin, List.length_cons, List.length_cons] at hle
  rw [BitVec.toNat_add, h1]
  omega

/-- A new process is entered under the number of processes, over whatever is there. -/
theorem spawn {user : Bool} {entry pagemap pid proc : U64} {mm : Mm.State} {heap : H}
    (h : Switching inUse n blocks k last) (hA : AllocatorSpec A inUse)
    (hkm : A.kmalloc k.mm k.heap pcbSize = (proc, mm, heap))
    (hres : schedulerSpawn A k user entry pagemap = .ok (pid, k')) :
    ∃ n' ≤ max n (k.count.toNat + 1), ∃ blocks', Switching inUse n' blocks' k'
      (if proc = 0 then last else Function.update last proc (k'.pcbs proc).ctx) := by
  have hfresh := hA.fresh k.mm k.heap pcbSize
  have hused := hA.used k.mm k.heap pcbSize
  have hkept := hA.kept k.mm k.heap pcbSize
  rw [hkm] at hfresh hused hkept
  rcases schedulerSpawn_cases hkm hres with ⟨h0, rfl⟩ | ⟨h0, rfl, _, _, _, pcb, _, hnew, rfl⟩
  · rw [if_pos h0]
    refine ⟨n, le_max_left _ _, blocks, fun i hi hi0 => ?_, h.nodup, fun b hb => hkept (h.used b hb), h.length, h.size, h.count, h.current⟩
    have hs := h.slots i hi hi0
    exact hs.congr rfl (.refl _) hs.running hs.block rfl
  · rw [if_neg h0]
    have hblock : proc ∉ blocks := fun hc => hfresh h0 (h.used proc hc)
    have hinc := h.count_succ h0 hblock
    refine ⟨max n (k.count.toNat + 1), le_rfl, proc :: blocks, fun i hi hi0 => ?_, ?_, ?_, hinc.symm, le_max_of_le_left h.size,
      ?_, lt_max_of_lt_left h.current⟩
    · simp only at hi0 ⊢
      by_cases hic : i = k.count.toNat
      · subst hic
        constructor
        · simp only [Function.update_self, hnew.pid]
        · simp only [Function.update_self, hnew.state, true_or]
        · simp [hnew.state]
        · simp only [Function.update_self, hnew.timeslice]
        · simp only [Function.update_self, List.mem_cons_self]
        · simp only [Function.update_self, implies_true]
      · simp only [Function.update_of_ne hic] at hi0
        have hlt : i < n := by
          have hle := h.count
          rw [lt_max_iff] at hi
          omega
        have hs := h.slots i hlt hi0
        have hne : k.table i ≠ proc := fun hc => hblock (hc ▸ hs.block)
        refine hs.congr (Function.update_of_ne hic _ _) ?_ hs.running (List.mem_cons_of_mem _ hs.block)
          (Function.update_of_ne hne _ _)
        simp only [Function.update_of_ne hne]
        exact .refl _
    · have hnd := List.nodup_cons.mp h.nodup
      refine List.nodup_cons.mpr ⟨?_, List.nodup_cons.mpr ⟨hblock, hnd.2⟩⟩
      rw [List.mem_cons, not_or]
      exact ⟨Ne.symm h0, hnd.1⟩
    · exact List.forall_mem_cons.mpr ⟨hused h0, fun b hb => hkept (h.used b hb)⟩
    · simp only [hinc, h.length]
      exact le_max_right _ _

theorem step {s s' : Kernel H × (U64 → RegisterCtx)} {op : SwitchOp} (hA : AllocatorSpec A inUse)
    (h : ∃ n blocks, Switching inUse n blocks s.1 s.2) (he : op.exec A s = some s') :
    ∃ n blocks, Switching inUse n blocks s'.1 s'.2 := by
  obtain ⟨k, last⟩ := s
  obtain ⟨n, blocks, h⟩ := h
  cases op with
  | flag proc inSyscall =>
      cases Option.some.inj he
      exact ⟨n, blocks, h.flag proc inSyscall⟩
  | sched op =>
      cases op with
      | spawn user entry pagemap =>
          simp only [SwitchOp.exec] at he
          split at he
          · cases he
          · rename_i pid k' hres
            cases Option.some.inj he
            obtain ⟨n', _, blocks', h'⟩ := h.spawn hA rfl hres
            exact ⟨n', blocks', h'⟩
      | tick ctx =>
          simp only [SwitchOp.exec] at he
          split at he
          · cases he
          · rename_i ctx' k' hres
            cases Option.some.inj he
            exact ⟨n, blocks, h.tick hres⟩
      | exit =>
          cases Option.some.inj he
          obtain ⟨blocks', h'⟩ := h.exit hA
          exact ⟨n, blocks', h'⟩

theorem lossless {s : Kernel H × (U64 → RegisterCtx)} {op : SwitchOp}
    (h : ∃ n blocks, Switching inUse n blocks s.1 s.2) : op.Lossless s := by
  obtain ⟨n, blocks, h⟩ := h
  cases op with
  | flag proc inSyscall => trivial
  | sched op =>
      cases op with
      | spawn user entry pagemap => trivial
      | tick ctx => exact h.tick_lossless ctx
      | exit => trivial

theorem init {k₀ : Kernel H} (hboot : k₀.Boot) (hinit : (schedulerInit A k₀).procs ≠ 0) (last : U64 → RegisterCtx) :
    Switching inUse procMaxProcs [] (schedulerInit A k₀) last := by
  simp only [schedulerInit] at hinit ⊢
  refine ⟨fun i hi hi0 => ?_, List.nodup_singleton 0, by simp, ?_, le_rfl, ?_, ?_⟩
  · simp only [hinit, ↓reduceIte, hi] at hi0
    exact absurd rfl hi0
  · simp [hboot.count]
  · simp [hboot.count]
  · simp [hboot.currentPid, procMaxProcs]

end Switching

end ShadowOS.Proc
