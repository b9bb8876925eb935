import ShadowOS.Sys.Lemmas.Identity
import ShadowOS.Sys.Theorems

/-!
# Theorems about processes and their system calls
-/

namespace ShadowOS.Sys

open Mm Proc Fs

variable {H : Type} {A : Allocator H} {inUse : H → Set U64} {role : U64 → Option Role} {T : Set U64} {live : List U64}
  {s s' : System H}

/-! ## Exit -/

/-- The exit of a process that is not the last one returns. -/
theorem syscallFrame_exit {ctx : RegisterCtx} (h : SysInv inUse role T live s) (hcur : s.current ≠ 0)
    (htwo : 2 ≤ live.length) (hexit : (frameRegisters ctx).number = some .exit) :
    ∃ frame s', syscallFrame A s ctx = .ok (frame, s') ∧ s'.table = Function.update s.table s.currentPid.toNat 0 := by
  have hin : entered s = setInSyscall s s.current true := if_neg hcur
  have hcur' : (entered s).current = s.current := by
    rw [hin]
    rfl
  have hne : s.table s.currentPid.toNat ≠ 0 := h.current_eq ▸ hcur
  have hpid : ((entered s).pcbs (s.table s.currentPid.toNat)).pid.toNat = s.currentPid.toNat := by
    rw [hin, ← h.current_eq]
    simp only [setInSyscall, System.setPcb, Function.update_self]
    exact (h.current hcur).2.pid
  have hcount : s.count - 1 ≠ 0 := by
    intro hc
    have hlen := h.length
    have h1 : s.count = 1 := by
      rw [← BitVec.sub_add_cancel s.count 1, hc]
      rfl
    rw [h1] at hlen
    have : (1 : U64).toNat = 1 := rfl
    omega
  have hk : (schedulerExit A (entered s).toKernel).count = s.count - 1 ∧
      (schedulerExit A (entered s).toKernel).table = Function.update s.table s.currentPid.toNat 0 := by
    rw [hin] at hpid ⊢
    simp only [schedulerExit, setInSyscall, System.setPcb, ne_eq, hne, not_false_eq_true, ↓reduceIte, true_and] at hpid ⊢
    rw [hpid]
  have hcall : dispatch A (entered s) (frameRegisters ctx) =
      .ok (0, (entered s).setKernel (schedulerExit A (entered s).toKernel)) := by
    simp only [dispatch, hexit, Syscall.call, sysExit, hcur', if_neg hcur, hk.1, if_neg hcount]
  have hafter : ∀ s₁ : System H, afterCall s₁ (frameRegisters ctx) s.current 0 = .ok (setInSyscall s₁ s.current false) := by
    intro s₁
    have hpos : ¬ (0 : U32).toInt < 0 := by decide
    rw [afterCall, if_neg hcur, if_neg hpos]
  refine ⟨{ ctx with others := Function.update ctx.others 20 ((0 : U32).signExtend 64) },
    setInSyscall ((entered s).setKernel (schedulerExit A (entered s).toKernel)) s.current false, ?_, hk.2⟩
  simp only [syscallFrame, syscallHandler_eq, hcall, Except.bind, hafter]
  rfl

/-- A process that exits always gets the processor back. -/
theorem exited_process_runs {frame : RegisterCtx} (h : SysInv inUse role T live s) (hcur : s.current ≠ 0)
    (htwo : 2 ≤ live.length) (hexit : (frameRegisters frame).number = some .exit) :
    ¬ Cpu.RunsLive A ⟨s, frame, s.current⟩ := by
  intro hruns
  obtain ⟨frame', s', hres, htable⟩ := syscallFrame_exit (A := A) h hcur htwo hexit
  obtain ⟨i, hi, h0, howner⟩ := (hruns frame' s' hres []).head
  rw [htable] at h0 howner
  by_cases hic : i = s.currentPid.toNat
  · rw [hic, Function.update_self] at h0
    exact h0 rfl
  · rw [Function.update_of_ne hic] at h0 howner
    have hpid := (h.table i hi h0).2.pid
    simp only at howner
    rw [howner, (h.current hcur).2.pid] at hpid
    exact hic hpid.symm

/-- Two processes, the first of which runs. -/
def samplePair : List SysOp := [sampleUserSpawn, .spawn true 0x400000 (samplePagemap 1), sampleUserTick]

/-- The frame of a process that calls `exit`. -/
def exitFrame : RegisterCtx := ⟨fun _ => 0, 0x400123, 0x1b, 0x202, 0x4fff, 0x23⟩

/-- The run of the two samples below and the call at its end, evaluated together. -/
theorem samplePair_eval : AllSteps (SysOp.exec bumpAllocator) SysOp.Few sampleBoot samplePair ∧
    (run (SysOp.exec bumpAllocator) sampleBoot samplePair).any (fun s => s.current != 0 && s.count == 2 &&
      (syscallFrame bumpAllocator s exitFrame).toOption.any (fun res => res.1.rip == exitFrame.rip &&
        res.1.rsp == exitFrame.rsp && (List.range procMaxProcs).all fun i => res.2.table i != s.current)) = true := by
  decide +kernel

theorem exited_process_runs_sample : ∃ s, run (SysOp.exec bumpAllocator) sampleBoot samplePair = some s ∧
    ¬ Cpu.RunsLive bumpAllocator ⟨s, exitFrame, s.current⟩ := by
  obtain ⟨hfew, hend⟩ := samplePair_eval
  obtain ⟨s, hs, hend⟩ := (Option.any_eq_true _ _).mp hend
  rw [Bool.and_eq_true, Bool.and_eq_true, bne_iff_ne, beq_iff_eq] at hend
  obtain ⟨⟨hcur, hcount⟩, _⟩ := hend
  obtain ⟨role, T, live, h⟩ := SysInv.run bumpAllocator_spec sampleBoot_booted hfew hs
  have hlen := h.length
  rw [hcount] at hlen
  exact ⟨s, hs, exited_process_runs h hcur hlen.ge rfl⟩

/-- The first of two processes exits, and the kernel goes back to its next instruction. -/
theorem exited_process_goes_on : ∃ s frame s', run (SysOp.exec bumpAllocator) sampleBoot samplePair = some s ∧
    s.count = 2 ∧ syscallFrame bumpAllocator s exitFrame = .ok (frame, s') ∧ frame.rip = exitFrame.rip ∧
    frame.rsp = exitFrame.rsp ∧ ¬ Cpu.Live ⟨s', frame, s.current⟩ := by
  obtain ⟨s, hs, hend⟩ := (Option.any_eq_true _ _).mp samplePair_eval.2
  rw [Bool.and_eq_true, Bool.and_eq_true, beq_iff_eq] at hend
  obtain ⟨⟨_, hcount⟩, hend⟩ := hend
  obtain ⟨⟨frame, s'⟩, hres, hend⟩ := ok_of_any hend
  simp only [Bool.and_eq_true, beq_iff_eq, List.all_eq_true, List.mem_range, bne_iff_ne] at hend
  refine ⟨s, frame, s', hs, hcount, hres, hend.1.1, hend.1.2, ?_⟩
  rintro ⟨i, hi, -, howner⟩
  exact hend.2 i hi howner

/-! ## Permissions -/

/-- In a run in which nobody changes the owner and the mode of a file that only its owner may read, a process of another
user that never takes the owner's user id never gets bytes of the file. -/
theorem owner_only_file_not_read {proc v : U64} {ops : List SysOp} (hA : AllocatorSpec A inUse)
    (h : SysInv inUse role T live s) (hproc : proc ∈ live) (huid : (s.pcbs proc).uid ≠ (s.nodes v).uid.setWidth 64)
    (hmode : (s.nodes v).mode &&& sharedRead = 0) (hfew : AllSteps (SysOp.execWith A proc) SysOp.Few s ops)
    (hkeep : AllStates (SysOp.execWith A proc) (fun t => (t.nodes v).uid = (s.nodes v).uid ∧
      (t.nodes v).mode = (s.nodes v).mode) s ops)
    (hset : AllSteps (SysOp.execWith A proc) (fun t op => ¬ op.SetsUid proc (s.nodes v).uid t) s ops) :
    AllSteps (SysOp.execWith A proc) (SysOp.CopiesNothing proc v) s ops := by
  have hinv : AllStates (SysOp.execWith A proc) (Stranger inUse proc (s.nodes v).uid) s ops :=
    (hfew.and hset).allStates (fun h hop hres => h.step hA hop.1 hop.2 hres) ⟨role, T, live, h, hproc, huid⟩
  refine (hinv.and hkeep).allSteps fun ⟨hstranger, hu, hm⟩ => ?_
  exact hstranger.copiesNothing hu (hm ▸ hmode) _

/-- A user page with the paths "/" and "/a". -/
def sampleFileBoot : System U64 :=
  let page := (pmmRequestPage sampleDevfs.mm).1
  { sampleBoot with
    mm := { sampleBoot.mm with
      mem := Function.update (Function.update sampleBoot.mm.mem (page + 0x10) slash) (page + 0x11) 97 } }

/-- What is in memory does not matter at the start. -/
theorem Booted.setMm (h : Booted inUse s) (mm : Mm.State) : Booted inUse { s with mm := mm } := by
  obtain ⟨role, T, hfs, hstdout, hrole⟩ := h.fs
  exact ⟨⟨role, T, hfs.congr (fun _ _ => .refl _) (fun _ _ _ _ => rfl) rfl rfl hfs.used, hstdout, hrole⟩, h.procs, h.table,
    h.count, h.currentPid⟩

/-- A process creates the file "/a" and writes two bytes to it. -/
def sampleFileOps : List SysOp :=
  [sampleUserSpawn, sampleUserTick, .syscall ⟨1, 0x400010, 1, 2⟩, .syscall ⟨3, 1, 0x400010, 2⟩]

/-- The file of the descriptor 1 is given to user 7, who alone may read it. -/
def sampleSecret (s : System U64) : System U64 :=
  s.setFs (s.fs.setNode (vnodeOf s 1) { s.nodes (vnodeOf s 1) with uid := 7, mode := vnodeModeRusr })

/-- A new owner and a new mode are nothing to the kernel. -/
theorem SysInv.secret {s : System U64} {inUse : U64 → Set U64} (h : SysInv inUse role T live s) :
    SysInv inUse role T live (sampleSecret s) := by
  refine h.setFs (h.fs.congr (fun v _ => ?_) (fun _ _ _ _ => rfl) rfl rfl h.fs.used) subset_rfl fun _ _ hp => hp
  by_cases hv : v = vnodeOf s 1
  · subst hv
    simp only [Fs.State.setNode, Function.update_self]
    exact ⟨rfl, rfl, rfl, rfl, rfl, rfl, rfl, rfl, rfl⟩
  · simp only [Fs.State.setNode, Function.update_of_ne hv]
    exact .refl _

theorem sampleSecret_node (s : System U64) : ((sampleSecret s).nodes (vnodeOf s 1)).uid = 7 ∧
    ((sampleSecret s).nodes (vnodeOf s 1)).mode = vnodeModeRusr := by
  have hnode : (sampleSecret s).nodes (vnodeOf s 1) = { s.nodes (vnodeOf s 1) with uid := 7, mode := vnodeModeRusr } :=
    Function.update_self _ _ _
  rw [hnode]
  exact ⟨rfl, rfl⟩

/-- The file still belongs to user 7, who alone may read it. -/
def isSecret (v : U64) (s : System U64) : Bool := (s.nodes v).uid == 7 && (s.nodes v).mode == vnodeModeRusr

/-- The process takes a user id and reads two bytes of the file. -/
def sampleSetuid (uid : U64) : SysOp := .syscall ⟨6, uid, 0, 0⟩
def sampleRead : SysOp := .syscall ⟨4, 1, 0x400020, 2⟩

/-- The run of the two samples below and the calls at its end, evaluated together. -/
theorem sampleFile_eval : AllSteps (SysOp.exec bumpAllocator) SysOp.Few sampleFileBoot sampleFileOps ∧
    (run (SysOp.exec bumpAllocator) sampleFileBoot sampleFileOps).any (fun s =>
      (s.current != 0 && (s.pcbs s.current).uid == 0) &&
        (SysOp.execWith bumpAllocator s.current (sampleSecret s) (sampleSetuid 5)).all (fun t =>
          isSecret (vnodeOf s 1) t &&
            (SysOp.execWith bumpAllocator s.current t sampleRead).all (isSecret (vnodeOf s 1))) &&
        (SysOp.execWith bumpAllocator s.current (sampleSecret s) (sampleSetuid 7)).any fun t =>
          t.current == s.current && vnodeOf t 1 == vnodeOf s 1 &&
            (sysRead (setInSyscall t s.current true) 1 0x400020 2).toOption.any fun res =>
              res.2.mm.mem (System.userPhys t.mm 0x400020) != t.mm.mem (System.userPhys t.mm 0x400020)) = true := by
  decide +kernel

theorem owner_only_file_not_read_sample :
    ∃ s, run (SysOp.exec bumpAllocator) sampleFileBoot sampleFileOps = some s ∧
      AllSteps (SysOp.execWith bumpAllocator s.current) (SysOp.CopiesNothing s.current (vnodeOf s 1)) (sampleSecret s)
        [sampleSetuid 5, sampleRead] := by
  obtain ⟨hfew, hend⟩ := sampleFile_eval
  obtain ⟨s, hs, hend⟩ := (Option.any_eq_true _ _).mp hend
  rw [Bool.and_eq_true, Bool.and_eq_true, Bool.and_eq_true, bne_iff_ne, beq_iff_eq] at hend
  obtain ⟨⟨⟨hcur, huid⟩, hkeep⟩, _⟩ := hend
  obtain ⟨role, T, live, h⟩ := SysInv.run bumpAllocator_spec (sampleBoot_booted.setMm _) hfew hs
  have hnode := sampleSecret_node s
  refine ⟨s, hs, owner_only_file_not_read bumpAllocator_spec h.secret (h.current hcur).1 ?_ ?_ ?_ ?_ ?_⟩
  · rw [hnode.1]
    change (s.pcbs s.current).uid ≠ _
    rw [huid]
    decide
  · rw [hnode.2]
    decide
  · exact ⟨trivial, fun _ _ => ⟨trivial, fun _ _ => trivial⟩⟩
  · rw [hnode.1, hnode.2]
    have hsecret : ∀ {t : System U64}, isSecret (vnodeOf s 1) t = true →
        (t.nodes (vnodeOf s 1)).uid = 7 ∧ (t.nodes (vnodeOf s 1)).mode = vnodeModeRusr := by
      intro t ht
      rwa [isSecret, Bool.and_eq_true, beq_iff_eq, beq_iff_eq] at ht
    refine ⟨hnode, fun t ht => ?_⟩
    rw [ht, Option.all_some, Bool.and_eq_true] at hkeep
    refine ⟨hsecret hkeep.1, fun t' ht' => ?_⟩
    have hlast := hkeep.2
    rw [ht', Option.all_some] at hlast
    exact hsecret hlast
  · rw [hnode.1]
    refine ⟨fun hc => ?_, fun t _ => ⟨fun hc => ?_, fun _ _ => trivial⟩⟩
    · exact absurd hc.2.2 (by decide)
    · exact absurd hc.2.1 (by decide)

/-- The process takes the user id of the owner and reads the file. -/
theorem owner_only_file_read : ∃ s, run (SysOp.exec bumpAllocator) sampleFileBoot sampleFileOps = some s ∧
    ((sampleSecret s).pcbs s.current).uid = 0 ∧ ((sampleSecret s).nodes (vnodeOf s 1)).uid = 7 ∧
    ((sampleSecret s).nodes (vnodeOf s 1)).mode = vnodeModeRusr ∧
    ¬ AllSteps (SysOp.execWith bumpAllocator s.current) (SysOp.CopiesNothing s.current (vnodeOf s 1)) (sampleSecret s)
        [sampleSetuid 7, sampleRead] := by
  obtain ⟨s, hs, hend⟩ := (Option.any_eq_true _ _).mp sampleFile_eval.2
  rw [Bool.and_eq_true, Bool.and_eq_true, Bool.and_eq_true, beq_iff_eq] at hend
  obtain ⟨⟨⟨_, huid⟩, _⟩, hend⟩ := hend
  obtain ⟨t, ht, hend⟩ := (Option.any_eq_true _ _).mp hend
  simp only [Bool.and_eq_true, beq_iff_eq] at hend
  obtain ⟨⟨hcur, hnode⟩, hend⟩ := hend
  obtain ⟨⟨status, s'⟩, hres, hend⟩ := ok_of_any hend
  refine ⟨s, hs, huid, (sampleSecret_node s).1, (sampleSecret_node s).2, fun hsteps => ?_⟩
  have hmm := (hsteps.2 t ht).1 hcur rfl hnode status s' hres
  simp only [hmm, bne_self_eq_false, Bool.false_eq_true] at hend

end ShadowOS.Sys
