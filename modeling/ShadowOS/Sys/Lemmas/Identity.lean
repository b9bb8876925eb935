import ShadowOS.Sys.Lemmas.Status

/-!
# Who a process is

The user id in a control block changes by `setuid` only, and only for the process that makes the call.
-/

namespace ShadowOS.Sys

open Mm Proc Fs

variable {H : Type} {A : Allocator H} {inUse : H → Set U64} {role : U64 → Option Role} {T : Set U64} {live : List U64}
  {s s' : System H} {proc v : U64} {status : U32}

/-- Every control block has the same user id in both states. -/
def SameUids (s s' : System H) : Prop := ∀ p, (s'.pcbs p).uid = (s.pcbs p).uid

namespace SameUids

theorem refl (s : System H) : SameUids s s := fun _ => rfl

theorem trans {s₁ s₂ s₃ : System H} (h : SameUids s₁ s₂) (h' : SameUids s₂ s₃) : SameUids s₁ s₃ :=
  fun p => (h' p).trans (h p)

theorem setPcb {pcb : Pcb} (h : pcb.uid = (s.pcbs proc).uid) : SameUids s (s.setPcb proc pcb) := by
  intro p
  by_cases hp : p = proc
  · rw [hp]
    exact (congrArg Pcb.uid (Function.update_self _ _ _)).trans h
  · exact congrArg Pcb.uid (Function.update_of_ne hp _ _)

theorem setInSyscall (s : System H) (proc : U64) (b : Bool) : SameUids s (setInSyscall s proc b) := setPcb rfl

theorem update {k : Kernel H} {pcb : Pcb} (hk : k.pcbs = Function.update s.pcbs proc pcb)
    (h : pcb.uid = (s.pcbs proc).uid) : SameUids s (s.setKernel k) := by
  intro p
  change (k.pcbs p).uid = (s.pcbs p).uid
  rw [hk]
  by_cases hp : p = proc
  · rw [hp, Function.update_self, h]
  · rw [Function.update_of_ne hp]

end SameUids

/-! ## Ticks and exits -/

theorem sameUids_tickCurrent (s : System H) (ctx : RegisterCtx) :
    SameUids s (s.setKernel (tickCurrent s.toKernel ctx)) := by
  simp only [tickCurrent]
  split
  · split
    · exact .update rfl rfl
    · exact .update rfl rfl
  · exact .refl s

theorem sameUids_tickNext {k : Kernel H} {ctx ctx' : RegisterCtx} (hres : tickNext s.toKernel ctx = .ok (ctx', k)) :
    SameUids s (s.setKernel k) := by
  simp only [tickNext] at hres
  split at hres
  · cases hres
  · split at hres
    · split at hres
      · cases hres
      · cases hres
        exact .update rfl rfl
    · cases hres
      split
      · exact .refl s
      · exact .refl s
    · cases hres
      exact .refl s
    · cases hres
      exact .refl s

theorem sameUids_tick {k : Kernel H} {ctx ctx' : RegisterCtx} (hres : schedulerTick s.toKernel ctx = .ok (ctx', k)) :
    SameUids s (s.setKernel k) := by
  simp only [schedulerTick] at hres
  split at hres
  · cases hres
  · split at hres
    · cases hres
      exact .refl s
    · have hmid : SameUids s (s.setKernel (tickCurrent { s.toKernel with locked := true } ctx)) :=
        sameUids_tickCurrent { s with locked := true } ctx
      exact hmid.trans (sameUids_tickNext hres)

theorem sameUids_exit (A : Allocator H) (s : System H) : SameUids s (s.setKernel (schedulerExit A s.toKernel)) := by
  simp only [schedulerExit]
  split
  · exact .update rfl rfl
  · exact .refl s

/-! ## Calls -/

/-- A call with a descriptor stops early, or goes on with the vnode. -/
theorem withVnode_cases {fd : U32} {call : Pcb → U64 → Except Stop (U32 × System H)}
    (hres : withVnode s fd call = .ok (status, s')) :
    s' = s ∨ call (s.pcbs s.current) (vnodeOf s fd) = .ok (status, s') := by
  by_cases hcur : s.current = 0
  · rw [withVnode_idle hcur] at hres
    cases hres
    exact .inl rfl
  · rw [withVnode_eq hcur (inRange_of_ok hcur hres)] at hres
    split at hres
    · cases hres
      exact .inl rfl
    · exact .inr hres

theorem withBuffer_cases {pcb : Pcb} {node action buff size : U64} {call : Except Stop (U32 × System H)}
    (hres : withBuffer s pcb node action buff size call = .ok (status, s')) :
    s' = s ∨ vfsAmIAllowed (s.nodes node) pcb.uid pcb.gid action = true ∧ call = .ok (status, s') := by
  rw [withBuffer_eq] at hres
  split at hres
  · cases hres
    exact .inl rfl
  · rename_i hallowed
    split at hres
    · cases hres
    · exact .inr ⟨Bool.eq_true_of_not_eq_false hallowed, hres⟩

theorem sameUids_write {fd : U32} {buff size : U64} (hres : sysWrite A s fd buff size = .ok (status, s')) :
    SameUids s s' := by
  rw [sysWrite] at hres
  rcases withVnode_cases hres with rfl | hres
  · exact .refl _
  · rcases withBuffer_cases hres with rfl | ⟨_, hres⟩
    · exact .refl _
    · cases hw : vfsWrite A s.fs (vnodeOf s fd) (some (s.userBytes buff)) size 0 with
      | error e =>
          rw [hw] at hres
          cases hres
      | ok res =>
          rw [hw] at hres
          cases hres
          exact .refl s

theorem sameUids_read {fd : U32} {buff size : U64} (hres : sysRead s fd buff size = .ok (status, s')) :
    SameUids s s' := by
  rw [sysRead] at hres
  rcases withVnode_cases hres with rfl | hres
  · exact .refl _
  · rcases withBuffer_cases hres with rfl | ⟨_, hres⟩
    · exact .refl _
    · cases hw : vfsRead s.fs (vnodeOf s fd) buff size 0 with
      | error e =>
          rw [hw] at hres
          cases hres
      | ok res =>
          rw [hw] at hres
          cases hres
          exact .refl s

theorem sameUids_open {path : Option CString} {flags : U64} {kind : U8}
    (hres : sysOpen A s path flags kind = .ok (status, s')) : SameUids s s' := by
  by_cases hcur : s.current = 0
  · rw [sysOpen, if_pos hcur] at hres
    cases hres
    exact .refl s
  · obtain ⟨node, fs, _, ⟨_, _, rfl⟩ | ⟨_, k, hadd, rfl⟩⟩ := sysOpen_cases hcur hres
    · exact .refl s
    · rcases schedulerProcAddVnode_cases hadd with ⟨_, rfl⟩ | ⟨_, pcb, hsame, _, _, _, _, rfl⟩
      · exact .refl s
      · exact .update rfl hsame.uid

theorem sameUids_close {fd : U32} (hres : sysClose s fd = .ok (status, s')) : SameUids s s' := by
  rw [sysClose] at hres
  split at hres
  · cases hres
    exact .refl s
  · rcases hrem : schedulerProcRemoveVnode s.toKernel (s.pcbs s.current).pid fd with ⟨r, k⟩
    rw [hrem] at hres
    cases hres
    rcases schedulerProcRemoveVnode_cases hrem with ⟨_, rfl⟩ | ⟨_, _, _, _, pcb, hsame, _, _, rfl⟩
    · exact .refl s
    · exact .update rfl hsame.uid

/-- A call that is not `setuid` changes no user id. -/
theorem sameUids_call {c : Syscall} {r : Registers} (hc : c ≠ .setuid) (hres : c.call A s r = .ok (status, s')) :
    SameUids s s' := by
  cases c with
  | exit =>
      simp only [Syscall.call, sysExit] at hres
      split at hres
      · cases hres
        exact .refl s
      · split at hres
        · cases hres
        · cases hres
          exact sameUids_exit A s
  | «open» => exact sameUids_open hres
  | close => exact sameUids_close hres
  | write => exact sameUids_write hres
  | read => exact sameUids_read hres
  | stat =>
      simp only [Syscall.call, sysStat] at hres
      split at hres
      · cases hres
        exact .refl s
      · rcases withVnode_cases hres with rfl | hres
        · exact .refl _
        · cases hres
          exact .refl s
  | setuid => exact absurd rfl hc
  | setgid =>
      simp only [Syscall.call, sysSetgid] at hres
      split at hres
      · cases hres
        exact .refl s
      · cases hres
        exact .setPcb rfl
  | ioctl =>
      simp only [Syscall.call, sysIoctl] at hres
      rcases withVnode_cases hres with rfl | hres
      · exact .refl _
      · split at hres
        · cases hres
        · cases hres
          exact .refl s
  | getpid =>
      cases hres
      exact .refl s
  | uname =>
      cases hres
      exact .refl s

theorem sameUids_afterCall {r : Registers} (hres : afterCall s r proc status = .ok s') : SameUids s s' := by
  have herrno : SameUids s (s.setPcb proc { s.pcbs proc with errno := -status }) := .setPcb rfl
  rw [afterCall] at hres
  split at hres
  · cases hres
    exact .refl s
  · split at hres
    · simp only at hres
      split at hres
      · rw [fdEntry] at hres
        split at hres
        · cases hres
          exact herrno.trans (.setInSyscall _ _ _)
        · cases hres
      · cases hres
        exact herrno.trans (.setInSyscall _ _ _)
    · cases hres
      exact .setInSyscall _ _ _

theorem sameUids_entered (s : System H) : SameUids s (entered s) := by
  rw [entered]
  split
  · exact .refl s
  · exact .setInSyscall _ _ _

/-- The user id of a process after a system call of any process. -/
theorem uid_syscallHandler {r : Registers} {ret : U64} (hres : syscallHandler A s r = .ok (ret, s')) (p : U64) :
    (s'.pcbs p).uid = (s.pcbs p).uid ∨
      (s.current = p ∧ r.number = some .setuid) ∧ (s'.pcbs p).uid = (r.rdi.setWidth 32 : U32).setWidth 64 := by
  obtain ⟨status, s₁, hcall, hafter⟩ := syscallHandler_cases hres
  have hin := sameUids_entered s
  have hout := sameUids_afterCall hafter
  rw [dispatch] at hcall
  split at hcall
  · rename_i c hc
    by_cases hset : c = .setuid
    · subst hset
      simp only [Syscall.call, sysSetuid] at hcall
      split at hcall
      · cases hcall
        exact .inl (hin.trans hout p)
      · cases hcall
        by_cases hp : p = s.current
        · refine .inr ⟨⟨hp.symm, hc⟩, (hout p).trans ?_⟩
          simp only [hp, System.setPcb, entered_current, Function.update_self]
        · refine .inl ((hout p).trans (Eq.trans ?_ (hin p)))
          simp only [System.setPcb, entered_current, Function.update_of_ne hp]
    · exact .inl ((hin.trans (sameUids_call hset hcall)).trans hout p)
  · cases hcall
    exact .inl (hin.trans hout p)

/-- The user id of a process after any step of the kernel. -/
theorem SysInv.uid_step {op : SysOp} (h : SysInv inUse role T live s) (hA : AllocatorSpec A inUse) (hfew : op.Few s)
    (hres : op.exec A s = some s') {p : U64} (hp : p ∈ live) :
    (s'.pcbs p).uid = (s.pcbs p).uid ∨ ∃ uid, op.SetsUid p uid s ∧ (s'.pcbs p).uid = uid.setWidth 64 := by
  cases op with
  | spawn user entry pagemap =>
      simp only [SysOp.exec] at hres
      split at hres
      · cases hres
      · rename_i hspawn
        cases hres
        obtain ⟨_, _, _, _, hpcbs⟩ := h.spawn hA hfew hspawn
        exact .inl (congrArg Pcb.uid (hpcbs p hp))
  | tick ctx =>
      simp only [SysOp.exec] at hres
      split at hres
      · cases hres
      · rename_i htick
        cases hres
        exact .inl (sameUids_tick htick p)
  | key scancode =>
      cases hres
      exact .inl rfl
  | syscall r =>
      simp only [SysOp.exec] at hres
      split at hres
      · cases hres
      · rename_i hcall
        cases hres
        exact (uid_syscallHandler hcall p).imp_right fun hsets => ⟨_, ⟨hsets.1.1, hsets.1.2, rfl⟩, hsets.2⟩

/-! ## Reads -/

/-- Who is not the owner may not read a file that only its owner may read. -/
theorem vfsAmIAllowed_read {node : Vnode} {uid gid : U64} (hmode : node.mode &&& sharedRead = 0)
    (huid : uid ≠ node.uid.setWidth 64) : vfsAmIAllowed node uid gid 1 = false := by
  have hbits : node.mode &&& vnodeModeRgrp = 0#32 ∧ node.mode &&& vnodeModeRoth = 0#32 := by
    rw [sharedRead, BitVec.and_or_distrib_left] at hmode
    exact BitVec.or_eq_zero_iff.mp hmode
  simp [vfsAmIAllowed, Ne.symm huid, hbits.1, hbits.2]

/-- A read that is not allowed changes nothing. -/
theorem sysRead_refused {fd : U32} {buff size : U64} (hnode : vnodeOf s fd = v)
    (hallowed : vfsAmIAllowed (s.nodes v) (s.pcbs s.current).uid (s.pcbs s.current).gid 1 = false)
    (hres : sysRead s fd buff size = .ok (status, s')) : s' = s := by
  rw [sysRead] at hres
  rcases withVnode_cases hres with rfl | hres
  · rfl
  · rcases withBuffer_cases hres with rfl | ⟨hyes, _⟩
    · rfl
    · rw [hnode, hallowed] at hyes
      cases hyes

/-! ## Runs -/

/-- A process that is alive and is not the user `uid`. -/
def Stranger (inUse : H → Set U64) (proc : U64) (uid : U32) (s : System H) : Prop :=
  ∃ role T live, SysInv inUse role T live s ∧ proc ∈ live ∧ (s.pcbs proc).uid ≠ uid.setWidth 64

namespace Stranger

variable {uid : U32}

theorem step {op : SysOp} (h : Stranger inUse proc uid s) (hA : AllocatorSpec A inUse) (hfew : op.Few s)
    (hset : ¬ op.SetsUid proc uid s) (hres : op.execWith A proc s = some s') : Stranger inUse proc uid s' := by
  obtain ⟨role, T, live, h, hp, huid⟩ := h
  rw [SysOp.execWith] at hres
  split at hres
  · cases hres
  · rename_i hexit
    obtain ⟨role', T', live', h', hlive⟩ := h.step hA hfew hres
    refine ⟨role', T', live', h', hlive proc hp hexit, ?_⟩
    rcases h.uid_step hA hfew hres hp with he | ⟨uid', hset', he⟩
    · rwa [he]
    · rw [he]
      intro hc
      have huid' : uid' = uid := by
        have hwidth := congrArg (BitVec.setWidth 32) hc
        rwa [BitVec.setWidth_setWidth_of_le _ (by decide), BitVec.setWidth_setWidth_of_le _ (by decide), BitVec.setWidth_eq,
          BitVec.setWidth_eq] at hwidth
      exact hset (huid' ▸ hset')

/-- A read of a file that only its owner may read copies nothing. -/
theorem copiesNothing (h : Stranger inUse proc uid s) (huid : (s.nodes v).uid = uid)
    (hmode : (s.nodes v).mode &&& sharedRead = 0) (op : SysOp) : op.CopiesNothing proc v s := by
  obtain ⟨_, _, _, _, _, hne⟩ := h
  cases op with
  | syscall r =>
      intro hcur _ hnode status s' hres
      subst hcur
      have hpcb : ∀ {α : Type} (f : Pcb → α), (∀ pcb b, f { pcb with inSyscall := b } = f pcb) →
          f ((setInSyscall s s.current true).pcbs s.current) = f (s.pcbs s.current) := by
        intro α f hf
        exact (congrArg f (Function.update_self _ _ _)).trans (hf _ _)
      have hallowed : vfsAmIAllowed ((setInSyscall s s.current true).nodes v)
          ((setInSyscall s s.current true).pcbs s.current).uid ((setInSyscall s s.current true).pcbs s.current).gid 1 =
            false := by
        refine vfsAmIAllowed_read hmode ?_
        rw [hpcb Pcb.uid fun _ _ => rfl]
        exact huid ▸ hne
      rw [sysRead_refused ((hpcb (fun pcb => pcb.fdTable _) fun _ _ => rfl).trans hnode) hallowed hres]
      rfl
  | spawn user entry pagemap => trivial
  | tick ctx => trivial
  | key scancode => trivial

end Stranger

end ShadowOS.Sys
