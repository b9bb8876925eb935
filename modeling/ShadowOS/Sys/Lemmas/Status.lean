import ShadowOS.Sys.Lemmas.Calls

/-!
# What calls return
-/

namespace ShadowOS.Sys

open Mm Proc Fs

variable {H : Type} {A : Allocator H} {inUse : H → Set U64} {role : U64 → Option Role} {T : Set U64} {live : List U64}
  {s s' : System H} {status fd : U32} {r : Registers}

/-! ## Close -/

/-- A descriptor that is closed takes the place of none of the ones below it, and all the ones above it move down. -/
theorem SysInv.vnodeOf_close {a b : U32} (h : SysInv inUse role T live s) (hclose : Sys.sysClose s a = .ok (0, s'))
    (hb : b.toNat < (s.pcbs s.current).fdCount.toNat) : s.current ≠ 0 ∧ vnodeOf s' b =
      if b.toNat < a.toNat then vnodeOf s b
      else if b.toNat + 1 < (s.pcbs s.current).fdCount.toNat then (s.pcbs s.current).fdTable (b.toNat + 1) else 0 := by
  by_cases hcur : s.current = 0
  · rw [Sys.sysClose, if_pos hcur] at hclose
    simp [esrch] at hclose
  · refine ⟨hcur, ?_⟩
    rcases hres : schedulerProcRemoveVnode s.toKernel (s.pcbs s.current).pid a with ⟨r, k⟩
    rw [Sys.sysClose, if_neg hcur, hres] at hclose
    obtain ⟨hstatus, rfl⟩ := Prod.mk.inj (Except.ok.inj hclose)
    rcases schedulerProcRemoveVnode_cases hres with ⟨hr, _⟩ | ⟨_, _, hlt, hne, pcb, _, htable, hcount, rfl⟩
    · rcases hr with rfl | rfl
      · simp [ebadf] at hstatus
      · simp [ebadpid] at hstatus
    · rw [h.table_pid hcur] at htable hne
      have hfds := (h.current hcur).2.fds
      have ha : a.toNat < (s.pcbs s.current).fdCount.toNat := (hfds.ne_zero_iff h.fs.tree.nonnull hlt).mp hne
      have hlast : ((s.pcbs s.current).fdCount - 1).toNat = (s.pcbs s.current).fdCount.toNat - 1 :=
        BitVec.toNat_sub_of_le (by rw [BitVec.le_def]; simp; omega)
      change (Function.update s.pcbs (s.table (s.pcbs s.current).pid.toNat) pcb s.current).fdTable b.toNat = _
      rw [h.table_pid hcur, Function.update_self, htable, hlast, Function.update_apply, moveDown_apply, vnodeOf]
      split
      · rw [if_neg (by omega), if_neg (by omega)]
      · split
        · rw [if_neg (by omega), if_pos (by omega)]
        · rw [if_pos (by omega)]

/-! ## Statuses -/

theorem sysOpen_cases {path : Option CString} {flags : U64} {kind : U8} (hcur : s.current ≠ 0)
    (hres : sysOpen A s path flags kind = .ok (status, s')) : ∃ node fs, openVnode A s path flags kind = .ok (node, fs) ∧
      (node = 0 ∧ status = -enoent ∧ s' = s.setFs fs ∨ node ≠ 0 ∧ ∃ k,
        schedulerProcAddVnode (s.setFs (accessVnode fs node)).toKernel (s.pcbs s.current).pid node = .ok (status, k) ∧
        s' = (s.setFs (accessVnode fs node)).setKernel k) := by
  cases hopen : openVnode A s path flags kind with
  | error e =>
      rw [sysOpen, if_neg hcur, hopen] at hres
      cases hres
  | ok res =>
      obtain ⟨node, fs⟩ := res
      refine ⟨node, fs, rfl, ?_⟩
      by_cases h0 : node = 0
      · subst h0
        rw [sysOpen_null hcur hopen] at hres
        cases hres
        exact .inl ⟨rfl, rfl, rfl⟩
      · obtain ⟨fd, k, hadd⟩ := schedulerProcAddVnode_ok (s.setFs (accessVnode fs node)).toKernel (s.pcbs s.current).pid h0
        rw [sysOpen_vnode hcur hopen h0 hadd] at hres
        cases hres
        exact .inr ⟨h0, k, hadd, rfl⟩

theorem status_open {path : Option CString} {flags : U64} {kind : U8} (hcur : s.current ≠ 0)
    (hres : sysOpen A s path flags kind = .ok (status, s')) : -status ≠ enotty := by
  obtain ⟨node, fs, _, ⟨_, rfl, _⟩ | ⟨_, k, hadd, _⟩⟩ := sysOpen_cases hcur hres
  · decide
  · rcases schedulerProcAddVnode_cases hadd with ⟨rfl, _⟩ | ⟨_, pcb, _, hfew, _, hcount, hfd, _⟩
    · decide
    · rw [hcount, BitVec.add_sub_cancel] at hfd
      rw [hfd, enotty]
      rw [BitVec.lt_def] at hfew
      simp only [procMaxFds] at hfew
      intro hc
      bv_omega

theorem status_close (hres : sysClose s fd = .ok (status, s')) : -status ≠ enotty := by
  rw [sysClose] at hres
  split at hres
  · obtain ⟨rfl, _⟩ := Prod.mk.inj (Except.ok.inj hres)
    decide
  · obtain ⟨rfl, _⟩ := Prod.mk.inj (Except.ok.inj hres)
    split
    · decide
    · split
      · decide
      · decide

theorem status_stat {buf : U64} (hres : sysStat s fd buf = .ok (status, s')) : -status ≠ enotty := by
  simp only [sysStat, withVnode, fdEntry, bind, Except.bind] at hres
  split at hres
  · cases hres
    decide
  · split at hres
    · cases hres
      decide
    · split at hres
      · cases hres
      · split at hres
        · cases hres
          decide
        · cases hres
          decide

/-! ## The table of descriptors -/

theorem ok_ne_index {α : Type} {a : α} : (.ok a : Except Stop α) ≠ .error .index := nofun

theorem fs_ne_index {α : Type} {e : Fs.Stop} : (.error (.fs e) : Except Stop α) ≠ .error .index := nofun

theorem liftFs_ne_index {α β : Type} {x : Except Fs.Stop α} {f : α → Except Stop β} (hf : ∀ a, f a ≠ .error .index) :
    (liftFs x >>= f) ≠ .error .index := by
  cases x with
  | error e => exact fs_ne_index
  | ok a => exact hf a

theorem withBuffer_ne_index {pcb : Pcb} {node action buff size : U64} {call : Except Stop (U32 × System H)}
    (hcall : call ≠ .error .index) : withBuffer s pcb node action buff size call ≠ .error .index := by
  rw [withBuffer_eq]
  split
  · exact nofun
  · split
    · exact nofun
    · exact hcall

namespace SysInv

theorem vnodeOf_closed (h : SysInv inUse role T live s) (hcur : s.current ≠ 0) (hfd : InRange fd) (hopen : ¬ Opened s fd) :
    vnodeOf s fd = 0 := by
  rw [InRange, toInt_eq_toNat hfd.1] at hfd
  rw [Opened, BitVec.toInt_eq_toNat_cond] at hopen
  have hlt := fd.isLt
  refine (h.current hcur).2.fds.closed _ ?_ (Int.ofNat_lt.mp hfd.2)
  rw [procMaxFds] at hfd
  rw [if_pos (by omega)] at hopen
  omega

/-- A call stays in the table of descriptors, and refuses a descriptor that is not open, exactly if the descriptor is an
index of the table. -/
theorem checked_withVnode {call : Pcb → U64 → Except Stop (U32 × System H)} (h : SysInv inUse role T live s)
    (hcur : s.current ≠ 0) (hcall : ∀ pcb node, call pcb node ≠ .error .index) :
    (withVnode s fd call ≠ .error .index ∧ (¬ Opened s fd → ∃ s', withVnode s fd call = .ok (-ebadf, s'))) ↔ InRange fd := by
  constructor
  · intro hchecked
    by_contra hfd
    exact hchecked.1 (withVnode_index hcur hfd)
  · intro hfd
    rw [withVnode_eq hcur hfd]
    refine ⟨?_, fun hopen => ⟨s, if_pos (h.vnodeOf_closed hcur hfd hopen)⟩⟩
    split
    · exact nofun
    · exact hcall _ _

theorem checked_iff (h : SysInv inUse role T live s) (hcur : s.current ≠ 0) (call : FdCall) :
    call.Checked A s fd ↔ call.InTable s fd := by
  cases call with
  | read buff size =>
      simp only [FdCall.Checked, FdCall.exec, Sys.sysRead]
      exact h.checked_withVnode hcur fun pcb node => withBuffer_ne_index (liftFs_ne_index fun _ => ok_ne_index)
  | write buff size =>
      simp only [FdCall.Checked, FdCall.exec, Sys.sysWrite]
      exact h.checked_withVnode hcur fun pcb node => withBuffer_ne_index (liftFs_ne_index fun _ => ok_ne_index)
  | stat buf =>
      by_cases h0 : buf = 0
      · have hres : Sys.sysStat s fd buf = .ok (-efault, s) := if_pos ⟨hcur, h0⟩
        simp only [FdCall.Checked, FdCall.exec, FdCall.InTable, hres, if_pos h0]
        refine ⟨fun hchecked => ?_, fun hopen => ⟨ok_ne_index, fun hc => absurd hopen hc⟩⟩
        by_contra hopen
        obtain ⟨s', hs'⟩ := hchecked.2 hopen
        cases hs'
      · have hres : Sys.sysStat s fd buf = withVnode s fd fun _ node =>
            .ok (0, { s with mm := putUser s.mm buf (statBytes (s.nodes node)) }) := if_neg fun hc => h0 hc.2
        simp only [FdCall.Checked, FdCall.exec, FdCall.InTable, hres, if_neg h0]
        exact h.checked_withVnode hcur fun _ _ => ok_ne_index
  | ioctl =>
      simp only [FdCall.Checked, FdCall.exec, sysIoctl]
      refine h.checked_withVnode hcur fun _ node => ?_
      cases (s.nodes node).ops with
      | none => exact fs_ne_index
      | some ops => exact ok_ne_index

end SysInv

/-! ## The state of a call -/

theorem entered_nodes (s : System H) : (entered s).nodes = s.nodes := by
  rw [entered]
  split
  · rfl
  · rfl

theorem entered_userString (s : System H) (p : U64) : (entered s).userString p = s.userString p := by
  rw [entered]
  split
  · rfl
  · rfl

/-- Only the mark for the call is set. -/
theorem entered_pcb (s : System H) : ∃ b, (entered s).pcbs s.current = { s.pcbs s.current with inSyscall := b } := by
  rw [entered]
  split
  · exact ⟨_, rfl⟩
  · exact ⟨true, Function.update_self _ _ _⟩

theorem vnodeOf_entered (s : System H) (fd : U32) : vnodeOf (entered s) fd = vnodeOf s fd := by
  obtain ⟨b, hpcb⟩ := entered_pcb s
  rw [vnodeOf, vnodeOf, entered_current, hpcb]

theorem usable_entered (s : System H) (fd : U32) (action buff size : U64) :
    Usable (entered s) fd action buff size ↔ Usable s fd action buff size := by
  obtain ⟨b, hpcb⟩ := entered_pcb s
  simp only [Usable, vnodeOf_entered, entered_current, entered_nodes, hpcb]

/-! ## Calls that return -/

theorem setWidth_toNat {p : U64} (h : p.toNat < 2 ^ 32) : (p.setWidth 32).toNat = p.toNat := by
  rw [BitVec.toNat_setWidth, Nat.mod_eq_of_lt h]

theorem inRange_iff {fd : U64} (h : fd.toNat < 2 ^ 32) : InRange (fd.setWidth 32) ↔ fd.toNat < procMaxFds := by
  rw [InRange, BitVec.toInt_eq_toNat_cond, setWidth_toNat h, procMaxFds]
  split
  · omega
  · omega

theorem buffered_iff {action : U64} (h : r.rdi.toNat < 2 ^ 32) :
    Harmless.Buffered s r action ↔ Usable s (r.rdi.setWidth 32) action r.rsi r.rdx := by
  rw [Harmless.Buffered, Usable, vnodeOf, setWidth_toNat h]

theorem lt_of_maxFds {fd : U64} (h : fd.toNat < procMaxFds) : fd.toNat < 2 ^ 32 := by
  rw [procMaxFds] at h
  omega

namespace SysInv

/-- With harmless arguments a call on files returns. -/
theorem harmless_returns {c : Syscall} (h : SysInv inUse role T live s) (hA : AllocatorSpec A inUse)
    (hcur : s.current ≠ 0) (hc : c ∈ [Syscall.open, .close, .read, .write, .stat]) (hargs : Harmless s r c) :
    ∃ status s', c.call A (entered s) r = .ok (status, s') ∧ (-status ≠ enotty ∨ r.rdi.toNat < procMaxFds) := by
  have hcur' : (entered s).current ≠ 0 := by rwa [entered_current]
  cases c with
  | «open» =>
      have hpath : CreatesAtRoot ((entered s).userString r.rdi) r.rsi := by
        rw [entered_userString]
        exact hargs
      obtain ⟨status, s', _, _, hres, _⟩ := h.enter.sysOpen hA hpath (r.rdx.setWidth 8)
      exact ⟨status, s', hres, .inl (status_open hcur' hres)⟩
  | close =>
      obtain ⟨status, s', hres, _⟩ := h.enter.sysClose (r.rdi.setWidth 32)
      exact ⟨status, s', hres, .inl (status_close hres)⟩
  | write =>
      have hlt := lt_of_maxFds hargs.1
      obtain ⟨status, s', _, hres, _⟩ := h.enter.sysWrite hA hcur' ((inRange_iff hlt).mpr hargs.1)
        ((usable_entered ..).mpr ((buffered_iff hlt).mp hargs.2))
      exact ⟨status, s', hres, .inr hargs.1⟩
  | read =>
      have hlt := lt_of_maxFds hargs.1
      obtain ⟨status, s', hres, _⟩ := h.enter.sysRead hcur' ((inRange_iff hlt).mpr hargs.1)
        ((usable_entered ..).mpr ((buffered_iff hlt).mp hargs.2))
      exact ⟨status, s', hres, .inr hargs.1⟩
  | stat =>
      have hbuf : r.rsi = 0 ∨ InRange (r.rdi.setWidth 32) := hargs.imp id fun hlt => (inRange_iff (lt_of_maxFds hlt)).mpr hlt
      obtain ⟨status, s', hres, _⟩ := h.enter.sysStat hcur' hbuf
      exact ⟨status, s', hres, .inl (status_stat hres)⟩
  | exit => simp at hc
  | setuid => simp at hc
  | setgid => simp at hc
  | ioctl => simp at hc
  | getpid => simp at hc
  | uname => simp at hc

/-- A call that returns had harmless arguments. -/
theorem returns_harmless {c : Syscall} (h : SysInv inUse role T live s) (hcur : s.current ≠ 0)
    (hrdi : r.rdi.toNat < 2 ^ 32) (hres : c.call A (entered s) r = .ok (status, s')) : Harmless s r c := by
  have hcur' : (entered s).current ≠ 0 := by rwa [entered_current]
  cases c with
  | «open» =>
      have hpath := h.enter.createsAtRoot hcur' hres
      rwa [entered_userString] at hpath
  | write =>
      obtain ⟨hfd, hbuf⟩ := sysWrite_returns hcur' hres
      exact ⟨(inRange_iff hrdi).mp hfd, (buffered_iff hrdi).mpr ((usable_entered ..).mp hbuf)⟩
  | read =>
      obtain ⟨hfd, hbuf⟩ := sysRead_returns hcur' hres
      exact ⟨(inRange_iff hrdi).mp hfd, (buffered_iff hrdi).mpr ((usable_entered ..).mp hbuf)⟩
  | stat => exact (sysStat_returns hcur' hres).imp id (inRange_iff hrdi).mp
  | close => trivial
  | exit => trivial
  | setuid => trivial
  | setgid => trivial
  | ioctl => trivial
  | getpid => trivial
  | uname => trivial

end SysInv

end ShadowOS.Sys
