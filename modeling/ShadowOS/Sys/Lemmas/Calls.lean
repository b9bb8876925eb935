import ShadowOS.Sys.Lemmas.Invariant

/-!
# System calls keep the invariant
-/

namespace ShadowOS.Sys

open Mm Proc Fs

variable {H : Type} {A : Allocator H} {inUse : H → Set U64} {role role' : U64 → Option Role} {T T' : Set U64}
  {live : List U64} {s s' : System H} {status fd : U32} {path : Option CString} {flags : U64} {kind : U8}

/-! ## Open -/

theorem sysOpen_null {fs : Fs.State H} (hcur : s.current ≠ 0) (hres : openVnode A s path flags kind = .ok (0, fs)) :
    sysOpen A s path flags kind = .ok (-enoent, s.setFs fs) := by
  rw [sysOpen, if_neg hcur, hres]
  rfl

theorem sysOpen_vnode {node : U64} {fs : Fs.State H} {k : Kernel H} (hcur : s.current ≠ 0)
    (hres : openVnode A s path flags kind = .ok (node, fs)) (h0 : node ≠ 0)
    (hadd : schedulerProcAddVnode (s.setFs (accessVnode fs node)).toKernel (s.pcbs s.current).pid node = .ok (fd, k)) :
    sysOpen A s path flags kind = .ok (fd, (s.setFs (accessVnode fs node)).setKernel k) := by
  have hcur' : ((s.setFs (accessVnode fs node)).pcbs (s.setFs (accessVnode fs node)).current).pid =
      (s.pcbs s.current).pid := rfl
  simp only [sysOpen, if_neg hcur, hres, bind, Except.bind, if_neg h0, hcur', hadd]
  rfl

namespace SysInv

/-- The path of a file that is to be created starts at the root. -/
def CreatesAtRoot (path : Option CString) (flags : U64) : Prop :=
  flags &&& oCreate = 0 ∨ ∃ p, path = some p ∧ p.head? = some slash

theorem keepsPcbs_createRole {n d : U64} {new : Vnode} {self : U64} {fs : Fs.State H} (h : FsInv inUse role T s.fs)
    (hs : Created inUse s.fs fs self n d new) : KeepsPcbs role (FsInv.createRole role n d) := by
  intro p _ hp
  have hpu : p ∈ inUse s.heap := h.used p (by rw [hp]; simp)
  have hpd : p ≠ d := fun hc => hs.data.2.1 (hc ▸ hpu)
  have hpn : p ≠ n := fun hc => hs.vnode.2 (hc ▸ hpu)
  rw [FsInv.createRole, Function.update_of_ne hpd, Function.update_of_ne hpn, hp]

theorem openVnode (h : SysInv inUse role T live s) (hA : AllocatorSpec A inUse) (hpath : CreatesAtRoot path flags)
    (kind : U8) : ∃ node fs role' T', openVnode A s path flags kind = .ok (node, fs) ∧ FsInv inUse role' T' fs ∧
      T ⊆ T' ∧ KeepsPcbs role role' ∧ (node = 0 ∨ node ∈ T') := by
  have hmount : (s.nodes (s.mounts s.rootMount).root).mount = s.rootMount := h.fs.mount
  simp only [Sys.openVnode, hmount]
  split
  · rename_i hcreate
    obtain ⟨p, rfl, habs⟩ := hpath.resolve_left hcreate.1
    have hlast : vfsLazyLookupLast s.toVfs s.rootMount (some p) ∈ T := h.fs.last_mem habs
    obtain ⟨n, fs, hres, hcases⟩ := vfsCreateVnode_cases (filenameFromPath p) (kind.setWidth 32) hA
      (h.fs.ne_zero hlast) (h.fs.mem_inUse hlast) (h.fs.unlocked _ hlast) (h.fs.dirs _ hlast)
    dsimp only
    rw [hres]
    rcases hcases with ⟨rfl, hsame, _⟩ | ⟨d, new, hcreated, _⟩
    · exact ⟨0, fs, role, T, rfl, h.fs.untouched hsame, subset_rfl, fun _ _ hp => hp, .inl rfl⟩
    · exact ⟨n, fs, _, _, rfl, h.fs.created hlast hcreated, Set.subset_insert n T, keepsPcbs_createRole h.fs hcreated,
        .inr (Set.mem_insert n T)⟩
  · exact ⟨_, _, role, T, rfl, h.fs, subset_rfl, fun _ _ hp => hp, h.fs.lookup_mem path⟩

/-- A new descriptor of a process. -/
theorem addVnode {pid node : U64} {r : U32} {k : Kernel H} (h : SysInv inUse role T live s) (hnode : node ∈ T)
    (hres : schedulerProcAddVnode s.toKernel pid node = .ok (r, k)) : SysInv inUse role T live (s.setKernel k) := by
  rcases schedulerProcAddVnode_cases hres with ⟨_, rfl⟩ | ⟨_, pcb, hsame, hfew, htable, hcount, _, rfl⟩
  · exact h
  · refine h.update s.mm s.locked (fun hp => ⟨?_, ?_, hp.fds.add hfew hnode htable hcount⟩) h.currentPid
    · rw [hsame.pid]
      exact hp.pid
    · rw [hsame.state]
      exact hp.state

theorem sysOpen (h : SysInv inUse role T live s) (hA : AllocatorSpec A inUse) (hpath : CreatesAtRoot path flags)
    (kind : U8) : ∃ fd s' role' T', sysOpen A s path flags kind = .ok (fd, s') ∧ SysInv inUse role' T' live s' := by
  by_cases hcur : s.current = 0
  · exact ⟨_, _, role, T, by rw [Sys.sysOpen, if_pos hcur], h⟩
  · obtain ⟨node, fs, role', T', hres, hfs, hT, hrole, hnode⟩ := h.openVnode hA hpath kind
    by_cases h0 : node = 0
    · subst h0
      exact ⟨_, _, role', T', sysOpen_null hcur hres, h.setFs hfs hT hrole⟩
    · obtain ⟨fd, k, hadd⟩ := schedulerProcAddVnode_ok (s.setFs (accessVnode fs node)).toKernel (s.pcbs s.current).pid h0
      have haccess := h.setFs (hfs.accessed node (fs.clock fs.reads)) hT hrole
      exact ⟨fd, _, role', T', sysOpen_vnode hcur hres h0 hadd, haccess.addVnode (hnode.resolve_left h0) hadd⟩

/-- An `open` that returns was not asked to create a file off the root. -/
theorem createsAtRoot (h : SysInv inUse role T live s) (hcur : s.current ≠ 0)
    (hres : Sys.sysOpen A s path flags kind = .ok (fd, s')) : CreatesAtRoot path flags := by
  by_contra hc
  rw [CreatesAtRoot, not_or] at hc
  have hmount : (s.nodes (s.mounts s.rootMount).root).mount = s.rootMount := h.fs.mount
  have herror : Sys.openVnode A s path flags kind = .error (.fs .null) := by
    cases path with
    | none =>
        have hnone : vfsLazyLookup s.toVfs s.rootMount none = 0 := rfl
        simp only [Sys.openVnode, hmount, hnone, ne_eq, hc.1, not_false_eq_true, and_self, ↓reduceIte]
    | some p =>
        have habs : p.head? ≠ some slash := fun habs => hc.2 ⟨p, rfl, habs⟩
        have hnone : vfsLazyLookup s.toVfs s.rootMount (some p) = 0 := by
          have hfuel : maxCells = (2 ^ 64 - 1) + 1 := rfl
          rw [vfsLazyLookup, hfuel, lazyLookupFrom, if_pos (.inr habs)]
        have hlast : vfsLazyLookupLast s.toVfs s.rootMount (some p) = 0 := by
          rw [vfsLazyLookupLast, if_pos (.inr habs)]
        simp only [Sys.openVnode, hmount, hnone, hlast, ne_eq, hc.1, not_false_eq_true, and_self, ↓reduceIte]
        rfl
  rw [Sys.sysOpen, if_neg hcur, herror] at hres
  cases hres

/-! ## Close -/

theorem removeVnode {pid : U64} {k : Kernel H} (h : SysInv inUse role T live s)
    (hres : schedulerProcRemoveVnode s.toKernel pid fd = (status, k)) : SysInv inUse role T live (s.setKernel k) := by
  rcases schedulerProcRemoveVnode_cases hres with
    ⟨_, rfl⟩ | ⟨_, _, hlt, hne, pcb, hsame, htable, hcount, rfl⟩
  · exact h
  · refine h.update s.mm s.locked (fun hp => ⟨?_, ?_, hp.fds.remove ?_ htable hcount⟩) h.currentPid
    · rw [hsame.pid]
      exact hp.pid
    · rw [hsame.state]
      exact hp.state
    · exact (hp.fds.ne_zero_iff h.fs.tree.nonnull hlt).mp hne

theorem sysClose (h : SysInv inUse role T live s) (fd : U32) :
    ∃ status s', sysClose s fd = .ok (status, s') ∧ SysInv inUse role T live s' := by
  by_cases hcur : s.current = 0
  · exact ⟨_, _, by rw [Sys.sysClose, if_pos hcur], h⟩
  · rcases hres : schedulerProcRemoveVnode s.toKernel (s.pcbs s.current).pid fd with ⟨r, k⟩
    rw [Sys.sysClose, if_neg hcur, hres]
    exact ⟨_, _, rfl, h.removeVnode hres⟩

end SysInv

/-! ## Calls with a descriptor -/

/-- The descriptor is an index of the table. -/
def InRange (fd : U32) : Prop := 0 ≤ fd.toInt ∧ fd.toInt < procMaxFds

instance (fd : U32) : Decidable (InRange fd) := inferInstanceAs (Decidable (_ ∧ _))

section Descriptor

variable {call : Pcb → U64 → Except Stop (U32 × System H)}

theorem withVnode_index (hcur : s.current ≠ 0) (hfd : ¬ InRange fd) : withVnode s fd call = .error .index := by
  have hentry : fdEntry (s.pcbs s.current) fd.toInt = .error .index := if_neg hfd
  simp only [withVnode, if_neg hcur, hentry]
  rfl

theorem withVnode_eq (hcur : s.current ≠ 0) (hfd : InRange fd) : withVnode s fd call =
    if vnodeOf s fd = 0 then .ok (-ebadf, s) else call (s.pcbs s.current) (vnodeOf s fd) := by
  have hentry : fdEntry (s.pcbs s.current) fd.toInt = .ok (vnodeOf s fd) := by
    rw [fdEntry, if_pos (show 0 ≤ fd.toInt ∧ fd.toInt < procMaxFds from hfd), toInt_eq_toNat hfd.1, Int.toNat_natCast,
      vnodeOf]
  simp only [withVnode, if_neg hcur, hentry]
  rfl

/-- What a call with a buffer needs in order to return. -/
def Usable (s : System H) (fd : U32) (action buff size : U64) : Prop :=
  vnodeOf s fd = 0 ∨ vfsAmIAllowed (s.nodes (vnodeOf s fd)) (s.pcbs s.current).uid (s.pcbs s.current).gid action = false ∨
    buff ≠ 0 ∧ size ≠ 0

theorem withBuffer_eq {pcb : Pcb} {node action buff size : U64} {call : Except Stop (U32 × System H)} :
    withBuffer s pcb node action buff size call =
      if vfsAmIAllowed (s.nodes node) pcb.uid pcb.gid action = false then .ok (-eacces, s)
      else if buff = 0 ∨ size = 0 then .error .assertion else call := by
  simp only [withBuffer, Bool.not_eq_true']

theorem inRange_of_ok (hcur : s.current ≠ 0) (hres : withVnode s fd call = .ok (status, s')) : InRange fd := by
  by_contra hfd
  rw [withVnode_index hcur hfd] at hres
  cases hres

/-- A read or a write that returns has a buffer, or fails before it needs one. -/
theorem usable_of_ok {action buff size : U64} (hcur : s.current ≠ 0)
    (hres : withVnode s fd (fun pcb node => withBuffer s pcb node action buff size (call pcb node)) = .ok (status, s')) :
    Usable s fd action buff size := by
  rw [withVnode_eq hcur (inRange_of_ok hcur hres), withBuffer_eq] at hres
  split at hres
  · exact .inl ‹_›
  · split at hres
    · exact .inr (.inl ‹_›)
    · split at hres
      · cases hres
      · exact .inr (.inr (not_or.mp ‹_›))

theorem sysWrite_returns {buff size : U64} (hcur : s.current ≠ 0) (hres : sysWrite A s fd buff size = .ok (status, s')) :
    InRange fd ∧ Usable s fd 2 buff size := by
  rw [sysWrite] at hres
  exact ⟨inRange_of_ok hcur hres, usable_of_ok hcur hres⟩

theorem sysRead_returns {buff size : U64} (hcur : s.current ≠ 0) (hres : sysRead s fd buff size = .ok (status, s')) :
    InRange fd ∧ Usable s fd 1 buff size := by
  rw [sysRead] at hres
  exact ⟨inRange_of_ok hcur hres, usable_of_ok hcur hres⟩

theorem sysStat_returns {buf : U64} (hcur : s.current ≠ 0) (hres : sysStat s fd buf = .ok (status, s')) :
    buf = 0 ∨ InRange fd := by
  by_cases h0 : buf = 0
  · exact .inl h0
  · rw [sysStat, if_neg (fun hc => h0 hc.2)] at hres
    exact .inr (inRange_of_ok hcur hres)

end Descriptor

namespace SysInv

theorem vnodeOf_mem (h : SysInv inUse role T live s) (hcur : s.current ≠ 0) (hfd : InRange fd) (h0 : vnodeOf s fd ≠ 0) :
    vnodeOf s fd ∈ T := by
  have hfds := (h.current hcur).2.fds
  have hlt : fd.toNat < procMaxFds := by
    have hlt := hfd.2
    rw [toInt_eq_toNat hfd.1] at hlt
    exact Int.ofNat_lt.mp hlt
  exact hfds.opened _ ((hfds.ne_zero_iff h.fs.tree.nonnull hlt).mp h0)

theorem sysWrite {buff size : U64} (h : SysInv inUse role T live s) (hA : AllocatorSpec A inUse) (hcur : s.current ≠ 0)
    (hfd : InRange fd) (hbuf : Usable s fd 2 buff size) :
    ∃ status s' role', sysWrite A s fd buff size = .ok (status, s') ∧ SysInv inUse role' T live s' := by
  rw [Sys.sysWrite, withVnode_eq hcur hfd]
  split
  · exact ⟨_, _, role, rfl, h⟩
  · rename_i h0
    rw [withBuffer_eq]
    split
    · exact ⟨_, _, role, rfl, h⟩
    · rename_i hallowed
      have hbuf' := (hbuf.resolve_left h0).resolve_left hallowed
      rw [if_neg (not_or.mpr hbuf')]
      obtain ⟨ret, fs, role', hres, hfs, hrole⟩ :=
        h.fs.vfsWrite hA (h.vnodeOf_mem hcur hfd h0) (s.userBytes buff) size 0
      rw [hres]
      exact ⟨_, _, role', rfl, h.setFs hfs subset_rfl hrole⟩

theorem sysRead {buff size : U64} (h : SysInv inUse role T live s) (hcur : s.current ≠ 0) (hfd : InRange fd)
    (hbuf : Usable s fd 1 buff size) :
    ∃ status s', sysRead s fd buff size = .ok (status, s') ∧ SysInv inUse role T live s' := by
  rw [Sys.sysRead, withVnode_eq hcur hfd]
  split
  · exact ⟨_, _, rfl, h⟩
  · rename_i h0
    rw [withBuffer_eq]
    split
    · exact ⟨_, _, rfl, h⟩
    · rename_i hallowed
      have hbuf' := (hbuf.resolve_left h0).resolve_left hallowed
      rw [if_neg (not_or.mpr hbuf')]
      obtain ⟨ret, bytes, scancode, hres⟩ := h.fs.vfsRead (h.vnodeOf_mem hcur hfd h0) buff size 0
      rw [hres]
      refine ⟨_, _, rfl, h.setFs (h.fs.congr (fun _ _ => .refl _) (fun _ _ _ _ => rfl) rfl rfl h.fs.used) subset_rfl ?_⟩
      exact fun _ _ hp => hp

theorem sysStat {buf : U64} (h : SysInv inUse role T live s) (hcur : s.current ≠ 0) (hbuf : buf = 0 ∨ InRange fd) :
    ∃ status s', sysStat s fd buf = .ok (status, s') ∧ SysInv inUse role T live s' := by
  rw [Sys.sysStat]
  split
  · exact ⟨_, _, rfl, h⟩
  · rename_i h0
    rw [withVnode_eq hcur (hbuf.resolve_left fun hc => h0 ⟨hcur, hc⟩)]
    split
    · exact ⟨_, _, rfl, h⟩
    · exact ⟨_, _, rfl, h.setMm _ s.locked⟩

end SysInv

/-! ## The handler -/

theorem withVnode_idle {call : Pcb → U64 → Except Stop (U32 × System H)} (hcur : s.current = 0) :
    withVnode s fd call = .ok (-esrch, s) := if_pos hcur

/-- Without a process a call does nothing. -/
theorem call_idle {c : Syscall} {r : Registers} (hcur : s.current = 0) (hres : c.call A s r = .ok (status, s')) :
    s' = s := by
  have hstat : ¬ (s.current ≠ 0 ∧ r.rsi = 0) := fun hc => hc.1 hcur
  cases c with
  | exit =>
      simp only [Syscall.call, sysExit, if_pos hcur] at hres
      cases hres
      rfl
  | «open» =>
      simp only [Syscall.call, sysOpen, if_pos hcur] at hres
      cases hres
      rfl
  | close =>
      simp only [Syscall.call, sysClose, if_pos hcur] at hres
      cases hres
      rfl
  | write =>
      simp only [Syscall.call, sysWrite, withVnode_idle hcur] at hres
      cases hres
      rfl
  | read =>
      simp only [Syscall.call, sysRead, withVnode_idle hcur] at hres
      cases hres
      rfl
  | stat =>
      simp only [Syscall.call, sysStat, if_neg hstat, withVnode_idle hcur] at hres
      cases hres
      rfl
  | setuid =>
      simp only [Syscall.call, sysSetuid, if_pos hcur] at hres
      cases hres
      rfl
  | setgid =>
      simp only [Syscall.call, sysSetgid, if_pos hcur] at hres
      cases hres
      rfl
  | ioctl =>
      simp only [Syscall.call, sysIoctl, withVnode_idle hcur] at hres
      cases hres
      rfl
  | getpid =>
      cases hres
      rfl
  | uname =>
      cases hres
      rfl

/-- The state in which the handler makes the call. -/
def entered (s : System H) : System H := if s.current = 0 then s else setInSyscall s s.current true

theorem entered_current (s : System H) : (entered s).current = s.current := by
  rw [entered]
  split
  · rfl
  · rfl

def dispatch (A : Allocator H) (s : System H) (r : Registers) : Except Stop (U32 × System H) :=
  match r.number with
  | some call => call.call A s r
  | none => .ok (-einval, s)

theorem syscallHandler_eq (A : Allocator H) (s : System H) (r : Registers) : syscallHandler A s r =
    (dispatch A (entered s) r).bind fun (status, s₁) => (afterCall s₁ r s.current status).bind fun s₂ =>
      .ok (status.signExtend 64, s₂) := by
  rw [syscallHandler, dispatch, entered]
  cases r.number <;> rfl

theorem syscallHandler_cases {r : Registers} {ret : U64} (hres : syscallHandler A s r = .ok (ret, s')) :
    ∃ status s₁, dispatch A (entered s) r = .ok (status, s₁) ∧ afterCall s₁ r s.current status = .ok s' := by
  rw [syscallHandler_eq] at hres
  cases hcall : dispatch A (entered s) r with
  | error e =>
      rw [hcall] at hres
      cases hres
  | ok res =>
      obtain ⟨status, s₁⟩ := res
      rw [hcall] at hres
      refine ⟨status, s₁, rfl, ?_⟩
      cases hafter : afterCall s₁ r s.current status with
      | error e =>
          simp only [Except.bind, hafter] at hres
          cases hres
      | ok s₂ =>
          simp only [Except.bind, hafter] at hres
          cases hres
          rfl

/-- The message about a missing `ioctl` is the only thing after a call that can go wrong. -/
theorem afterCall_ok {r : Registers} {proc : U64} (s : System H) (h : -status ≠ enotty ∨ r.rdi.toNat < procMaxFds) :
    ∃ s', afterCall s r proc status = .ok s' := by
  simp only [afterCall]
  split
  · exact ⟨_, rfl⟩
  · split
    · split
      · rename_i htty
        have hin : (0 : Int) ≤ r.rdi.toNat ∧ (r.rdi.toNat : Int) < procMaxFds :=
          ⟨Int.natCast_nonneg _, Int.ofNat_lt.mpr (h.resolve_left (not_not.mpr htty))⟩
        rw [fdEntry, if_pos hin]
        exact ⟨_, rfl⟩
      · exact ⟨_, rfl⟩
    · exact ⟨_, rfl⟩

namespace SysInv

theorem setInSyscall (h : SysInv inUse role T live s) (proc : U64) (b : Bool) :
    SysInv inUse role T live (setInSyscall s proc b) := h.setPcb fun hp => ⟨hp.pid, hp.state, hp.fds.congr rfl rfl⟩

theorem afterCall {r : Registers} {proc : U64} (h : SysInv inUse role T live s)
    (hres : afterCall s r proc status = .ok s') : SysInv inUse role T live s' := by
  have herrno : SysInv inUse role T live (s.setPcb proc { s.pcbs proc with errno := -status }) :=
    h.setPcb fun hp => ⟨hp.pid, hp.state, hp.fds.congr rfl rfl⟩
  simp only [Sys.afterCall] at hres
  split at hres
  · cases hres
    exact h
  · split at hres
    · split at hres
      · rw [fdEntry] at hres
        split at hres
        · cases hres
          exact herrno.setInSyscall proc false
        · cases hres
      · cases hres
        exact herrno.setInSyscall proc false
    · cases hres
      exact h.setInSyscall proc false

/-- A call that returns keeps the invariant. -/
theorem call {c : Syscall} {r : Registers} (h : SysInv inUse role T live s) (hA : AllocatorSpec A inUse)
    (hcur : s.current ≠ 0) (hres : c.call A s r = .ok (status, s')) :
    ∃ role' T' live', SysInv inUse role' T' live' s' ∧ ∀ p ∈ live, (c = .exit → p ≠ s.current) → p ∈ live' := by
  cases c with
  | exit =>
      simp only [Syscall.call, sysExit, if_neg hcur] at hres
      split at hres
      · cases hres
      · obtain ⟨role', live', h', hlive⟩ := h.exit hA
        cases hres
        exact ⟨role', T, live', h', fun p hp hpc => hlive p hp (hpc rfl)⟩
  | «open» =>
      obtain ⟨_, _, role', T', hok, h'⟩ := h.sysOpen hA (h.createsAtRoot hcur hres) (r.rdx.setWidth 8)
      cases hok.symm.trans hres
      exact ⟨role', T', live, h', fun _ hp _ => hp⟩
  | close =>
      obtain ⟨_, _, hok, h'⟩ := h.sysClose (r.rdi.setWidth 32)
      cases hok.symm.trans hres
      exact ⟨role, T, live, h', fun _ hp _ => hp⟩
  | write =>
      obtain ⟨hfd, hbuf⟩ := sysWrite_returns hcur hres
      obtain ⟨_, _, role', hok, h'⟩ := h.sysWrite hA hcur hfd hbuf
      cases hok.symm.trans hres
      exact ⟨role', T, live, h', fun _ hp _ => hp⟩
  | read =>
      obtain ⟨hfd, hbuf⟩ := sysRead_returns hcur hres
      obtain ⟨_, _, hok, h'⟩ := h.sysRead hcur hfd hbuf
      cases hok.symm.trans hres
      exact ⟨role, T, live, h', fun _ hp _ => hp⟩
  | stat =>
      obtain ⟨_, _, hok, h'⟩ := h.sysStat hcur (sysStat_returns hcur hres)
      cases hok.symm.trans hres
      exact ⟨role, T, live, h', fun _ hp _ => hp⟩
  | setuid =>
      simp only [Syscall.call, sysSetuid, if_neg hcur] at hres
      cases hres
      exact ⟨role, T, live, h.setPcb fun hp => ⟨hp.pid, hp.state, hp.fds.congr rfl rfl⟩, fun _ hp _ => hp⟩
  | setgid =>
      simp only [Syscall.call, sysSetgid, if_neg hcur] at hres
      cases hres
      exact ⟨role, T, live, h.setPcb fun hp => ⟨hp.pid, hp.state, hp.fds.congr rfl rfl⟩, fun _ hp _ => hp⟩
  | ioctl =>
      simp only [Syscall.call, sysIoctl] at hres
      rw [withVnode_eq hcur (inRange_of_ok hcur hres)] at hres
      split at hres
      · cases hres
        exact ⟨role, T, live, h, fun _ hp _ => hp⟩
      · split at hres
        · cases hres
        · cases hres
          exact ⟨role, T, live, h, fun _ hp _ => hp⟩
  | getpid =>
      cases hres
      exact ⟨role, T, live, h, fun _ hp _ => hp⟩
  | uname =>
      cases hres
      exact ⟨role, T, live, h, fun _ hp _ => hp⟩

theorem enter (h : SysInv inUse role T live s) : SysInv inUse role T live (entered s) := by
  rw [entered]
  split
  · exact h
  · exact h.setInSyscall _ _

theorem syscallHandler {r : Registers} {ret : U64} (h : SysInv inUse role T live s) (hA : AllocatorSpec A inUse)
    (hres : syscallHandler A s r = .ok (ret, s')) : ∃ role' T' live', SysInv inUse role' T' live' s' ∧
      ∀ p ∈ live, (r.number = some .exit → p ≠ s.current) → p ∈ live' := by
  obtain ⟨status, s₁, hcall, hafter⟩ := syscallHandler_cases hres
  rw [dispatch] at hcall
  split at hcall
  · rename_i c hc
    by_cases hcur : (entered s).current = 0
    · rw [call_idle hcur hcall] at hafter
      exact ⟨role, T, live, h.enter.afterCall hafter, fun _ hp _ => hp⟩
    · obtain ⟨role', T', live', h', hlive⟩ := h.enter.call hA hcur hcall
      refine ⟨role', T', live', h'.afterCall hafter, fun p hp hpc => hlive p hp fun hx => ?_⟩
      rw [entered_current]
      exact hpc (by rw [hc, hx])
  · cases hcall
    exact ⟨role, T, live, h.enter.afterCall hafter, fun _ hp _ => hp⟩

/-! ## Runs -/

/-- Every step keeps the invariant, and the processes that do not exit. -/
theorem step {op : SysOp} (h : SysInv inUse role T live s) (hA : AllocatorSpec A inUse) (hfew : op.Few s)
    (hres : op.exec A s = some s') :
    ∃ role' T' live', SysInv inUse role' T' live' s' ∧ ∀ p ∈ live, ¬ op.ExitOf p s → p ∈ live' := by
  cases op with
  | spawn user entry pagemap =>
      simp only [SysOp.exec] at hres
      split at hres
      · cases hres
      · rename_i hspawn
        cases hres
        obtain ⟨role', live', h', hlive, _⟩ := h.spawn hA hfew hspawn
        exact ⟨role', T, live', h', fun p hp _ => hlive hp⟩
  | tick ctx =>
      simp only [SysOp.exec] at hres
      split at hres
      · cases hres
      · rename_i htick
        cases hres
        exact ⟨role, T, live, h.tick htick, fun _ hp _ => hp⟩
  | key scancode =>
      cases hres
      have hfs : FsInv inUse role T { s.fs with toVfs := kbdHandler s.toVfs scancode } :=
        h.fs.congr (fun _ _ => .refl _) (fun _ _ _ _ => rfl) rfl rfl h.fs.used
      exact ⟨role, T, live, h.setFs hfs subset_rfl fun _ _ hp => hp, fun _ hp _ => hp⟩
  | syscall r =>
      simp only [SysOp.exec] at hres
      split at hres
      · cases hres
      · rename_i hcall
        cases hres
        obtain ⟨role', T', live', h', hlive⟩ := h.syscallHandler hA hcall
        exact ⟨role', T', live', h', fun p hp hexit => hlive p hp fun hr hc => hexit ⟨hc.symm, hr⟩⟩

theorem boot (hboot : Booted inUse s) : ∃ role T live, SysInv inUse role T live s := by
  obtain ⟨role, T, hfs, hstdout, _⟩ := hboot.fs
  refine ⟨role, T, [], hfs, hstdout, hboot.procs, List.nodup_nil, ?_, by simp, fun i hi h0 => ?_, ?_, ?_⟩
  · rw [hboot.count]
    rfl
  · exact absurd (hboot.table i hi) h0
  · rw [hboot.count]
    exact Nat.zero_le _
  · rw [hboot.currentPid]
    decide

/-- Every state of a run from the start of the kernel. -/
theorem run {s₀ : System H} {ops : List SysOp} (hA : AllocatorSpec A inUse) (hboot : Booted inUse s₀)
    (hfew : AllSteps (SysOp.exec A) SysOp.Few s₀ ops) (hrun : run (SysOp.exec A) s₀ ops = some s) :
    ∃ role T live, SysInv inUse role T live s := by
  have hinv : AllStates (SysOp.exec A) (fun s => ∃ role T live, SysInv inUse role T live s) s₀ ops := by
    refine hfew.allStates (fun hinv hop hres => ?_) (boot hboot)
    obtain ⟨role, T, live, h⟩ := hinv
    obtain ⟨role', T', live', h', _⟩ := h.step hA hop hres
    exact ⟨role', T', live', h'⟩
  exact hinv.last hrun

end SysInv

end ShadowOS.Sys
