import ShadowOS.Base.Run
import ShadowOS.Fs.Init
import ShadowOS.Fs.Spec
import ShadowOS.Sys.Syscall

/-!
# What system calls should do
-/

namespace ShadowOS.Sys

open Mm Proc Fs

variable {H : Type}

/-! ## Runs of the kernel -/

inductive SysOp where
  | spawn (user : Bool) (entry pagemap : U64)
  | tick (ctx : RegisterCtx)
  | key (scancode : U8)
  | syscall (r : Registers)

namespace SysOp

/-- A run ends where the kernel stops. -/
def exec (A : Allocator H) (s : System H) : SysOp → Option (System H)
  | .spawn user entry pagemap =>
      match schedulerSpawn A s.toKernel user entry pagemap with
      | .error _ => none
      | .ok (_, k) => some (s.setKernel k)
  | .tick ctx =>
      match schedulerTick s.toKernel ctx with
      | .error _ => none
      | .ok (_, k) => some (s.setKernel k)
  | .key scancode => some { s with toVfs := kbdHandler s.toVfs scancode }
  | .syscall r =>
      match syscallHandler A s r with
      | .error _ => none
      | .ok (_, s') => some s'

/-- The process exits. -/
def ExitOf (proc : U64) (s : System H) : SysOp → Prop
  | .syscall r => s.current = proc ∧ r.number = some .exit
  | _ => False

instance (proc : U64) (s : System H) : ∀ op : SysOp, Decidable (op.ExitOf proc s)
  | .spawn _ _ _ => isFalse id
  | .tick _ => isFalse id
  | .key _ => isFalse id
  | .syscall _ => inferInstanceAs (Decidable (_ ∧ _))

/-- The process takes the user id `uid`. -/
def SetsUid (proc : U64) (uid : U32) (s : System H) : SysOp → Prop
  | .syscall r => s.current = proc ∧ r.number = some .setuid ∧ r.rdi.setWidth 32 = uid
  | _ => False

instance (proc : U64) (uid : U32) (s : System H) : ∀ op : SysOp, Decidable (op.SetsUid proc uid s)
  | .spawn _ _ _ => isFalse id
  | .tick _ => isFalse id
  | .key _ => isFalse id
  | .syscall _ => inferInstanceAs (Decidable (_ ∧ _ ∧ _))

/-- A run with a process in it ends when the process exits. -/
def execWith (A : Allocator H) (proc : U64) (s : System H) (op : SysOp) : Option (System H) :=
  if op.ExitOf proc s then none else op.exec A s

/-- The table has room for a process that is spawned. -/
def Few (s : System H) : SysOp → Prop
  | .spawn _ _ _ => s.count.toNat < procMaxProcs
  | _ => True

instance (s : System H) : ∀ op : SysOp, Decidable (op.Few s)
  | .spawn _ _ _ => inferInstanceAs (Decidable (_ < _))
  | .tick _ => isTrue trivial
  | .key _ => isTrue trivial
  | .syscall _ => isTrue trivial

end SysOp

/-- The kernel before the first process: the file system is set up, the table of processes is empty, and the standard
output is one of the vnodes. -/
structure Booted (inUse : H → Set U64) (s : System H) : Prop where
  fs : ∃ role T, FsInv inUse role T s.fs ∧ s.stdout ∈ T ∧ ∀ p, role p ≠ some .pcb
  procs : s.procs ≠ 0
  table : ∀ i < procMaxProcs, s.table i = 0
  count : s.count = 0
  currentPid : s.currentPid = 0

/-! ## The processor -/

/-- The kernel, the registers that it goes back to, and the process whose registers they are. -/
structure Cpu (H : Type) where
  sys : System H
  frame : RegisterCtx
  owner : U64

namespace Cpu

/-- The process at the current entry is ready after the first half of a tick, so its registers are copied to the frame. -/
def Loads (k : Kernel H) (ctx : RegisterCtx) : Prop :=
  let k := tickCurrent k ctx
  k.count ≠ 0 ∧ (k.pcbs (k.table k.currentPid.toNat)).state = .ready

instance (k : Kernel H) (ctx : RegisterCtx) : Decidable (Loads k ctx) := inferInstanceAs (Decidable (_ ∧ _))

/-- A tick interrupts the process that owns the frame, with the registers `ctx`. -/
def tick (c : Cpu H) (ctx : RegisterCtx) : Option (Cpu H) :=
  match schedulerTick c.sys.toKernel ctx with
  | .error _ => none
  | .ok (frame, k) => some {
      sys := c.sys.setKernel k
      frame := frame
      owner := if Loads c.sys.toKernel ctx then k.table k.currentPid.toNat else c.owner }

/-- The registers belong to a process that is in the table. -/
def Live (c : Cpu H) : Prop := ∃ i < procMaxProcs, c.sys.table i ≠ 0 ∧ c.sys.table i = c.owner

/-- After the system call in the frame of the processor, the registers belong to a process that is alive, and so they do
after every tick from there on. -/
def RunsLive (A : Allocator H) (c : Cpu H) : Prop :=
  ∀ frame s, syscallFrame A c.sys c.frame = .ok (frame, s) → ∀ ctxs, AllStates Cpu.tick Live ⟨s, frame, c.owner⟩ ctxs

end Cpu

/-! ## Descriptors -/

/-- A descriptor of the current process that is open. -/
def Opened (s : System H) (fd : U32) : Prop := 0 ≤ fd.toInt ∧ fd.toInt < (s.pcbs s.current).fdCount.toNat

instance (s : System H) (fd : U32) : Decidable (Opened s fd) := inferInstanceAs (Decidable (_ ∧ _))

/-- The vnode that a descriptor of the current process refers to. -/
def vnodeOf (s : System H) (fd : U32) : U64 := (s.pcbs s.current).fdTable fd.toNat

/-! ## Permissions -/

/-- The bits that let the group and the others read. -/
def sharedRead : U32 := vnodeModeRgrp ||| vnodeModeRoth

/-- A read that the process makes of the vnode `v` leaves memory as it is. -/
def SysOp.CopiesNothing (proc v : U64) (s : System H) : SysOp → Prop
  | .syscall r => s.current = proc → r.number = some .read → vnodeOf s (r.rdi.setWidth 32) = v →
      ∀ status s', sysRead (setInSyscall s proc true) (r.rdi.setWidth 32) r.rsi r.rdx = .ok (status, s') → s'.mm = s.mm
  | _ => True

/-! ## Open -/

/-- There is a descriptor left for the current process. -/
def HasRoom (s : System H) : Prop :=
  (s.pcbs s.current).pid < s.count ∧ (s.pcbs s.current).fdCount < BitVec.ofNat 64 procMaxFds

/-- The vnode that the path leads to now. -/
def found (s : System H) (path : CString) : U64 := vfsLazyLookup s.toVfs s.rootMount (some path)

/-- The directory that the way to the path ends in allows a new vnode. -/
def Allows (s : System H) (path : CString) : Prop :=
  CanCreate s.nodes (vfsLazyLookupLast s.toVfs s.rootMount (some path)) (filenameFromPath path)

/-- What is created is at the path afterwards; without the parents of the path nothing is created or opened. `T` are the
vnodes of the tree. -/
def CreatesAtPath (A : Allocator H) (s : System H) (T : Set U64) (path : CString) (kind : U8) : Prop :=
  ∃ fd s', sysOpen A s (some path) oCreate kind = .ok (fd, s') ∧
    (found s path = 0 → 0 ≤ fd.toInt → found s' path = vnodeOf s' fd) ∧
    (¬ ParentsExist s.nodes (s.mounts s.rootMount).root path →
      fd.toInt < 0 ∧ ∀ v ∈ T, SameVnode (s'.nodes v) (s.nodes v))

/-- When the three ways to walk a path agree. -/
def WalksAgree (s : System H) (path : CString) : Prop :=
  (ParentsExist s.nodes (s.mounts s.rootMount).root path → found s path ≠ 0 ∨ ¬ Allows s path ∨ ¬ HasRoom s ∨
    path.getLast? ≠ some slash ∧ ∀ c ∈ components path, c.length ≤ 255) ∧
  (¬ ParentsExist s.nodes (s.mounts s.rootMount).root path →
    (found s path = 0 → ¬ Allows s path) ∧ (found s path ≠ 0 → ¬ HasRoom s))

/-! ## Calls with a descriptor -/

inductive FdCall where
  | read (buff size : U64)
  | write (buff size : U64)
  | stat (buf : U64)
  | ioctl

namespace FdCall

def exec (A : Allocator H) (s : System H) (fd : U32) : FdCall → Except Stop (U32 × System H)
  | .read buff size => sysRead s fd buff size
  | .write buff size => sysWrite A s fd buff size
  | .stat buf => sysStat s fd buf
  | .ioctl => sysIoctl s fd

/-- The table of descriptors is not left, and a descriptor that is not open gives an error. -/
def Checked (A : Allocator H) (s : System H) (fd : U32) (call : FdCall) : Prop :=
  call.exec A s fd ≠ .error .index ∧ (¬ Opened s fd → ∃ s', call.exec A s fd = .ok (-ebadf, s'))

/-- The descriptor is an index of the table; without a buffer for the result of `stat` it has to be open. -/
def InTable (s : System H) (fd : U32) : FdCall → Prop
  | .stat buf => if buf = 0 then Opened s fd else 0 ≤ fd.toInt ∧ fd.toInt < procMaxFds
  | _ => 0 ≤ fd.toInt ∧ fd.toInt < procMaxFds

end FdCall

/-! ## Arguments -/

/-- The arguments with which a call on files returns. -/
def Harmless (s : System H) (r : Registers) : Syscall → Prop
  | .open => r.rsi &&& oCreate = 0 ∨ ∃ path, s.userString r.rdi = some path ∧ path.head? = some slash
  | .write => r.rdi.toNat < procMaxFds ∧ Buffered s r 2
  | .read => r.rdi.toNat < procMaxFds ∧ Buffered s r 1
  | .stat => r.rsi = 0 ∨ r.rdi.toNat < procMaxFds
  | _ => True
where
  /-- The descriptor is not open, the process may not use it, or there is a buffer. -/
  Buffered (s : System H) (r : Registers) (action : U64) : Prop :=
    let pcb := s.pcbs s.current
    let node := pcb.fdTable r.rdi.toNat
    node = 0 ∨ vfsAmIAllowed (s.nodes node) pcb.uid pcb.gid action = false ∨ r.rsi ≠ 0 ∧ r.rdx ≠ 0

/-! ## The file system from its start on -/

/-- The calls that add vnodes. An `open` comes with the processes that there are when it is made. -/
inductive TreeOp (H : Type) where
  | create (parent : U64) (name : CString) (type : U32)
  | open (k : Kernel (H × Bool)) (path : Option CString) (flags : U64) (kind : U8)
  | devfsInit
  | addDev (name : CString) (dev : Device)

namespace TreeOp

/-- A run ends where the kernel stops. A vnode can only be created below a vnode, and a device below the root of the
devices. -/
def call (A : Allocator (H × Bool)) (s : Fs.State (H × Bool)) : TreeOp H → Option (Fs.State (H × Bool))
  | .create parent name type =>
      if s.records parent = some .vnode then (vfsCreateVnode A s parent name type).toOption.map Prod.snd else none
  | .open k path flags kind =>
      (sysOpen A ⟨{ k with mm := s.mm, heap := s.heap }, s.toVfs⟩ path flags kind).toOption.map fun r => r.2.fs
  | .devfsInit => (Fs.devfsInit A s).toOption.bind id
  | .addDev name dev => if s.devfsRoot = 0 then none else (devfsAddDev A s name dev).toOption.map Prod.snd

/-- A step for which there was memory. -/
def exec (A : Allocator H) (s : Fs.State (H × Bool)) (op : TreeOp H) : Option (Fs.State (H × Bool)) :=
  (op.call A.watch s).filter (·.heap.2)

end TreeOp

/-- The start of the file system: `vfs_init`, and `ramfs_init` on the root mount, if there is memory for them. -/
def startTree (A : Allocator H) (s : Fs.State (H × Bool)) (archive : Mem) (last : U64) (type : U32) (data size : U64) :
    Option (Fs.State (H × Bool)) :=
  ((some (vfsInit A.watch s)).filter (·.heap.2)).bind fun s =>
    (ramfsInit A.watch ⟨s, archive, last⟩ s.rootMount type data size).toOption.filter (·.heap.2)

end ShadowOS.Sys
