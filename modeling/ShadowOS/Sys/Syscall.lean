import ShadowOS.Fs.Devfs
import ShadowOS.Proc.Spec

/-!
# System calls (`sys/syscall.c`, `sys/intr.c`)
-/

namespace ShadowOS.Sys

open Mm Proc Fs

variable {H : Type}

/-! ## The whole kernel -/

/-- The scheduler and the file system over one memory and one heap. -/
structure System (H : Type) extends Kernel H, Vfs

/-- Where the kernel does not go on: a failed assertion, an index outside of a descriptor table, or what stops one of its
parts. The last exit halts the machine. -/
inductive Stop where
  | assertion
  | index
  | halt
  | proc (why : Proc.Stop)
  | fs (why : Fs.Stop)
deriving DecidableEq, Repr

namespace System

def fs (s : System H) : Fs.State H := { toVfs := s.toVfs, mm := s.mm, heap := s.heap }

def setFs (s : System H) (fs : Fs.State H) : System H := { s with toVfs := fs.toVfs, mm := fs.mm, heap := fs.heap }

def setKernel (s : System H) (k : Kernel H) : System H := { s with toKernel := k }

def setPcb (s : System H) (proc : U64) (pcb : Pcb) : System H := { s with pcbs := Function.update s.pcbs proc pcb }

/-- The control block of the process that runs, or null. -/
def current (s : System H) : U64 := schedulerGetCurrent s.toKernel

/-! ## User memory -/

/-- The physical address of a user's byte. The kernel runs on the pagemap of the process. -/
def userPhys (k : Mm.State) (v : U64) : U64 := virtToPhys k (k.higherHalf k.cr3) v + (v &&& (pageSize - 1))

def userMem (s : System H) : Mem := fun v => s.mm.mem (userPhys s.mm v)

/-- A null string is `none`. -/
def userString (s : System H) (p : U64) : Option CString := if p = 0 then none else some (readString s.userMem (2 ^ 64) p)

def userBytes (s : System H) (p : U64) (i : Nat) : U8 := s.userMem (p + BitVec.ofNat 64 i)

end System

/-- Bytes are written to user memory. -/
def putUser : Mm.State → U64 → List U8 → Mm.State
  | k, _, [] => k
  | k, p, b :: bs => putUser { k with mem := Function.update k.mem (System.userPhys k p) b } (p + 1) bs

/-- The bytes of a number, the lowest first. -/
def bytesOf (n v : Nat) : List U8 := (List.range n).map fun i => BitVec.ofNat 8 (v / 256 ^ i)

/-- The fields of a `stat_t`, in the order in which they lie in memory. -/
def statBytes (node : Vnode) : List U8 :=
  bytesOf 8 node.size.toNat ++ bytesOf 4 node.flags.toNat ++ bytesOf 4 node.type.toNat ++ bytesOf 4 node.uid.toNat ++
    bytesOf 4 node.gid.toNat ++ bytesOf 4 node.mode.toNat

/-! ## Errors (`util/errno.h`) -/

def enoent : U32 := 1
def ebadf : U32 := 2
def efault : U32 := 3
def einval : U32 := 4
def ebadpid : U32 := 5
def enotimpl : U32 := 6
def eacces : U32 := 7
def enotty : U32 := 8
def esrch : U32 := 9

/-! ## Files -/

def oCreate : U64 := 1

def liftFs {α : Type} (x : Except Fs.Stop α) : Except Stop α := x.mapError .fs

def liftProc {α : Type} (x : Except Proc.Stop α) : Except Stop α := x.mapError .proc

/-- The vnode that `open` finds or creates; null when there is none. -/
def openVnode (A : Allocator H) (s : System H) (path : Option CString) (flags : U64) (kind : U8) :
    Except Stop (U64 × Fs.State H) :=
  let mount := (s.nodes (s.mounts s.rootMount).root).mount
  let node := vfsLazyLookup s.toVfs mount path
  if flags &&& oCreate ≠ 0 ∧ node = 0 then
    match path with
    -- the name of the file is looked for at the null pointer
    | none => .error (.fs .null)
    | some p => liftFs (vfsCreateVnode A s.fs (vfsLazyLookupLast s.toVfs mount path) (filenameFromPath p) (kind.setWidth 32))
  else .ok (node, s.fs)

def accessVnode (fs : Fs.State H) (node : U64) : Fs.State H :=
  let (accessTime, fs) := fs.getCurrentUnixTime
  fs.setNode node { fs.nodes node with accessTime := accessTime }

def sysOpen (A : Allocator H) (s : System H) (path : Option CString) (flags : U64) (kind : U8) :
    Except Stop (U32 × System H) :=
  if s.current = 0 then .ok (-esrch, s)
  else do
    let (node, fs) ← openVnode A s path flags kind
    if node = 0 then .ok (-enoent, s.setFs fs)
    else
      let s := s.setFs (accessVnode fs node)
      let (fd, k) ← liftProc (schedulerProcAddVnode s.toKernel (s.pcbs s.current).pid node)
      .ok (fd, s.setKernel k)

def sysClose (s : System H) (fd : U32) : Except Stop (U32 × System H) :=
  if s.current = 0 then .ok (-esrch, s)
  else
    let (status, k) := schedulerProcRemoveVnode s.toKernel (s.pcbs s.current).pid fd
    let s := s.setKernel k
    .ok (if status = -1 then -ebadf else if status = -2 then -ebadpid else 0, s)

/-- The entry of a descriptor table. C gives no meaning to an index outside of it: the kernel goes on with the word that
lies there. -/
def fdEntry (pcb : Pcb) (fd : Int) : Except Stop U64 :=
  if 0 ≤ fd ∧ fd < procMaxFds then .ok (pcb.fdTable fd.toNat) else .error .index

/-- What the calls that use a descriptor start with. -/
def withVnode (s : System H) (fd : U32) (call : Pcb → U64 → Except Stop (U32 × System H)) : Except Stop (U32 × System H) :=
  if s.current = 0 then .ok (-esrch, s)
  else do
    let pcb := s.pcbs s.current
    let node ← fdEntry pcb fd.toInt
    if node = 0 then .ok (-ebadf, s) else call pcb node

/-- What reads and writes check before they go to the file. -/
def withBuffer (s : System H) (pcb : Pcb) (node action buff size : U64) (call : Except Stop (U32 × System H)) :
    Except Stop (U32 × System H) :=
  if !vfsAmIAllowed (s.nodes node) pcb.uid pcb.gid action then .ok (-eacces, s)
  else if buff = 0 ∨ size = 0 then .error .assertion
  else call

def sysWrite (A : Allocator H) (s : System H) (fd : U32) (buff size : U64) : Except Stop (U32 × System H) :=
  withVnode s fd fun pcb node => withBuffer s pcb node 2 buff size do
    let (ret, fs) ← liftFs (vfsWrite A s.fs node (some (s.userBytes buff)) size 0)
    .ok (if ret = -1 then -enotimpl else ret, s.setFs fs)

def sysRead (s : System H) (fd : U32) (buff size : U64) : Except Stop (U32 × System H) :=
  withVnode s fd fun pcb node => withBuffer s pcb node 1 buff size do
    let (ret, bytes, fs) ← liftFs (vfsRead s.fs node buff size 0)
    .ok (if ret = -1 then -enotimpl else ret, s.setFs { fs with mm := putUser fs.mm buff bytes })

def sysStat (s : System H) (fd : U32) (stat : U64) : Except Stop (U32 × System H) :=
  if s.current ≠ 0 ∧ stat = 0 then .ok (-efault, s)
  else withVnode s fd fun _ node => .ok (0, { s with mm := putUser s.mm stat (statBytes (s.nodes node)) })

/-- Neither of the tables of operations has an `ioctl`. -/
def sysIoctl (s : System H) (fd : U32) : Except Stop (U32 × System H) :=
  withVnode s fd fun _ node =>
    match (s.nodes node).ops with
    | none => .error (.fs .null)
    | some _ => .ok (-enotty, s)

/-! ## Processes -/

def sysExit (A : Allocator H) (s : System H) : Except Stop (U32 × System H) :=
  if s.current = 0 then .ok (-esrch, s)
  else
    let k := schedulerExit A s.toKernel
    if k.count = 0 then .error .halt else .ok (0, s.setKernel k)

def sysSetuid (s : System H) (uid : U32) : U32 × System H :=
  if s.current = 0 then (-esrch, s)
  else (0, s.setPcb s.current { s.pcbs s.current with uid := uid.setWidth 64 })

def sysSetgid (s : System H) (gid : U32) : U32 × System H :=
  if s.current = 0 then (-esrch, s)
  else (0, s.setPcb s.current { s.pcbs s.current with gid := gid.setWidth 64 })

def sysGetpid (s : System H) : U32 := if s.current = 0 then -esrch else (s.pcbs s.current).pid.setWidth 32

def sysUname : U32 := -enotimpl

/-! ## The handler -/

inductive Syscall where
  | exit
  | open
  | close
  | write
  | read
  | stat
  | setuid
  | setgid
  | ioctl
  | getpid
  | uname
deriving DecidableEq, Repr

def syscallTable : List Syscall :=
  [.exit, .open, .close, .write, .read, .stat, .setuid, .setgid, .ioctl, .getpid, .uname]

/-- The registers that carry a call: its number and its arguments. -/
structure Registers where
  rax : U64
  rdi : U64
  rsi : U64
  rdx : U64
deriving DecidableEq, Repr

def Registers.number (r : Registers) : Option Syscall := syscallTable[r.rax.toNat]?

/-- An argument is cut to the width of the parameter it is for. -/
def Syscall.call (A : Allocator H) (s : System H) (r : Registers) : Syscall → Except Stop (U32 × System H)
  | .exit => sysExit A s
  | .open => sysOpen A s (s.userString r.rdi) r.rsi (r.rdx.setWidth 8)
  | .close => sysClose s (r.rdi.setWidth 32)
  | .write => sysWrite A s (r.rdi.setWidth 32) r.rsi r.rdx
  | .read => sysRead s (r.rdi.setWidth 32) r.rsi r.rdx
  | .stat => sysStat s (r.rdi.setWidth 32) r.rsi
  | .setuid => .ok (sysSetuid s (r.rdi.setWidth 32))
  | .setgid => .ok (sysSetgid s (r.rdi.setWidth 32))
  | .ioctl => sysIoctl s (r.rdi.setWidth 32)
  | .getpid => .ok (sysGetpid s, s)
  | .uname => .ok (sysUname, s)

def setInSyscall (s : System H) (proc : U64) (b : Bool) : System H := s.setPcb proc { s.pcbs proc with inSyscall := b }

/-- What the handler does after the call: an error is kept in the control block, and the message about a missing `ioctl`
reads the descriptor table at the whole register. -/
def afterCall (s : System H) (r : Registers) (proc : U64) (status : U32) : Except Stop (System H) :=
  if proc = 0 then .ok s
  else if status.toInt < 0 then do
    let s := s.setPcb proc { s.pcbs proc with errno := -status }
    if -status = enotty then do
      let _ ← fdEntry (s.pcbs proc) r.rdi.toNat
      .ok (setInSyscall s proc false)
    else .ok (setInSyscall s proc false)
  else .ok (setInSyscall s proc false)

def syscallHandler (A : Allocator H) (s : System H) (r : Registers) : Except Stop (U64 × System H) := do
  let proc := s.current
  let s := if proc = 0 then s else setInSyscall s proc true
  let (status, s) ← match r.number with
    | some call => call.call A s r
    | none => .ok (-einval, s)
  let s ← afterCall s r proc status
  .ok (status.signExtend 64, s)

/-- The registers of a call in the frame of the interrupt. -/
def frameRegisters (ctx : RegisterCtx) : Registers where
  rax := ctx.others 20
  rdi := ctx.others 15
  rsi := ctx.others 14
  rdx := ctx.others 17

/-- The handler writes nothing to the frame but `rax`. -/
def syscallFrame (A : Allocator H) (s : System H) (ctx : RegisterCtx) : Except Stop (RegisterCtx × System H) := do
  let (rax, s) ← syscallHandler A s (frameRegisters ctx)
  .ok ({ ctx with others := Function.update ctx.others 20 rax }, s)

end ShadowOS.Sys
