import ShadowOS.Base.Chain
import ShadowOS.Lib.CString
import ShadowOS.Proc.Scheduler

/-!
# Vnodes and mounts (`dev/vfs.h`)

The records of the file system live on the kernel heap, and are given here as objects beside the bytes of physical
memory.
-/

namespace ShadowOS.Fs

/-! ## Records -/

def vnodeDir : U32 := 0x0001
def vnodeFile : U32 := 0x0002
def vnodeDev : U32 := 0x0003

def vnodeFlagMountpoint : U32 := 0x0001

def vnodeModeRusr : U32 := 0x0100
def vnodeModeWusr : U32 := 0x0080
def vnodeModeXusr : U32 := 0x0040
def vnodeModeRgrp : U32 := 0x0020
def vnodeModeWgrp : U32 := 0x0010
def vnodeModeXgrp : U32 := 0x0008
def vnodeModeRoth : U32 := 0x0004
def vnodeModeWoth : U32 := 0x0002
def vnodeModeXoth : U32 := 0x0001

/-- The tables of operations that the kernel has. -/
inductive VnodeOps where
  | ramfs
  | devfs
deriving DecidableEq, Repr

/-- A null name matches no string. -/
structure Vnode where
  parent : U64
  next : U64
  child : U64
  mount : U64
  type : U32
  name : Option CString
  size : U64
  data : U64
  uid : U32
  gid : U32
  mode : U32
  creationTime : U32
  accessTime : U32
  modifyTime : U32
  ops : Option VnodeOps
  flags : U32
  locked : Bool
deriving DecidableEq, Repr

def vnodeSize : U64 := 104

/-- A vnode of zeros. -/
def Vnode.zero : Vnode where
  parent := 0
  next := 0
  child := 0
  mount := 0
  type := 0
  name := none
  size := 0
  data := 0
  uid := 0
  gid := 0
  mode := 0
  creationTime := 0
  accessTime := 0
  modifyTime := 0
  ops := none
  flags := 0
  locked := false

namespace Vnode

def setLocked (node : Vnode) (locked : Bool) : Vnode := { node with locked := locked }
def setChild (node : Vnode) (child : U64) : Vnode := { node with child := child }
def setNext (node : Vnode) (next : U64) : Vnode := { node with next := next }

end Vnode

structure Mount where
  root : U64
  next : U64
  prev : U64
  mountpoint : CString
  /-- Where the strings of the mountpoint and of the type lie. -/
  mountpointAt : U64
  typeAt : U64
deriving DecidableEq, Repr

structure RamfsData where
  data : U64
  size : U64
deriving DecidableEq, Repr

def ramfsDataSize : U64 := 16

/-- A block of the heap that holds plain bytes; past its end `bytes` goes on with what follows it. -/
structure Block where
  size : Nat
  bytes : Nat → U8

/-- The devices, which a `dev_t` names by their functions. -/
inductive Device where
  | stdout
  | keyboard
deriving DecidableEq, Repr

/-- What a block of the heap can be set up as. -/
inductive Record where
  | vnode
  | ramfsData
  | dev
deriving DecidableEq, Repr

/-! ## State -/

structure Vfs where
  nodes : U64 → Vnode
  mounts : U64 → Mount
  rootMount : U64
  devfsRoot : U64
  ramfs : U64 → RamfsData
  blocks : U64 → Block
  devs : U64 → Device
  /-- What was last set up at a pointer. The machine does not keep it. -/
  records : U64 → Option Record
  /-- The last scancode of the keyboard, if it was not read yet. -/
  scancode : Option U8
  /-- What the clock gives at its reads, the next one being `reads`. -/
  clock : Nat → U32
  reads : Nat

/-- The number of bytes that were allocated at a pointer. -/
def Vfs.allocated (s : Vfs) (p : U64) : Nat := if p = 0 then 0 else (s.blocks p).size

/-- The file system with the heap it allocates from. -/
structure State (H : Type) extends Vfs where
  mm : Mm.State
  heap : H

namespace State

variable {H : Type}

def setNode (s : State H) (p : U64) (node : Vnode) : State H := { s with nodes := Function.update s.nodes p node }

def kmalloc (A : Proc.Allocator H) (s : State H) (n : U64) : U64 × State H :=
  let (p, mm, heap) := A.kmalloc s.mm s.heap n
  (p, { s with mm := mm, heap := heap })

def kfree (A : Proc.Allocator H) (s : State H) (p : U64) : State H :=
  let (mm, heap) := A.kfree s.mm s.heap p
  { s with mm := mm, heap := heap }

/-- `kmalloc` for plain bytes. -/
def kmallocBlock (A : Proc.Allocator H) (s : State H) (n : U64) : U64 × State H :=
  let (p, s) := s.kmalloc A n
  (p, if p = 0 then s else { s with blocks := Function.update s.blocks p ⟨n.toNat, (s.blocks p).bytes⟩ })

def getCurrentUnixTime (s : State H) : U32 × State H := (s.clock s.reads, { s with reads := s.reads + 1 })

end State

/-! ## Lookup (`dev/vfs.c`) -/

/-- More cells than a list of vnodes or mounts can have. -/
def maxCells : Nat := 2 ^ 64

def vfsLookup (nodes : U64 → Vnode) (parent : U64) (name : CString) : U64 :=
  findFrom (fun p => (nodes p).next) 0 (fun p => (nodes p).name = some name) maxCells (nodes parent).child

end ShadowOS.Fs
