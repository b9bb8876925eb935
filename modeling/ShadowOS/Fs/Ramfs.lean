import ShadowOS.Fs.Vnode

/-!
# Files in memory (`fs/ramfs.c`)
-/

namespace ShadowOS.Fs

variable {H : Type}

/-- The bytes of a heap block that a `memcpy` touches: `size` bytes from `offset` on, of a block that was allocated with
`allocated` bytes. -/
structure Access where
  offset : U64
  size : U64
  allocated : Nat
deriving DecidableEq, Repr

def Access.Inside (a : Access) : Prop := a.offset.toNat + a.size.toNat ≤ a.allocated

instance (a : Access) : Decidable a.Inside := inferInstanceAs (Decidable (_ ≤ _))

/-! ## Reading and writing -/

/-- The status, the bytes that were copied to `buf`, and the accesses to the file's block. -/
def ramfsRead (s : State H) (vnode buf size offset : U64) : U32 × List U8 × List Access :=
  let node := s.nodes vnode
  if vnode = 0 ∨ node.type ≠ vnodeFile then (-1, [], [])
  else
    let data := s.ramfs node.data
    if node.data = 0 ∨ data.size ≤ offset then (0, [], [])
    else
      let toRead := if data.size - offset < size then data.size - offset else size
      if buf = 0 then (-1, [], [])
      else
        let block := s.blocks data.data
        (toRead.setWidth 32, (List.range toRead.toNat).map fun i => block.bytes (offset.toNat + i),
          [⟨offset, toRead, s.allocated data.data⟩])

/-- Bytes are copied to a block. -/
def copyTo (b : Block) (offset : Nat) (bytes : Nat → U8) (n : Nat) : Block :=
  { b with bytes := fun i => if offset ≤ i ∧ i < offset + n then bytes (i - offset) else b.bytes i }

/-- The part of a write that makes room for it; `none` when there is no memory. -/
def ramfsGrow (A : Proc.Allocator H) (s : State H) (vnode newSize : U64) : Option (List Access × State H) :=
  let node := s.nodes vnode
  let data := s.ramfs node.data
  let (newData, s) := s.kmallocBlock A newSize
  if newData = 0 then none
  else
    let accesses := [⟨0, data.size, s.allocated newData⟩, ⟨0, data.size, s.allocated data.data⟩]
    let s := { s with
      blocks := Function.update s.blocks newData
        (copyTo (s.blocks newData) 0 (s.blocks data.data).bytes data.size.toNat) }
    let s := s.kfree A data.data
    some (accesses, { s with
      ramfs := Function.update s.ramfs node.data ⟨newData, newSize⟩
      nodes := Function.update s.nodes vnode { node with size := newSize } })

/-- The part of a write that copies the bytes. -/
def ramfsPut (s : State H) (vnode : U64) (bytes : Nat → U8) (size offset : U64) : List Access × State H :=
  let node := s.nodes vnode
  let data := s.ramfs node.data
  let block := s.blocks data.data
  let newSize := if offset + size < node.size then node.size else offset + size
  ([⟨offset, size, s.allocated data.data⟩], { s with
    blocks := Function.update s.blocks data.data (copyTo block offset.toNat bytes size.toNat)
    ramfs := Function.update s.ramfs node.data { data with size := newSize }
    nodes := Function.update s.nodes vnode { node with size := newSize } })

/-- A null buffer is `none`. -/
def ramfsWrite (A : Proc.Allocator H) (s : State H) (vnode : U64) (buf : Option (Nat → U8)) (size offset : U64) :
    U32 × List Access × State H :=
  let node := s.nodes vnode
  if vnode = 0 ∨ node.type ≠ vnodeFile then (-1, [], s)
  else
    let data := s.ramfs node.data
    if node.data = 0 then (-1, [], s)
    else
      let grown := if data.size ≤ offset ∧ data.size < offset + size then ramfsGrow A s vnode (offset + size)
        else some ([], s)
      match grown, buf with
      | none, _ => (-1, [], (s.kmalloc A (offset + size)).2)
      | some (accesses, s), none => (-1, accesses, s)
      | some (accesses, s), some bytes =>
          let (accesses', s) := ramfsPut s vnode bytes size offset
          (size.setWidth 32, accesses ++ accesses', s)

/-! ## New vnodes -/

/-- The vnode that `ramfs_create` sets up. -/
def newVnode (self : Vnode) (parent : U64) (name : Option CString) (type : U32) (data : U64) : Vnode :=
  { Vnode.zero with
    name := name
    type := type
    parent := parent
    mount := self.mount
    mode := if type ≠ vnodeDev then vnodeModeRusr ||| vnodeModeWusr ||| vnodeModeRgrp ||| vnodeModeRoth
      else vnodeModeRusr ||| vnodeModeWusr ||| vnodeModeRgrp
    data := data
    ops := some .ramfs }

/-- The new vnode becomes the last child. -/
def linkChild (nodes : U64 → Vnode) (self newVnode : U64) : U64 → Vnode :=
  let current := (nodes self).child
  if current = 0 then Function.update nodes self ((nodes self).setChild newVnode)
  else
    let last := lastFrom (fun p => (nodes p).next) 0 maxCells current
    Function.update nodes last ((nodes last).setNext newVnode)

def strdup (A : Proc.Allocator H) (s : State H) (str : CString) : Option CString × State H :=
  let (p, s) := s.kmalloc A (BitVec.ofNat 64 (str.length + 1))
  (if p = 0 then none else some str, s)

def ramfsCreate (A : Proc.Allocator H) (s : State H) (self : U64) (name : CString) (type : U32) : U64 × State H :=
  let s := s.setNode self ((s.nodes self).setLocked false)
  if vfsLookup s.nodes self name ≠ 0 then (0, s)
  else
    let s := s.setNode self ((s.nodes self).setLocked true)
    let (newNode, s) := s.kmalloc A vnodeSize
    if newNode = 0 then (0, s)
    else
      let (copy, s) := strdup A s name
      let (data, s) := s.kmalloc A ramfsDataSize
      if data = 0 then
        let s := s.setNode newNode (newVnode (s.nodes self) self copy type 0)
        (0, s.kfree A newNode)
      else
        let s := { s with
          ramfs := Function.update s.ramfs data ⟨0, 0⟩
          records := Function.update (Function.update s.records newNode (some .vnode)) data (some .ramfsData) }
        let s := s.setNode newNode (newVnode (s.nodes self) self copy type data)
        (newNode, { s with nodes := linkChild s.nodes self newNode })

end ShadowOS.Fs
