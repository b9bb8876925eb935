import ShadowOS.Fs.Ramfs

/-!
# The virtual file system (`dev/vfs.c`)

Messages are left out: they go to ports and to the console.
-/

namespace ShadowOS.Fs

variable {H : Type}

/-- Where the kernel does not go on: a lock that is never released, a null pointer, or a pointer that was not set. -/
inductive Stop where
  | lock
  | null
  | wild
deriving DecidableEq, Repr

/-! ## Paths -/

/-- The bytes up to the next slash, as far as they fit into the buffer of 256. -/
def nameBuffer (path : CString) : CString := (path.takeWhile (· ≠ slash)).take 255

/-- The path after a name, without the slash that ends the name. -/
def afterName (path : CString) : CString :=
  match path.drop (nameBuffer path).length with
  | [] => []
  | c :: rest => if c = slash then rest else c :: rest

/-- The loop of `vfs_lazy_lookup`; `none` when a name is not found. Every turn takes a byte of the path. -/
def lazyWalk (nodes : U64 → Vnode) : Nat → U64 → CString → Option U64
  | 0, current, _ => some current
  | fuel + 1, current, path =>
      if path = [] then some current
      else
        let current := vfsLookup nodes current (nameBuffer path)
        if current = 0 then none
        else if (nodes current).type ≠ vnodeDir then some current
        else lazyWalk nodes fuel current (afterName path)

def lazyLookupFrom (s : Vfs) : Nat → U64 → Option CString → U64
  | 0, _, _ => 0
  | _ + 1, _, none => 0
  | fuel + 1, mount, some path =>
      if mount = 0 ∨ path.head? ≠ some slash then 0
      else
        let m := s.mounts mount
        if m.root = 0 then 0
        else
          match lazyWalk s.nodes path.length m.root path.tail with
          | some node => node
          | none => if m.next ≠ 0 then lazyLookupFrom s fuel m.next (some path) else 0

/-- A null path is `none`. -/
def vfsLazyLookup (s : Vfs) (mount : U64) (path : Option CString) : U64 := lazyLookupFrom s maxCells mount path

/-- The loop of `vfs_lazy_lookup_last`. -/
def lastWalk (nodes : U64 → Vnode) : Nat → U64 → CString → U64
  | 0, current, _ => current
  | fuel + 1, current, path =>
      if path = [] then current
      else
        let next := vfsLookup nodes current (nameBuffer path)
        if next = 0 then current else lastWalk nodes fuel next (afterName path)

def vfsLazyLookupLast (s : Vfs) (mount : U64) : Option CString → U64
  | none => 0
  | some path =>
      if mount = 0 ∨ path.head? ≠ some slash then 0
      else
        let m := s.mounts mount
        if m.root = 0 then 0 else lastWalk s.nodes path.length m.root path.tail

def filenameFromPath (path : CString) : CString :=
  match strrchr path slash with
  | none => path
  | some last =>
      if last + 1 < path.length then path.drop (last + 1)
      else if last = 0 then [slash]
      else path.drop (last - 1)

/-! ## Full paths -/

/-- The length of the path to a vnode, over the names on the way up; `none` when there are more than 1000 of them. -/
def pathLength (nodes : U64 → Vnode) : Nat → U64 → U64 → Except Stop (Option U64)
  | 0, _, _ => .ok none
  | n + 1, current, pathLen =>
      if current = 0 ∨ (nodes current).parent = current then .ok (some pathLen)
      else
        match (nodes current).name with
        | none => .error .null
        | some name => pathLength nodes n (nodes current).parent (pathLen + BitVec.ofNat 64 (name.length + 1))

/-- A name is copied to its place in the path. -/
def copyName (path : Nat → U8) (pos : Nat) (name : CString) : Nat → U8 :=
  fun i => if pos ≤ i ∧ i < pos + name.length then name.getD (i - pos) 0 else path i

/-- The loop that writes the names from the end of the path on; `none` when it went wrong. It makes no more turns than the
one before it. -/
def fillPath (nodes : U64 → Vnode) : Nat → U64 → U64 → (Nat → U8) → Except Stop (Option (Nat → U8))
  | 0, _, _, path => .ok (some path)
  | n + 1, current, pathLen, path =>
      if current = 0 ∨ (nodes current).parent = current then .ok (some path)
      else
        match (nodes current).name with
        | none => .error .null
        | some name =>
            let pathLen := pathLen - BitVec.ofNat 64 name.length
            let path := copyName path pathLen.toNat name
            let path := if 0 < pathLen then Function.update path (pathLen - 1).toNat slash else path
            let pathLen := if 0 < pathLen then pathLen - 1 else pathLen
            if 1000000 < pathLen then .ok none else fillPath nodes n (nodes current).parent pathLen path

/-- The string in a buffer from `i` on. -/
def bufferString (buf : Nat → U8) : Nat → Nat → CString
  | 0, _ => []
  | fuel + 1, i => if buf i = 0 then [] else buf i :: bufferString buf fuel (i + 1)

/-- This is `_vfs_get_full_path`; the function without the underscore returns a fixed text. -/
def vfsGetFullPath (A : Proc.Allocator H) (s : State H) (vnode : U64) : Except Stop (Option CString × State H) := do
  if vnode = 0 then return (none, s)
  if (s.nodes vnode).parent = vnode then
    let (path, s) := s.kmalloc A 2
    return (if path = 0 then none else some [slash], s)
  match ← pathLength s.nodes 1001 vnode 0 with
  | none => return (none, s)
  | some pathLen =>
      let (fullPath, s) := s.kmalloc A (pathLen + 1)
      if fullPath = 0 then return (none, s)
      let path := Function.update (s.blocks fullPath).bytes pathLen.toNat 0
      match ← fillPath s.nodes 1001 vnode pathLen path with
      | none => return (none, s.kfree A fullPath)
      | some path =>
          let text := bufferString path (pathLen.toNat + 1) 0
          if path 0 = slash then return (some text, s)
          let (temp, s) := s.kmalloc A (BitVec.ofNat 64 (text.length + 2))
          return (if temp = 0 then none else some (slash :: text), s.kfree A fullPath)

/-! ## New vnodes -/

/-- `devfs_create` copies the name to a pointer that it has not set. -/
def devfsCreate (A : Proc.Allocator H) (s : State H) (self : U64) (name : CString) : Except Stop (U64 × State H) :=
  let s := s.setNode self ((s.nodes self).setLocked false)
  if vfsLookup s.nodes self name ≠ 0 then .ok (0, s)
  else
    let s := s.setNode self ((s.nodes self).setLocked true)
    let (newNode, s) := s.kmalloc A vnodeSize
    if newNode = 0 then .ok (0, s) else .error .wild

/-- The times of a new vnode. -/
def stampVnode (s : State H) (node : U64) : State H :=
  let (creationTime, s) := s.getCurrentUnixTime
  let s := s.setNode node { s.nodes node with creationTime := creationTime }
  let (modifyTime, s) := s.getCurrentUnixTime
  let s := s.setNode node { s.nodes node with modifyTime := modifyTime }
  let (accessTime, s) := s.getCurrentUnixTime
  s.setNode node { s.nodes node with accessTime := accessTime }

def vfsCreateVnode (A : Proc.Allocator H) (s : State H) (parent : U64) (name : CString) (type : U32) :
    Except Stop (U64 × State H) := do
  if parent = 0 then throw .null
  if (s.nodes parent).locked then throw .lock
  let s := s.setNode parent ((s.nodes parent).setLocked true)
  if (s.nodes parent).type ≠ vnodeDir then
    return (0, s.setNode parent ((s.nodes parent).setLocked false))
  match (s.nodes parent).ops with
  | none => return (0, s.setNode parent ((s.nodes parent).setLocked false))
  | some ops =>
      let (ret, s) ← match ops with
        | .ramfs => pure (ramfsCreate A s parent name type)
        | .devfs => devfsCreate A s parent name
      let s := s.setNode parent ((s.nodes parent).setLocked false)
      return (ret, if ret ≠ 0 then stampVnode s ret else s)

/-! ## Reading and writing -/

/-- A device's `read`: the status, the bytes for the buffer, and the state. -/
def devRead (s : State H) (size : U64) : Device → U32 × List U8 × State H
  | .stdout => (-1, [], s)
  | .keyboard =>
      match s.scancode with
      | none => (-1, [], s)
      | some code => if 1 ≤ size then (1, [code], { s with scancode := none }) else (1, [], s)

/-- A device's `write`. -/
def devWrite (size : U64) : Device → U32
  | .stdout => size.setWidth 32
  | .keyboard => -1

def vfsRead (s : State H) (vnode buf size offset : U64) : Except Stop (U32 × List U8 × State H) := do
  if vnode = 0 then throw .null
  if (s.nodes vnode).locked then throw .lock
  let s := s.setNode vnode ((s.nodes vnode).setLocked true)
  let unlock (s : State H) := s.setNode vnode ((s.nodes vnode).setLocked false)
  if (s.nodes vnode).type = vnodeDir then return (-1, [], unlock s)
  match (s.nodes vnode).ops with
  | none => return (-1, [], unlock s)
  | some .ramfs =>
      let (ret, bytes, _) := ramfsRead s vnode buf size offset
      return (ret, bytes, unlock s)
  | some .devfs =>
      if (s.nodes vnode).data = 0 then throw .null
      let (ret, bytes, s) := devRead s size (s.devs (s.nodes vnode).data)
      return (ret, bytes, unlock s)

def vfsWrite (A : Proc.Allocator H) (s : State H) (vnode : U64) (buf : Option (Nat → U8)) (size offset : U64) :
    Except Stop (U32 × State H) := do
  if vnode = 0 then throw .null
  if (s.nodes vnode).locked then throw .lock
  let s := s.setNode vnode ((s.nodes vnode).setLocked true)
  let unlock (s : State H) := s.setNode vnode ((s.nodes vnode).setLocked false)
  if (s.nodes vnode).type = vnodeDir then return (-1, unlock s)
  match (s.nodes vnode).ops with
  | none => return (-1, unlock s)
  | some ops =>
      let (ret, s) ← match ops with
        | .ramfs => let (ret, _, s) := ramfsWrite A s vnode buf size offset; pure (ret, s)
        | .devfs => if (s.nodes vnode).data = 0 then throw .null else pure (devWrite size (s.devs (s.nodes vnode).data), s)
      let (modifyTime, s) := (unlock s).getCurrentUnixTime
      return (ret, s.setNode vnode { s.nodes vnode with modifyTime := modifyTime })

/-! ## Permissions -/

def vfsAmIAllowed (node : Vnode) (uid gid action : U64) : Bool :=
  let has (x r w : U32) : Bool :=
    action = 0 ∧ node.mode &&& x ≠ 0 ∨ action = 1 ∧ node.mode &&& r ≠ 0 ∨ action = 2 ∧ node.mode &&& w ≠ 0
  node.uid.setWidth 64 = uid && has vnodeModeXusr vnodeModeRusr vnodeModeWusr ||
    node.gid.setWidth 64 = gid && has vnodeModeXgrp vnodeModeRgrp vnodeModeWgrp ||
    has vnodeModeXoth vnodeModeRoth vnodeModeWoth

end ShadowOS.Fs
