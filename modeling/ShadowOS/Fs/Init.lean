import ShadowOS.Fs.Devfs

/-!
# The start of the file system (`dev/vfs.c`, `fs/ramfs.c`)
-/

namespace ShadowOS.Fs

variable {H : Type}

/-! ## The root -/

/-- The root vnode. Its `next` is left as it was in the block. -/
def rootVnode (node : Vnode) (root mount : U64) : Vnode :=
  { Vnode.zero with
    next := node.next
    name := some [slash]
    type := vnodeDir
    mount := mount
    parent := root
    mode := vnodeModeRusr ||| vnodeModeWusr ||| vnodeModeXusr ||| vnodeModeRgrp ||| vnodeModeXgrp ||| vnodeModeRoth |||
      vnodeModeXoth }

def vfsInit (A : Proc.Allocator H) (s : State H) : State H :=
  let (mount, s) := s.kmalloc A mountSize
  if mount = 0 then s
  else
    let (root, s) := s.kmalloc A vnodeSize
    let s := { s with mounts := Function.update s.mounts mount { s.mounts mount with root := root } }
    if root = 0 then s.kfree A mount
    else
      let (name, s) := s.kmalloc A 2
      if name = 0 then
        let s := s.setNode root { s.nodes root with name := none }
        (s.kfree A root).kfree A mount
      else
        let s := s.setNode root (rootVnode (s.nodes root) root mount)
        let (mountpoint, s) := s.kmalloc A 1
        let m := { s.mounts mount with next := 0, prev := 0, mountpointAt := mountpoint }
        let s := { s with mounts := Function.update s.mounts mount m }
        if mountpoint = 0 then ((s.kfree A name).kfree A root).kfree A mount
        else
          let (type, s) := s.kmalloc A 7
          let m := { s.mounts mount with mountpoint := [], typeAt := type }
          let s := { s with mounts := Function.update s.mounts mount m }
          if type = 0 then (((s.kfree A mountpoint).kfree A name).kfree A root).kfree A mount
          else { s with
            rootMount := mount
            records := Function.update s.records root (some .vnode) }

/-! ## Archives -/

/-- Where the loading of an archive does not go on: a failed assertion, a loop that does not end, or what stops the file
system. -/
inductive Halt where
  | assertion
  | loop
  | fs (why : Stop)
deriving DecidableEq, Repr

/-- The file system, with the archive that `strtok` writes to and the pointer that it keeps. -/
structure Unpacking (H : Type) where
  fs : State H
  archive : Mem
  last : U64

/-- How the function is left before its end: it returns, or the kernel stops. -/
inductive Leave (H : Type) where
  | ret (fs : State H)
  | stop (why : Stop)

/-- There are no more bytes than addresses. -/
def maxBytes : Nat := 2 ^ 64

namespace Unpacking

variable (u : Unpacking H) (header : U64)

/-- A field of the header, as an octal number. -/
def field (offset : U64) : Int := strtol (readString u.archive maxBytes (header + offset)) 8

def mode : U32 := BitVec.ofInt 32 (u.field header 100)
def fileSize : U32 := BitVec.ofInt 32 (u.field header 124)
def mtime : U32 := BitVec.ofInt 32 (u.field header 136)
def dir : Bool := u.archive (header + 156) = 53

/-- The name, after a "./" at its start. -/
def name : U64 := if u.archive header = 46 ∧ u.archive (header + 1) = slash then header + 2 else header

def string (p : U64) : CString := readString u.archive maxBytes p

def strtok (str : U64) : U64 × Unpacking H :=
  let (token, archive, last) := ShadowOS.strtok u.archive u.last str [slash]
  (token, { u with archive := archive, last := last })

end Unpacking

variable (A : Proc.Allocator H)

/-- A directory of the archive. -/
def ustarDir (u : Unpacking H) (header parent : U64) (name : CString) : Except (Leave H) (Unpacking H) :=
  match vfsCreateVnode A u.fs parent name vnodeDir with
  | .error why => .error (.stop why)
  | .ok (node, fs) =>
      if node = 0 then .error (.ret fs)
      else .ok { u with
        fs := fs.setNode node { fs.nodes node with
          ops := some .ramfs
          mode := u.mode header
          creationTime := u.mtime header } }

/-- A file of the archive, with its bytes. -/
def ustarFile (u : Unpacking H) (header parent : U64) (name : CString) (fileSize : U32) :
    Except (Leave H) (Unpacking H) :=
  match vfsCreateVnode A u.fs parent name vnodeFile with
  | .error why => .error (.stop why)
  | .ok (file, fs) =>
      if file = 0 then .error (.ret fs)
      else
        let (data, fs) := fs.kmalloc A ramfsDataSize
        if data = 0 then .error (.ret fs)
        else
          let (bytes, fs) := fs.kmallocBlock A (fileSize.setWidth 64)
          if bytes = 0 then .error (.ret (fs.kfree A data))
          else
            let block := copyTo (fs.blocks bytes) 0 (fun i => u.archive (header + 512 + BitVec.ofNat 64 i)) fileSize.toNat
            let fs := { fs with
              blocks := Function.update fs.blocks bytes block
              ramfs := Function.update fs.ramfs data ⟨bytes, fileSize.setWidth 64⟩
              records := Function.update fs.records data (some .ramfsData) }
            .ok { u with
              fs := fs.setNode file { fs.nodes file with
                ops := some .ramfs
                data := data
                size := fileSize.setWidth 64
                mode := u.mode header
                creationTime := u.mtime header } }

/-- The loop over the components of a name: the directory and the component that it ends with. After a directory was
created the walk goes on below the null pointer. -/
def ustarWalk (header : U64) (dir : Bool) : Nat → Unpacking H → U64 → U64 → Except (Leave H) (Unpacking H × U64 × U64)
  | 0, u, parent, token => .ok (u, parent, token)
  | fuel + 1, u, parent, token =>
      if token = 0 then .ok (u, parent, token)
      else if parent = 0 then .error (.stop .null)
      else
        let subdir := vfsLookup u.fs.nodes parent (u.string token)
        if subdir ≠ 0 then ustarWalk header dir fuel (u.strtok 0).2 subdir (u.strtok 0).1
        else if dir then do
          let u ← ustarDir A u header parent (u.string token)
          ustarWalk header dir fuel (u.strtok 0).2 0 (u.strtok 0).1
        else .ok (u, parent, token)

/-- What an entry of the archive does. -/
def ustarEntry (root : U64) (u : Unpacking H) (header : U64) : Except (Leave H) (Unpacking H) :=
  let fileSize := u.fileSize header
  let dir := u.dir header
  let name := u.name header
  if u.string name = [] ∨ u.string name = [46] then .ok u
  else do
    let (token, u) := u.strtok name
    let (u, parent, token) ← ustarWalk A header dir maxBytes u root token
    if dir then .ok u
    else
      let (filename, u) := u.strtok token
      if filename ≠ 0 ∧ u.string filename ≠ [] then ustarFile A u header parent (u.string filename) fileSize else .ok u

/-- How far the next header is, in the 32 bits of the file's size. -/
def ustarAdvance (fileSize : U32) : U32 := 512 + ((fileSize + 511) &&& ~~~511)

/-- The loop over the headers. -/
def ustarLoop (root data size : U64) : Nat → Unpacking H → U64 → Except Halt (State H)
  | 0, _, _ => .error .loop
  | fuel + 1, u, offset =>
      let header := data + offset
      if size ≤ offset then .ok u.fs
      else if u.archive header = 0 then .ok u.fs
      else
        match ustarEntry A root u header with
        | .error (.ret fs) => .ok fs
        | .error (.stop why) => .error (.fs why)
        | .ok u' => ustarLoop root data size fuel u' (offset + (ustarAdvance (u.fileSize header)).setWidth 64)

def ramfsInitUstar (u : Unpacking H) (mount data size : U64) : Except Halt (State H) :=
  if mount = 0 ∨ data = 0 ∨ size < 512 then .error .assertion
  else ustarLoop A (u.fs.mounts mount).root data size maxBytes u 0

def ramfsTypeUstar : U32 := 1

def ramfsInit (u : Unpacking H) (mount : U64) (type : U32) (data size : U64) : Except Halt (State H) :=
  if mount = 0 then .error .assertion
  else
    let root := (u.fs.mounts mount).root
    if root = 0 then .error (.fs .null)
    else
      let u := { u with fs := u.fs.setNode root { u.fs.nodes root with ops := some .ramfs } }
      if type = ramfsTypeUstar then ramfsInitUstar A u mount data size else .ok u.fs

end ShadowOS.Fs
