import ShadowOS.Fs.Vfs

/-!
# Mounts and devices (`dev/vfs.c`, `fs/devfs.c`)
-/

namespace ShadowOS.Fs

variable {H : Type}

def mountSize : U64 := 48
def devSize : U64 := 16

/-- The name of the type of a mount is only printed, and kept by its length alone. -/
def vfsMount (A : Proc.Allocator H) (s : State H) (path : CString) (typeLength : Nat) : U64 × State H :=
  if findFrom (fun m => (s.mounts m).next) 0 (fun m => (s.mounts m).mountpoint = path) maxCells s.rootMount ≠ 0 then (0, s)
  else
    let parent := vfsLazyLookup s.toVfs s.rootMount (some path)
    if parent = 0 ∨ (s.nodes parent).type ≠ vnodeDir then (0, s)
    else
      let (newMount, s) := s.kmalloc A mountSize
      if newMount = 0 then (0, s)
      else
        let (mountpoint, s) := s.kmalloc A (BitVec.ofNat 64 (path.length + 1))
        if mountpoint = 0 then (0, s.kfree A newMount)
        else
          let (type, s) := s.kmalloc A (BitVec.ofNat 64 (typeLength + 1))
          if type = 0 then (0, (s.kfree A mountpoint).kfree A newMount)
          else
            let current := lastFrom (fun m => (s.mounts m).next) 0 maxCells s.rootMount
            let mounts := Function.update s.mounts newMount ⟨0, 0, current, path, mountpoint, type⟩
            (newMount, { s with
              mounts := Function.update mounts current { mounts current with next := newMount } })

def vfsUmount (A : Proc.Allocator H) (s : State H) (mount : U64) : State H :=
  if mount = 0 then s
  else
    let (copy, s) := s.kmalloc A (BitVec.ofNat 64 ((s.mounts mount).mountpoint.length + 1))
    let s := if copy ≠ 0 then s.kfree A copy else s
    let m := s.mounts mount
    let s := if m.prev ≠ 0 then { s with
        mounts := Function.update s.mounts m.prev { s.mounts m.prev with next := m.next } } else s
    let m := s.mounts mount
    let s := if m.next ≠ 0 then { s with
        mounts := Function.update s.mounts m.next { s.mounts m.next with prev := m.prev } } else s
    let m := s.mounts mount
    ((s.kfree A m.mountpointAt).kfree A m.typeAt).kfree A mount

/-- The bytes of "dev" and "/dev". -/
def devName : CString := [100, 101, 118]
def devPath : CString := slash :: devName

/-- A failed assertion is `none`. -/
def devfsInit (A : Proc.Allocator H) (s : State H) : Except Stop (Option (State H)) := do
  let (devfsDir, s) ← vfsCreateVnode A s (s.mounts s.rootMount).root devName vnodeDir
  if devfsDir = 0 then return none
  let s := s.setNode devfsDir { s.nodes devfsDir with flags := vnodeFlagMountpoint }
  let (mount, s) := vfsMount A s devPath 5
  if mount = 0 then return some s
  let s := { s with
    devfsRoot := mount
    mounts := Function.update s.mounts mount { s.mounts mount with root := devfsDir } }
  return some (s.setNode devfsDir { s.nodes devfsDir with mount := mount })

def devfsAddDev (A : Proc.Allocator H) (s : State H) (name : CString) (dev : Device) : Except Stop (U32 × State H) := do
  let (node, s) ← vfsCreateVnode A s (s.mounts s.devfsRoot).root name vnodeDev
  if node = 0 then return (-1, s)
  let s := s.setNode node { s.nodes node with ops := some .devfs }
  let (device, s) := s.kmalloc A devSize
  -- `vfs_delete_node` unlinks and frees the vnode that has no children
  if device = 0 then
    let parent := (s.nodes node).parent
    let s := if parent ≠ 0 ∧ (s.nodes parent).child = node then s.setNode parent ((s.nodes parent).setChild 0) else s
    let s := (s.kfree A (s.nodes node).data).setNode node { s.nodes node with name := none, data := 0 }
    return (-1, { s.kfree A node with records := Function.update s.records node none })
  let s := { s with
    devs := Function.update s.devs device dev
    records := Function.update s.records device (some .dev) }
  return (0, s.setNode node { s.nodes node with data := device })

/-! ## The keyboard (`dev/input/keyboard.c`) -/

def kbdAck : U8 := 0xFA

/-- The interrupt that brings a scancode. -/
def kbdHandler (s : Vfs) (scancode : U8) : Vfs := { s with scancode := if scancode = kbdAck then none else some scancode }

end ShadowOS.Fs
