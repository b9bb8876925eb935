import ShadowOS.Base.Forest
import ShadowOS.Fs.Init

/-!
# Deleting vnodes (`dev/vfs.c`)
-/

namespace ShadowOS.Fs

variable {H : Type} (A : Proc.Allocator H)

/-- The first child is taken from its parent, with the siblings after it. -/
def unlinkVnode (s : State H) (vnode : U64) : State H :=
  let parent := (s.nodes vnode).parent
  if parent ≠ 0 ∧ (s.nodes parent).child = vnode then s.setNode parent ((s.nodes parent).setChild 0) else s

/-- The end of `vfs_delete_node`. Names are kept by their text, so that the release of a name's block is left out. -/
def freeVnode (s : State H) (vnode : U64) : State H :=
  let s := s.setNode vnode { s.nodes vnode with name := none }
  let data := (s.nodes vnode).data
  let s := if data ≠ 0 then (s.kfree A data).setNode vnode { s.nodes vnode with data := 0 } else s
  let s := s.setNode vnode ((s.nodes vnode).setLocked false)
  { s.kfree A vnode with records := Function.update s.records vnode none }

mutual

def deleteNode : Nat → State H → U64 → Except Halt (State H)
  | 0, _, _ => .error .loop
  | fuel + 1, s, vnode =>
      if vnode = 0 then .ok s
      else if (s.nodes vnode).locked then .error (.fs .lock)
      else do
        let s := s.setNode vnode ((s.nodes vnode).setLocked true)
        let s ← if (s.nodes vnode).type = vnodeDir then deleteChildren fuel s (s.nodes vnode).child else .ok s
        return freeVnode A (unlinkVnode s vnode) vnode

/-- The loop over the children; the next one is read before a child is deleted. -/
def deleteChildren : Nat → State H → U64 → Except Halt (State H)
  | 0, _, _ => .error .loop
  | fuel + 1, s, child =>
      if child = 0 then .ok s
      else do
        let next := (s.nodes child).next
        let s ← deleteNode fuel s child
        deleteChildren fuel s next

end

/-- There are not more vnodes than cells, and each takes a call and a turn of the loop. -/
def vfsDeleteNode (s : State H) (vnode : U64) : Except Halt (State H) := deleteNode A (2 * maxCells) s vnode

/-! ## What it should do -/

def treeLinks (nodes : U64 → Vnode) : Links U64 where
  child p := (nodes p).child
  next p := (nodes p).next
  parent p := (nodes p).parent
  null := 0

/-- A tree of vnodes, none of them locked, in which only directories have children. -/
structure WellFormedTree (s : State H) (root : U64) (ns : List U64) : Prop where
  tree : (treeLinks s.nodes).Tree root ns
  dirs : ∀ n ∈ ns, (s.nodes n).child ≠ 0 → (s.nodes n).type = vnodeDir
  unlocked : ∀ n ∈ ns, (s.nodes n).locked = false
  records : ∀ n ∈ ns, s.records n = some .vnode

/-- The vnode is reached from the root over the names of the path, the last one first. -/
def ReachedAt (nodes : U64 → Vnode) (root : U64) (path : List (Option CString)) (n : U64) : Prop :=
  (treeLinks nodes).Reach (fun n => (nodes n).name) root path n

/-- The vnodes outside the tree of `v` are where they were, and none that was freed is reached. -/
def RemovesSubtree (s s' : State H) (root v : U64) : Prop :=
  (∀ path n, ReachedAt s.nodes root path n → (¬ ∃ below, ReachedAt s.nodes v below n) → ReachedAt s'.nodes root path n) ∧
  ∀ path n, ReachedAt s'.nodes root path n → ¬ (s.records n = some .vnode ∧ s'.records n = none)

end ShadowOS.Fs
