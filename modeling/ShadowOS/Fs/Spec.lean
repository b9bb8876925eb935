import ShadowOS.Fs.Vfs
import ShadowOS.Proc.Spec

/-!
# What the file system should do
-/

namespace ShadowOS.Fs

variable {H : Type}

/-! ## Files -/

/-- The calls that a file in memory gets; a write comes with the bytes of its buffer. -/
inductive FileOp where
  | read (buf size offset : U64)
  | write (bytes : Nat → U8) (size offset : U64)

namespace FileOp

def exec (A : Proc.Allocator H) (v : U64) (s : State H) : FileOp → Option (State H)
  | .read _ _ _ => some s
  | .write bytes size offset => some (ramfsWrite A s v (some bytes) size offset).2.2

/-- The bytes of the file's block that a call touches. -/
def accesses (A : Proc.Allocator H) (v : U64) (s : State H) : FileOp → List Access
  | .read buf size offset => (ramfsRead s v buf size offset).2.2
  | .write bytes size offset => (ramfsWrite A s v (some bytes) size offset).2.1

def NoWrap : FileOp → Prop
  | .read _ _ _ => True
  | .write _ size offset => offset.toNat + size.toNat < 2 ^ 64

/-- A write starts at or past the end of the file, or ends in it. -/
def Fits (v : U64) (s : State H) : FileOp → Prop
  | .read _ _ _ => True
  | .write _ size offset =>
      let data := s.ramfs (s.nodes v).data
      data.size ≤ offset ∨ offset.toNat + size.toNat ≤ data.size.toNat

instance (v : U64) (s : State H) : ∀ op, Decidable (Fits v s op)
  | .read _ _ _ => isTrue trivial
  | .write _ _ _ => inferInstanceAs (Decidable (_ ∨ _))

end FileOp

/-- The file is no longer than the block that was allocated for it. -/
def Bounded (v : U64) (s : State H) : Prop :=
  let data := s.ramfs (s.nodes v).data
  data.size.toNat ≤ s.allocated data.data

instance (v : U64) (s : State H) : Decidable (Bounded v s) := inferInstanceAs (Decidable (_ ≤ _))

/-- The file at `v` is as long as its block. -/
structure FileInv (v : U64) (s : State H) : Prop where
  nonnull : v ≠ 0
  type : (s.nodes v).type = vnodeFile
  data : (s.nodes v).data ≠ 0
  size : (s.nodes v).size = (s.ramfs (s.nodes v).data).size
  block : (s.ramfs (s.nodes v).data).size.toNat = s.allocated (s.ramfs (s.nodes v).data).data

/-- A file as an array of bytes. -/
structure Contents where
  size : Nat
  byte : Nat → U8

/-- At most `n` bytes from an offset on, as far as the file goes. -/
def Contents.slice (c : Contents) (offset n : Nat) : List U8 :=
  (List.range (min n (c.size - offset))).map fun i => c.byte (offset + i)

/-- What a write makes of the bytes. It does not say what is between the old end and the offset. -/
structure Contents.Written (c c' : Contents) (bytes : Nat → U8) (n offset : Nat) : Prop where
  size : c'.size = max c.size (offset + n)
  inside : ∀ i < n, c'.byte (offset + i) = bytes i
  outside : ∀ i < c.size, ¬ (offset ≤ i ∧ i < offset + n) → c'.byte i = c.byte i

def contents (v : U64) (s : State H) : Contents :=
  let data := s.ramfs (s.nodes v).data
  ⟨data.size.toNat, (s.blocks data.data).bytes⟩

namespace FileOp

/-- The size of a write is not negative as an `int`. -/
def Short : FileOp → Prop
  | .read _ _ _ => True
  | .write _ size _ => size.toNat < 2 ^ 31

/-- There is memory for a file that gets longer. -/
def HasRoom (A : Proc.Allocator H) (v : U64) (s : State H) : FileOp → Prop
  | .read _ _ _ => True
  | .write _ size offset =>
      let data := s.ramfs (s.nodes v).data
      data.size ≤ offset → data.size < offset + size → (s.kmalloc A (offset + size)).1 ≠ 0

instance (A : Proc.Allocator H) (v : U64) (s : State H) : ∀ op, Decidable (HasRoom A v s op)
  | .read _ _ _ => isTrue trivial
  | .write _ _ _ => inferInstanceAs (Decidable (_ → _ → _))

/-- A read gives the bytes of the file, and a write changes those of its range. -/
def ActsOnBytes (A : Proc.Allocator H) (v : U64) (s : State H) : FileOp → Prop
  | .read buf size offset =>
      let bytes := (contents v s).slice offset.toNat size.toNat
      buf ≠ 0 → (ramfsRead s v buf size offset).2.1 = bytes ∧
        (ramfsRead s v buf size offset).1 = BitVec.ofNat 32 bytes.length
  | .write bytes size offset =>
      let (status, _, s') := ramfsWrite A s v (some bytes) size offset
      status.toInt = size.toNat ∧ (contents v s).Written (contents v s') bytes size.toNat offset.toNat ∧
        (s'.nodes v).size.toNat = (contents v s').size

end FileOp

/-- The bytes between the old end of the file and the offset of a write read as zero after it. -/
def GapReadsZero (A : Proc.Allocator H) (v : U64) (s : State H) (buf : Option (Nat → U8)) (size offset : U64) : Prop :=
  ∀ dest ≠ (0 : U64), ∀ i : U64, (s.ramfs (s.nodes v).data).size ≤ i → i < offset →
    ∀ b ∈ (ramfsRead (ramfsWrite A s v buf size offset).2.2 v dest 1 i).2.1, b = 0

/-- The file has the same block with the same bytes, and the same sizes. -/
structure SameFile (v : U64) (s s' : State H) : Prop where
  data : s'.ramfs (s.nodes v).data = s.ramfs (s.nodes v).data
  block : s'.blocks (s.ramfs (s.nodes v).data).data = s.blocks (s.ramfs (s.nodes v).data).data
  size : (s'.nodes v).size = (s.nodes v).size

/-- The vnode is a file with data. -/
def IsFile (v : U64) (s : State H) : Prop := v ≠ 0 ∧ (s.nodes v).type = vnodeFile ∧ (s.nodes v).data ≠ 0

/-- A write needs a larger block for the file. -/
def NeedsRoom (v : U64) (s : State H) (size offset : U64) : Prop :=
  let data := s.ramfs (s.nodes v).data
  data.size ≤ offset ∧ data.size < offset + size

/-- The bytes of a write are those that the file has. -/
def Rewrites (v : U64) (s : State H) (bytes : Nat → U8) (size offset : U64) : Prop :=
  (∀ i < size.toNat, bytes i = (contents v s).byte (offset.toNat + i)) ∧
    (s.nodes v).size = (s.ramfs (s.nodes v).data).size ∧ offset + size ≤ (s.nodes v).size

/-- The size of a write with a buffer is not -1 as an `int`, or the write does not get to the bytes, or leaves them as they
are; a write without a buffer does not get a larger block. -/
def FailsCleanly (A : Proc.Allocator H) (v : U64) (s : State H) (buf : Option (Nat → U8)) (size offset : U64) : Prop :=
  IsFile v s →
    match buf with
    | none => NeedsRoom v s size offset → (s.kmalloc A (offset + size)).1 = 0
    | some bytes => size.setWidth 32 = (-1 : U32) →
        (NeedsRoom v s size offset → (s.kmalloc A (offset + size)).1 = 0) ∧
          (¬ NeedsRoom v s size offset → Rewrites v s bytes size offset)

/-! ## Paths -/

def dropEmptyLast (cs : List CString) : List CString := if cs.getLast? = some [] then cs.dropLast else cs

/-- The components of a path, after its first slash; a last slash ends the last component. -/
def components (path : CString) : List CString := dropEmptyLast (path.tail.splitOn slash)

/-- The names that the lookup takes the rest of a path apart into. -/
def piecesFrom : Nat → CString → List CString
  | 0, _ => []
  | fuel + 1, path => if path = [] then [] else nameBuffer path :: piecesFrom fuel (afterName path)

/-- The components of a path, with those of more than 255 bytes in pieces. -/
def pieces (path : CString) : List CString := piecesFrom path.length path.tail

/-- The vnode that is reached by following every name, or null. -/
def follow (nodes : U64 → Vnode) : U64 → List CString → U64
  | n, [] => n
  | n, c :: cs => if vfsLookup nodes n c = 0 then 0 else follow nodes (vfsLookup nodes n c) cs

/-- The vnodes in `T` are a tree: from every one the links lead to its children, and they lead back to it. -/
structure VnodeTree (nodes : U64 → Vnode) (root : U64) (T : Set U64) : Prop where
  root_mem : root ∈ T
  nonnull : 0 ∉ T
  children : ∀ n ∈ T, ∃ ks, Chain (fun p => (nodes p).next) 0 (nodes n).child ks ∧
    ∀ m ∈ ks, m ∈ T ∧ (nodes m).parent = n ∧ m ≠ root

/-- A vnode that is reached from the root by so many steps to a child. -/
inductive AtDepth (nodes : U64 → Vnode) (root : U64) : Nat → U64 → Prop where
  | root : AtDepth nodes root 0 root
  | child {d : Nat} {n m : U64} {ks : List U64} (hn : AtDepth nodes root d n)
      (hks : Chain (fun p => (nodes p).next) 0 (nodes n).child ks) (hm : m ∈ ks) : AtDepth nodes root (d + 1) m

/-- A name that a path can hold. -/
structure GoodName (c : CString) : Prop where
  pos : 1 ≤ c.length
  short : c.length ≤ 255
  slash : ShadowOS.slash ∉ c
  zero : 0 ∉ c

/-- A tree in which every vnode has a path: vnodes have names, siblings have different ones, and only directories have
children. -/
structure NamedTree (nodes : U64 → Vnode) (root : U64) (T : Set U64) : Prop extends VnodeTree nodes root T where
  names : ∀ n ∈ T, n ≠ root → ∃ c, (nodes n).name = some c ∧ GoodName c
  siblings : ∀ n ∈ T, ∀ ks, Chain (fun p => (nodes p).next) 0 (nodes n).child ks →
    ∀ a ∈ ks, ∀ b ∈ ks, (nodes a).name = (nodes b).name → a = b
  dirs : ∀ n ∈ T, (nodes n).child ≠ 0 → (nodes n).type = vnodeDir

/-- The place of a vnode in the tree and what it is are the same. -/
structure SameVnode (a b : Vnode) : Prop where
  parent : a.parent = b.parent
  next : a.next = b.next
  child : a.child = b.child
  mount : a.mount = b.mount
  type : a.type = b.type
  name : a.name = b.name
  data : a.data = b.data
  ops : a.ops = b.ops
  locked : a.locked = b.locked

/-- Before the end of a path the names lead through directories. -/
def ThroughDirs (nodes : U64 → Vnode) (root : U64) (path : CString) : Prop :=
  ∀ i, 0 < i → i < (pieces path).length → follow nodes root ((pieces path).take i) ≠ 0 →
    (nodes (follow nodes root ((pieces path).take i))).type = vnodeDir

/-- Before the last component of a path there are directories. -/
def ParentsExist (nodes : U64 → Vnode) (root : U64) (path : CString) : Prop :=
  ∀ i, 0 < i → i < (components path).length → follow nodes root ((components path).take i) ≠ 0 ∧
    (nodes (follow nodes root ((components path).take i))).type = vnodeDir

/-! ## Mounts -/

/-- What a mount makes of a path, from its own root. -/
def resolve (s : Vfs) (mount : U64) (path : CString) : Option U64 :=
  lazyWalk s.nodes path.length (s.mounts mount).root path.tail

/-- The lookup of a path fails in the root mount and in those after it, up to `M`, which gives `n`. -/
def FallsBack (s : Vfs) (later : List U64) (path : CString) (M n : U64) : Prop :=
  vfsLazyLookup s s.rootMount (some path) = n ∧ n ≠ 0 ∧ resolve s s.rootMount path = none ∧
    ∃ before after, later = before ++ M :: after ∧
      (∀ m ∈ before, (s.mounts m).root ≠ 0 ∧ resolve s m path = none) ∧ (s.mounts M).root ≠ 0 ∧ resolve s M path = some n

/-- No mount resolves a path, up to the first one that has no root. -/
def NoneResolves (s : Vfs) (path : CString) : List U64 → Prop
  | [] => True
  | m :: ms => (s.mounts m).root = 0 ∨ resolve s m path = none ∧ NoneResolves s path ms

/-- The path starts with the mountpoint, and every component of the rest is followed from the root of the mount. -/
def Routed (s : Vfs) (path : CString) (M n : U64) : Prop :=
  ∃ rest, path = (s.mounts M).mountpoint ++ rest ∧ (rest = [] ∨ rest.head? = some slash) ∧
    follow s.nodes (s.mounts M).root (components rest) = n

/-! ## New vnodes -/

/-- A vnode can be created under a name in a directory of files. -/
def CanCreate (nodes : U64 → Vnode) (self : U64) (name : CString) : Prop :=
  (nodes self).type = vnodeDir ∧ (nodes self).ops = some .ramfs ∧ vfsLookup nodes self name = 0

/-- There is memory for a vnode, its name and its data. -/
def Memory (A : Proc.Allocator H) (s : State H) (name : CString) : Prop :=
  let (p, mm, heap) := A.kmalloc s.mm s.heap vnodeSize
  let (q, mm, heap) := A.kmalloc mm heap (BitVec.ofNat 64 (name.length + 1))
  p ≠ 0 ∧ q ≠ 0 ∧ (A.kmalloc mm heap ramfsDataSize).1 ≠ 0

instance (A : Proc.Allocator H) (s : State H) (name : CString) : Decidable (Memory A s name) :=
  inferInstanceAs (Decidable (_ ∧ _ ∧ _))

/-- The file system over a heap that has had memory for every request so far. -/
def State.watched (s : State H) : State (H × Bool) := { toVfs := s.toVfs, mm := s.mm, heap := (s.heap, true) }

/-! ## The tree of vnodes -/

/-- The vnodes that were set up. -/
def Vfs.vnodes (s : Vfs) : Set U64 := {p | s.records p = some .vnode}

/-- The children of a vnode, in the order of their list. -/
def ChildList (s : Vfs) (p : U64) (ks : List U64) : Prop := Chain (fun n => (s.nodes n).next) 0 (s.nodes p).child ks

/-- The data of a vnode is a record of the kind that its operations take it for. -/
def HasData (s : Vfs) (v : U64) : Prop :=
  match (s.nodes v).ops with
  | none => True
  | some .ramfs => (s.nodes v).data = 0 ∨ s.records (s.nodes v).data = some .ramfsData
  | some .devfs => s.records (s.nodes v).data = some .dev

/-- The vnodes are a tree: every one but the root is once in one list of children, which is that of its parent. -/
structure WellFormed (s : Vfs) : Prop where
  reached : ∀ v ∈ s.vnodes, ∃ d, AtDepth s.nodes (s.mounts s.rootMount).root d v
  lists : ∀ p ∈ s.vnodes, ∃ ks, ChildList s p ks ∧ ∀ k ∈ ks, k ∈ s.vnodes ∧ k ≠ (s.mounts s.rootMount).root
  once : ∀ v ∈ s.vnodes, v ≠ (s.mounts s.rootMount).root → (s.nodes v).parent ∈ s.vnodes ∧
    ∀ p ∈ s.vnodes, ∀ ks, ChildList s p ks → ks.count v = if p = (s.nodes v).parent then 1 else 0
  siblings : ∀ p ∈ s.vnodes, ∀ ks, ChildList s p ks →
    ∃ names : List CString, ks.map (fun k => (s.nodes k).name) = names.map some ∧ names.Nodup
  dirs : ∀ p ∈ s.vnodes, ∀ ks, ChildList s p ks → ks ≠ [] → (s.nodes p).type = vnodeDir
  data : ∀ v ∈ s.vnodes, HasData s v

/-! ## The heap -/

/-- What a block of the heap is for: a vnode, the data of a vnode, the bytes of that data, or a control block. -/
inductive Role where
  | vnode
  | data (vnode : U64)
  | bytes (data : U64)
  | pcb
deriving DecidableEq, Repr

/-- The file system between two calls: a tree of vnodes, none of them locked, and the mounts in it. Every block in use has
one role, so that what is freed for one vnode is not part of another one. -/
structure FsInv (inUse : H → Set U64) (role : U64 → Option Role) (T : Set U64) (s : State H) : Prop where
  tree : VnodeTree s.nodes (s.mounts s.rootMount).root T
  rootMount : s.rootMount ≠ 0
  mount : (s.nodes (s.mounts s.rootMount).root).mount = s.rootMount
  mounts : ∃ later, Chain (fun m => (s.mounts m).next) 0 s.rootMount (s.rootMount :: later) ∧
    ∀ M ∈ later, (s.mounts M).root = 0 ∨ (s.mounts M).root ∈ T
  unlocked : ∀ v ∈ T, (s.nodes v).locked = false
  dirs : ∀ v ∈ T, (s.nodes v).type = vnodeDir → (s.nodes v).ops ≠ some .devfs
  devs : ∀ v ∈ T, (s.nodes v).ops = some .devfs → (s.nodes v).data ≠ 0
  vnodes : ∀ v ∈ T, role v = some .vnode
  data : ∀ v ∈ T, (s.nodes v).ops = some .ramfs → (s.nodes v).data ≠ 0 → role (s.nodes v).data = some (.data v)
  bytes : ∀ v ∈ T, (s.nodes v).ops = some .ramfs → (s.nodes v).data ≠ 0 → (s.ramfs (s.nodes v).data).data ≠ 0 →
    role (s.ramfs (s.nodes v).data).data = some (.bytes (s.nodes v).data)
  used : ∀ p, role p ≠ none → p ∈ inUse s.heap

end ShadowOS.Fs
