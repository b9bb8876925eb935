import ShadowOS.Base.Run
import ShadowOS.Fs.Init
import ShadowOS.Fs.Spec
import ShadowOS.Lib.Tokens

/-!
# What the loop over an archive should do

One turn of the loop as a step, how far it gets and which bytes it reads.
-/

namespace ShadowOS.Fs

variable {H : Type} (A : Proc.Allocator H)

/-! ## Turns of the loop -/

/-- A turn of the loop, with the offset of its header; `none` when the loop is left. -/
def ustarTurn (root data size : U64) (s : Unpacking H × U64) (_ : Unit) : Option (Unpacking H × U64) :=
  let (u, offset) := s
  let header := data + offset
  if size ≤ offset then none
  else if u.archive header = 0 then none
  else
    match ustarEntry A root u header with
    | .error _ => none
    | .ok u' => some (u', offset + (ustarAdvance (u.fileSize header)).setWidth 64)

/-- A turn that does not leave the loop brings the offset forward. -/
def Progress (root data size : U64) (s : Unpacking H × U64) (_ : Unit) : Prop :=
  ∀ s', ustarTurn A root data size s () = some s' → s.2 < s'.2

/-- A turn that does not leave the loop has no file of 2³² - 1023 to 2³² - 512 bytes, and the offset of the next header is a
64-bit number. -/
def Advances (root data size : U64) (s : Unpacking H × U64) (_ : Unit) : Prop :=
  ustarTurn A root data size s () ≠ none →
    let n := (s.1.fileSize (data + s.2)).toNat
    ¬ (2 ^ 32 - 1024 < n ∧ n ≤ 2 ^ 32 - 512) ∧ s.2.toNat + (512 + (n + 511) % 2 ^ 32 / 512 * 512) < 2 ^ 64

/-! ## Bytes that are read -/

/-- The digits that `strtol` takes. -/
def digitsLength (base : Nat) : Int → CString → Nat
  | _, [] => 0
  | result, c :: cs =>
      match digitValue c with
      | none => 0
      | some digit =>
          if base ≤ digit then 0
          else if longMax / base < result ∨ result = longMax / base ∧ longMax % base < digit then 0
          else digitsLength base (result * base + digit) cs + 1

/-- The bytes that `strtol` goes past, for a base other than 0 and 16. It reads one more. -/
def strtolLength (base : Nat) : CString → Nat
  | [] => 0
  | c :: cs =>
      if isSpace c then strtolLength base cs + 1
      else if c = 45 ∨ c = 43 then digitsLength base 0 cs + 1
      else digitsLength base 0 (c :: cs)

/-- The addresses from `p` to `p + n`. -/
def addressSpan (p : U64) (n : Nat) : List U64 := (List.range (n + 1)).map fun i => p + BitVec.ofNat 64 i

namespace Unpacking

variable (u : Unpacking H)

/-- The bytes that are read for a number in octal digits. -/
def fieldReads (p : U64) : List U64 := addressSpan p (strtolLength 8 (u.string p))

/-- The bytes of a string, with the zero at its end. -/
def stringReads (p : U64) : List U64 := addressSpan p (u.string p).length

end Unpacking

/-- The mode and the time of a new directory. -/
def ustarDirReads (u : Unpacking H) (header parent : U64) (name : CString) : List U64 :=
  match vfsCreateVnode A u.fs parent name vnodeDir with
  | .error _ => []
  | .ok (node, _) => if node = 0 then [] else u.fieldReads (header + 100) ++ u.fieldReads (header + 136)

/-- The contents, the mode and the time of a new file. -/
def ustarFileReads (u : Unpacking H) (header parent : U64) (name : CString) (fileSize : U32) : List U64 :=
  match vfsCreateVnode A u.fs parent name vnodeFile with
  | .error _ => []
  | .ok (file, fs) =>
      if file = 0 then []
      else
        let (data, fs) := fs.kmalloc A ramfsDataSize
        if data = 0 then []
        else if (fs.kmallocBlock A (fileSize.setWidth 64)).1 = 0 then []
        else ((List.range fileSize.toNat).map fun i => header + 512 + BitVec.ofNat 64 i) ++
          (u.fieldReads (header + 100) ++ u.fieldReads (header + 136))

def ustarWalkReads (header : U64) (dir : Bool) : Nat → Unpacking H → U64 → U64 → List U64
  | 0, _, _, _ => []
  | fuel + 1, u, parent, token =>
      if token = 0 then []
      else if parent = 0 then []
      else
        let subdir := vfsLookup u.fs.nodes parent (u.string token)
        if subdir ≠ 0 then ustarWalkReads header dir fuel (u.strtok 0).2 subdir (u.strtok 0).1
        else if dir then ustarDirReads A u header parent (u.string token)
        else []

/-- The bytes of the archive that a turn reads. The tokens of a name are bytes of the name, and are not listed again. -/
def ustarReads (root data size : U64) (s : Unpacking H × U64) : List U64 :=
  let (u, offset) := s
  let header := data + offset
  let name := u.name header
  if size ≤ offset then []
  else if u.archive header = 0 then [header]
  else
    [header, header + 156] ++ u.fieldReads (header + 124) ++ (if u.archive header = 46 then [header + 1] else []) ++
      u.stringReads name ++
      if u.string name = [] ∨ u.string name = [46] then []
      else
        -- the trace message has the mode
        u.fieldReads (header + 100) ++
          let (token, u₁) := u.strtok name
          ustarWalkReads A header (u.dir header) maxBytes u₁ root token ++
            match ustarWalk A header (u.dir header) maxBytes u₁ root token with
            | .error _ => []
            | .ok (u₂, parent, token) =>
                if u.dir header then []
                else
                  let (filename, u₃) := u₂.strtok token
                  if filename ≠ 0 ∧ u₃.string filename ≠ [] then
                    ustarFileReads A u₃ header parent (u₃.string filename) (u.fileSize header)
                  else []

/-- The header, its text fields with what ends them, and the contents of a file are inside the archive. -/
structure EntryInside (data size : U64) (s : Unpacking H × U64) : Prop where
  header : s.2.toNat + 512 ≤ size.toNat
  name : s.2.toNat + (s.1.string (data + s.2)).length < size.toNat
  fields : ∀ d ∈ [100, 124, 136], s.2.toNat + d + strtolLength 8 (s.1.string (data + s.2 + BitVec.ofNat 64 d)) < size.toNat
  contents : s.1.dir (data + s.2) = true ∨ s.2.toNat + 512 + (s.1.fileSize (data + s.2)).toNat ≤ size.toNat

/-- Every byte that a turn reads has an index below the size. -/
def ReadsInside (root data size : U64) (s : Unpacking H × U64) : Prop :=
  ∀ p ∈ ustarReads A root data size s, p - data < size

/-! ## Places -/

/-- The components of the name of an entry. -/
def Unpacking.path (u : Unpacking H) (header : U64) : List CString := tokens (u.string (u.name header))

/-- The string at the header ends before the last address. -/
structure NameEnds (u : Unpacking H) (header : U64) : Prop where
  nonnull : header ≠ 0
  stop : header.toNat + (u.string header).length < 2 ^ 64

/-- The name ends inside its field, and the header is in memory. -/
structure NameFits (u : Unpacking H) (header : U64) : Prop where
  nonnull : header ≠ 0
  inside : header.toNat + 512 ≤ 2 ^ 64
  short : (u.string header).length < 100

/-- Where following the names stops: the directory, the name that is not in it, and the names after that. -/
def stuck (nodes : U64 → Vnode) : U64 → List CString → Option (U64 × CString × List CString)
  | _, [] => none
  | n, c :: cs => if vfsLookup nodes n c = 0 then some (n, c, cs) else stuck nodes (vfsLookup nodes n c) cs

/-- Every directory of a path is at its place, those that were missing are directories, and all else is where it was. -/
structure DirPlaced (nodes nodes' : U64 → Vnode) (root : U64) (cs : List CString) : Prop where
  there : ∀ i ≤ cs.length, follow nodes' root (cs.take i) ≠ 0
  new : ∀ i ≤ cs.length, follow nodes root (cs.take i) = 0 → (nodes' (follow nodes' root (cs.take i))).type = vnodeDir
  kept : ∀ ps, follow nodes root ps ≠ 0 → follow nodes' root ps = follow nodes root ps

/-- A path that leads to something new is the path of the file. -/
def FilePlaced (nodes nodes' : U64 → Vnode) (root : U64) (cs : List CString) : Prop :=
  ∀ ps, follow nodes root ps = 0 → follow nodes' root ps ≠ 0 → ps = cs

/-- The file system after an entry, unless the kernel stops. -/
def fsAfter : Except (Leave H) (Unpacking H) → Option (State H)
  | .ok u => some u.fs
  | .error (.ret fs) => some fs
  | .error (.stop _) => none

/-- A directory is created with all that is missing above it; a file is created at its path, or nothing is. -/
def EntryPlaced (root : U64) (u : Unpacking H) (header : U64) : Prop :=
  if u.dir header then ∃ u', ustarEntry A root u header = .ok u' ∧ DirPlaced u.fs.nodes u'.fs.nodes root (u.path header)
  else ∃ fs', fsAfter (ustarEntry A root u header) = some fs' ∧ FilePlaced u.fs.nodes fs'.nodes root (u.path header)

/-- Of the components of a directory only the last one is missing, and it can be created; of those of a file only the last one
is missing, or nothing can be created. -/
def EntryFits (root : U64) (u : Unpacking H) (header : U64) : Prop :=
  ∀ n c rest, stuck u.fs.nodes root (u.path header) = some (n, c, rest) →
    if u.dir header then rest = [] ∧ CanCreate u.fs.nodes n c ∧ Memory A u.fs c
    else CanCreate u.fs.nodes n c → Memory A u.fs c → rest = []

/-- The turn has an entry with a name other than ".". -/
def HasEntry (data size : U64) (s : Unpacking H × U64) : Prop :=
  s.2 < size ∧ s.1.archive (data + s.2) ≠ 0 ∧ NameFits s.1 (data + s.2) ∧ s.1.path (data + s.2) ≠ [] ∧
    s.1.string (s.1.name (data + s.2)) ≠ [46]

/-! ## Paths of the format -/

/-- The name field and the prefix field, each up to its first zero. -/
def Unpacking.nameField (u : Unpacking H) (header : U64) : CString := readString u.archive 100 header

def Unpacking.prefixField (u : Unpacking H) (header : U64) : CString := readString u.archive 155 (header + 345)

def withoutDot (path : CString) : CString := if path.take 2 = [46, slash] then path.drop 2 else path

/-- The path of an entry, by the format. -/
def Unpacking.formatPath (u : Unpacking H) (header : U64) : CString :=
  withoutDot (if u.prefixField header = [] then u.nameField header else u.prefixField header ++ slash :: u.nameField header)

/-- The path that the loop takes apart is the one of the format, and none of its bytes are from the fields after the name. -/
structure FollowsFormat (u : Unpacking H) (header : U64) : Prop where
  path : u.string (u.name header) = u.formatPath header
  inField : (u.string header).length ≤ 100

/-- A header as it is written: there is a name, and the mode is octal digits and a zero. -/
structure Header (u : Unpacking H) (header : U64) : Prop where
  nonnull : header ≠ 0
  inside : header.toNat + 512 ≤ 2 ^ 64
  name : u.nameField header ≠ []
  mode : ∃ digits, StringAt u.archive (header + 100) digits ∧ digits.length < 8 ∧ ∀ b ∈ digits, 48 ≤ b ∧ b ≤ 55

/-- The prefix is empty, or it is "." before a name without a "./" of its own; and a zero ends the name. -/
def PlainName (u : Unpacking H) (header : U64) : Prop :=
  (u.prefixField header = [] ∨ u.prefixField header = [46] ∧ (u.nameField header).take 2 ≠ [46, slash]) ∧
    ((u.nameField header).length < 100 ∨ u.archive (header + 100) = 0)

/-- After the entry something new is at a path, and nowhere else. -/
def PlacedAt (root : U64) (u : Unpacking H) (header : U64) (path : CString) : Prop :=
  ∃ fs', fsAfter (ustarEntry A root u header) = some fs' ∧ follow u.fs.nodes root (tokens path) = 0 ∧
    follow fs'.nodes root (tokens path) ≠ 0 ∧ FilePlaced u.fs.nodes fs'.nodes root (tokens path)

end ShadowOS.Fs
