import ShadowOS.Base.Intervals
import ShadowOS.Base.Linked
import ShadowOS.Base.Run
import ShadowOS.Mm.Liballoc

/-!
# What the kernel heap should do

A heap is a list of areas with blocks in them. The memory represents it when the headers say the same, and a client of the
heap sees no more of it than pointers and the bytes behind them.
-/

namespace ShadowOS.Mm

variable {P : Type}

/-! ## Runs of pages -/

/-- The address and the number of pages. -/
abbrev PageRun := U64 × U32

namespace PageRun

def start (r : PageRun) : Nat := r.1.toNat
def stop (r : PageRun) : Nat := r.1.toNat + r.2.toNat * 4096

/-- The two runs share no byte. -/
def Apart (r r' : PageRun) : Prop := r.stop ≤ r'.start ∨ r'.stop ≤ r.start

end PageRun

/-- What the heap needs of its source of pages: a new run is apart from those that are held, and the bytes of a run
stay as they are as long as it is held. -/
structure PageSource.Ok (S : PageSource P) (held : P → Set PageRun) : Prop where
  failed : ∀ {p p' : P} {m m' : Mem} {n : U32}, S.liballocAlloc p m n = (0, p', m') →
    held p' = held p ∧ ∀ r ∈ held p, m.Agree m' r.start r.stop
  alloc : ∀ {p p' : P} {m m' : Mem} {n : U32} {a : U64}, S.liballocAlloc p m n = (a, p', m') → a ≠ 0 →
    held p' = insert (a, n) (held p) ∧ PageRun.stop (a, n) ≤ 2 ^ 64 ∧
      ∀ r ∈ held p, r.Apart (a, n) ∧ m.Agree m' r.start r.stop
  free : ∀ {p p' : P} {m m' : Mem} {n : U32} {a : U64}, (a, n) ∈ held p → S.liballocFree p m a n = (p', m') →
    held p' = held p \ {(a, n)} ∧ ∀ r ∈ held p', m.Agree m' r.start r.stop

/-! ## Areas and blocks -/

/-- A block with its header. -/
structure Block where
  addr : U64
  size : U32
  reqSize : U32
deriving DecidableEq, Repr

namespace Block

def start (b : Block) : Nat := b.addr.toNat
def stop (b : Block) : Nat := b.addr.toNat + 40 + b.size.toNat

/-- The pointer that the client has. -/
def ptr (b : Block) : U64 := alignPtr (b.addr + headerSize)

/-- How far the pointer is from the end of the header. -/
def note (b : Block) : U8 := (alignDiff (b.addr + headerSize + 16) + 16).setWidth 8

/-- The header says what the block is. -/
structure Ok (m : Mem) (maj : U64) (b : Block) : Prop where
  block : (Minor.layout.load m b.addr).block = maj
  magic : (Minor.layout.load m b.addr).magic = liballocMagic
  size : (Minor.layout.load m b.addr).size = b.size
  reqSize : (Minor.layout.load m b.addr).reqSize = b.reqSize
  note : m (b.ptr - 16) = b.note

end Block

/-- A run of pages with the blocks in it, in the order of their addresses. -/
structure Area where
  addr : U64
  pages : U32
  blocks : List Block
deriving DecidableEq, Repr

namespace Area

def run (A : Area) : PageRun := (A.addr, A.pages)

def start (A : Area) : Nat := A.run.start
def stop (A : Area) : Nat := A.run.stop
def bytes (A : Area) : Nat := A.pages.toNat * 4096

/-- What the headers and the blocks take up. -/
def used (A : Area) : Nat := 40 + (A.blocks.map fun b => 40 + b.size.toNat).sum

/-- The blocks lie behind the header one after the other, and each of them has room for the alignment. -/
structure Fits (A : Area) : Prop where
  start_pos : 0 < A.start
  stop_le : A.stop ≤ 2 ^ 64
  min_pages : 16 ≤ A.pages.toNat
  max_pages : A.pages.toNat < 2 ^ 20
  laid : Laid Block.start Block.stop (A.start + 40) A.stop A.blocks
  room : ∀ b ∈ A.blocks, b.reqSize.toNat + 32 ≤ b.size.toNat

/-- The headers of the area and its blocks say what they are. -/
structure Ok (m : Mem) (A : Area) : Prop where
  fits : A.Fits
  pages : (Major.layout.load m A.addr).pages = A.pages
  size : (Major.layout.load m A.addr).size = A.pages * liballocPageSize
  usage : (Major.layout.load m A.addr).usage = BitVec.ofNat 32 A.used
  linked : Linked (fun b => (Minor.layout.load m b).next) (fun b => (Minor.layout.load m b).prev) 0
    (Major.layout.load m A.addr).first (A.blocks.map Block.addr)
  blocks : ∀ b ∈ A.blocks, b.Ok m A.addr

end Area

/-- The blocks of all areas. -/
def live (areas : List Area) : List Block := areas.flatMap Area.blocks

/-- The heap consists of these areas. -/
structure Heap.Rep (held : P → Set PageRun) (h : Heap P) (areas : List Area) : Prop where
  linked : Linked (fun a => (h.major a).next) (fun a => (h.major a).prev) 0 h.memRoot (areas.map Area.addr)
  ok : ∀ A ∈ areas, A.Ok h.mem
  apart : (areas.map Area.run).Pairwise PageRun.Apart
  best : h.bestBet = 0 ∨ h.bestBet ∈ areas.map Area.addr
  allocated : h.allocated = BitVec.ofNat 64 (areas.map Area.bytes).sum
  inuse : h.inuse = BitVec.ofNat 64 ((live areas).map fun b => b.size.toNat).sum
  held : held h.pages = {r | r ∈ areas.map Area.run}

/-- The page source has no pages for a block of this size. -/
def Heap.Refused (S : PageSource P) (h : Heap P) (reqSize : U64) : Prop :=
  (S.liballocAlloc h.pages h.mem (pagesFor ((reqSize + (16 + 16)).setWidth 32))).1 = 0

/-- These bytes lie in a run of pages that is held. -/
def Heap.Holds (held : P → Set PageRun) (h : Heap P) (p : U64) (n : Nat) : Prop :=
  ∃ r ∈ held h.pages, r.start ≤ p.toNat ∧ p.toNat + n ≤ r.stop

/-- `l_allocated` is the size of the pages that are held. -/
def Heap.Counted (held : P → Set PageRun) (h : Heap P) : Prop :=
  ∃ runs : List PageRun, runs.Nodup ∧ held h.pages = {r | r ∈ runs} ∧
    h.allocated.toNat = (runs.map fun r => r.stop - r.start).sum

/-! ## Clients -/

/-- The largest request that the 32-bit sizes of the headers can express. -/
def maxRequest : Nat := 2 ^ 32 - 4208

/-- What a client does, which knows its blocks by number. -/
inductive HeapOp where
  | malloc (n : U64)
  | calloc (nobj size : U64)
  | free (i : Nat)
  | realloc (i : Nat) (n : U64)
  | write (i j : Nat) (v : U8)
deriving DecidableEq, Repr

/-- No request is too large. -/
def HeapOp.Bounded : HeapOp → Prop
  | .malloc n => n.toNat ≤ maxRequest
  | .calloc nobj size => nobj.toNat * size.toNat < 2 ^ 31
  | .free _ => True
  | .realloc _ n => n.toNat ≤ maxRequest
  | .write _ _ _ => True

/-- The request of a call that stores something in the new block at once. -/
def HeapOp.stores : HeapOp → Option U64
  | .malloc _ => none
  | .calloc nobj size => some (nobj * size)
  | .free _ => none
  | .realloc _ n => some n
  | .write _ _ _ => none

instance HeapOp.decidableBounded : ∀ op : HeapOp, Decidable op.Bounded
  | .malloc _ => inferInstanceAs (Decidable (_ ≤ _))
  | .calloc _ _ => inferInstanceAs (Decidable (_ < _))
  | .free _ => isTrue trivial
  | .realloc _ _ => inferInstanceAs (Decidable (_ ≤ _))
  | .write _ _ _ => isTrue trivial

/-- The heap, and what the client should find behind its pointers. -/
structure Client (P : Type) where
  heap : Heap P
  blocks : List (U64 × List U8)

namespace Client

/-- The bytes of a new block are what the client finds there; otherwise they are those that it has written itself, or
zeros from `kcalloc`. -/
def exec (S : PageSource P) (c : Client P) : HeapOp → Except HeapFault (Client P)
  | .malloc n => do
      let (p, h) ← kmalloc S c.heap n
      .ok (if p = 0 then ⟨h, c.blocks⟩ else ⟨h, (p, h.mem.bytes p n.toNat) :: c.blocks⟩)
  | .calloc nobj size => do
      let (p, h) ← kcalloc S c.heap nobj size
      .ok (if p = 0 then ⟨h, c.blocks⟩ else ⟨h, (p, List.replicate (nobj.toNat * size.toNat) 0) :: c.blocks⟩)
  | .free i =>
      match c.blocks[i]? with
      | none => .ok c
      | some (p, _) => .ok ⟨kfree S c.heap p, c.blocks.eraseIdx i⟩
  | .realloc i n =>
      match c.blocks[i]? with
      | none => .ok c
      | some (p, data) => do
          let (q, h) ← krealloc S c.heap p n
          .ok (if q = 0 then ⟨h, c.blocks.eraseIdx i⟩
            else ⟨h, (q, data.take n.toNat ++ (h.mem.bytes q n.toNat).drop data.length) :: c.blocks.eraseIdx i⟩)
  | .write i j v =>
      match c.blocks[i]? with
      | none => .ok c
      | some (p, data) =>
          if j < data.length then
            .ok ⟨{ c.heap with mem := Function.update c.heap.mem (p + BitVec.ofNat 64 j) v }, c.blocks.set i (p, data.set j v)⟩
          else .ok c

def step (S : PageSource P) (c : Client P) (op : HeapOp) : Option (Client P) := (c.exec S op).toOption

/-- Every block is aligned, lies in pages that are held, holds what it should, and is apart from the others. -/
structure Sound (held : P → Set PageRun) (c : Client P) : Prop where
  aligned : ∀ b ∈ c.blocks, b.1 ≠ 0 ∧ b.1.toNat % 16 = 0
  inside : ∀ b ∈ c.blocks, c.heap.Holds held b.1 b.2.length
  holds : ∀ b ∈ c.blocks, c.heap.mem.bytes b.1 b.2.length = b.2
  apart : c.blocks.Pairwise fun b b' => b.1 ≠ b'.1 ∧
    (b.1.toNat + b.2.length ≤ b'.1.toNat ∨ b'.1.toNat + b'.2.length ≤ b.1.toNat)

/-- The counters say how many bytes are held and how many of them the blocks take up. Without a block nothing is held. -/
structure Accounted (held : P → Set PageRun) (c : Client P) : Prop where
  inuse_ge : (c.blocks.map fun b => b.2.length + 32).sum ≤ c.heap.inuse.toNat
  inuse_le : c.heap.inuse.toNat ≤ c.heap.allocated.toNat
  allocated : c.heap.Counted held
  empty : c.blocks = [] → held c.heap.pages = ∅ ∧ c.heap.memRoot = 0 ∧ c.heap.bestBet = 0 ∧ c.heap.allocated = 0 ∧
    c.heap.inuse = 0

end Client

end ShadowOS.Mm
