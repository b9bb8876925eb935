import ShadowOS.Base.Copy
import ShadowOS.Lib.Fields

/-!
# Bytes and copies (`lib/memory.c`)

A function that returns its destination returns it beside the memory.
-/

namespace ShadowOS

/-- `while (n--) *d++ = *s++`. -/
def copyUp : Nat → Mem → U64 → U64 → Mem
  | 0, m, _, _ => m
  | n + 1, m, d, s => copyUp n (Function.update m d (m s)) (d + 1) (s + 1)

/-- `while (n--) *(--d) = *(--s)`. -/
def copyDown : Nat → Mem → U64 → U64 → Mem
  | 0, m, _, _ => m
  | n + 1, m, d, s => copyDown n (Function.update m (d - 1) (m (s - 1))) (d - 1) (s - 1)

/-- `while (n--) *p++ = c`. -/
def setBytes (c : U8) : Nat → Mem → U64 → Mem
  | 0, m, _ => m
  | n + 1, m, p => setBytes c n (Function.update m p c) (p + 1)

/-- `while (n && (*d++ = *src++)) n--`: what is left of `n`, the memory and `d`. The byte that ends the loop is stored, too,
and is not counted. The loop `while (n-- && (*d++ = *src++))` does the same, and its `n` is not used any more. -/
def copyChars : Nat → Mem → U64 → U64 → Nat × Mem × U64
  | 0, m, d, _ => (0, m, d)
  | n + 1, m, d, src =>
      let b := m src
      let m := Function.update m d b
      if b = 0 then (n + 1, m, d + 1) else copyChars n m (d + 1) (src + 1)

def memcpy (m : Mem) (dest src n : U64) : U64 × Mem := (dest, copyUp n.toNat m dest src)

/-- The byte is the low one of an `int`. -/
def memset (m : Mem) (s : U64) (c : U32) (n : U64) : U64 × Mem := (s, setBytes (c.setWidth 8) n.toNat m s)

def memmove (m : Mem) (dest src n : U64) : U64 × Mem :=
  if dest < src then (dest, copyUp n.toNat m dest src)
  else (dest, copyDown n.toNat m (dest + n) (src + n))

def strncpy (m : Mem) (dest src n : U64) : U64 × Mem :=
  let (left, m, d) := copyChars n.toNat m dest src
  (dest, setBytes 0 left m d)

def strncat (m : Mem) (dest src n : U64) : U64 × Mem :=
  let d := dest + BitVec.ofNat 64 (strlen m dest)
  let (_, m, d) := copyChars n.toNat m d src
  (dest, Function.update m d 0)

/-- `copy` is what `kmalloc(len + 1)` returned. -/
def strndup (m : Mem) (copy s n : U64) : U64 × Mem :=
  let len := BitVec.ofNat 64 (strlen m s)
  let len := if n < len then n else len
  if copy = 0 then (copy, m)
  else
    let (_, m) := strncpy m copy s len
    (copy, Function.update m (copy + len) 0)

end ShadowOS
