import ShadowOS.Base.Bytes

/-!
# Strings (`lib/memory.c`)

A C string is the list of the bytes before its terminating zero.
-/

namespace ShadowOS

abbrev CString := List U8

def slash : U8 := 47

/-- The string at an address, which ends at the first zero. -/
def readString (m : Mem) : Nat → U64 → CString
  | 0, _ => []
  | fuel + 1, p => if m p = 0 then [] else m p :: readString m fuel (p + 1)

/-- The loop of `strrchr`: `i` bytes were read, and `last` is the last index found so far. -/
def strrchrFrom (c : U8) : Nat → Option Nat → CString → Option Nat
  | _, last, [] => last
  | i, last, b :: bs => strrchrFrom c (i + 1) (if b = c then some i else last) bs

/-- The index of the last occurrence of a byte. -/
def strrchr (str : CString) (c : U8) : Option Nat := strrchrFrom c 0 none str

/-! ## Tokens -/

/-- The loop of `strspn` and `strcspn`: the bytes that pass the test, up to the end of the string. -/
def spanLength (m : Mem) (test : U8 → Bool) : Nat → U64 → Nat
  | 0, _ => 0
  | fuel + 1, p => if m p ≠ 0 ∧ test (m p) then spanLength m test fuel (p + 1) + 1 else 0

def strspn (m : Mem) (s : U64) (accept : CString) : Nat := spanLength m (fun b => b ∈ accept) (2 ^ 64) s

def strcspn (m : Mem) (s : U64) (reject : CString) : Nat := spanLength m (fun b => b ∉ reject) (2 ^ 64) s

/-- The token or null, the memory in which its end was marked, and the pointer that is kept for the next call. -/
def strtok (m : Mem) (last str : U64) (delim : CString) : U64 × Mem × U64 :=
  let str := if str = 0 then last else str
  if str = 0 then (0, m, last)
  else
    let str := str + BitVec.ofNat 64 (strspn m str delim)
    if m str = 0 then (0, m, last)
    else
      let stop := str + BitVec.ofNat 64 (strcspn m str delim)
      if m stop ≠ 0 then (str, Function.update m stop 0, stop + 1) else (str, m, stop)

def strlen (m : Mem) (s : U64) : Nat := spanLength m (fun _ => true) (2 ^ 64) s

/-- The loop of `strpbrk`. -/
def strpbrkFrom (m : Mem) (accept : CString) : Nat → U64 → U64
  | 0, _ => 0
  | fuel + 1, s => if m s = 0 then 0 else if m s ∈ accept then s else strpbrkFrom m accept fuel (s + 1)

def strpbrk (m : Mem) (s : U64) (accept : CString) : U64 := strpbrkFrom m accept (2 ^ 64) s

/-- The token or null, the memory in which its end was marked, and what is stored through `saveptr`. -/
def strtokR (m : Mem) (save str : U64) (delim : CString) : U64 × Mem × U64 :=
  let str := if str = 0 then save else str
  if str = 0 then (0, m, save)
  else
    let str := str + BitVec.ofNat 64 (strspn m str delim)
    if m str = 0 then (0, m, str)
    else
      let tokenEnd := strpbrk m str delim
      if tokenEnd = 0 then (str, m, str + BitVec.ofNat 64 (strlen m str))
      else (str, Function.update m tokenEnd 0, tokenEnd + 1)

/-! ## Substrings -/

/-- The inner loop of `strstr`: the bytes of the needle are at `h`. -/
def matchesAt (m : Mem) : U64 → CString → Bool
  | _, [] => true
  | h, b :: needle => m h ≠ 0 && m h = b && matchesAt m (h + 1) needle

def strstrFrom (m : Mem) (needle : CString) : Nat → U64 → U64
  | 0, _ => 0
  | fuel + 1, haystack =>
      if m haystack = 0 then 0
      else if matchesAt m haystack needle then haystack
      else strstrFrom m needle fuel (haystack + 1)

/-- The first place where the needle occurs, or null. -/
def strstr (m : Mem) (haystack : U64) (needle : CString) : U64 :=
  if needle = [] then haystack else strstrFrom m needle (2 ^ 64) haystack

/-! ## Numbers -/

def longMax : Int := 2 ^ 63 - 1
def longMin : Int := -2 ^ 63

def isSpace (c : U8) : Bool := c = 32 || c = 9 || c = 10 || c = 13 || c = 12 || c = 11

def digitValue (c : U8) : Option Nat :=
  if 48 ≤ c ∧ c ≤ 57 then some (c.toNat - 48)
  else if 97 ≤ c ∧ c ≤ 122 then some (c.toNat - 97 + 10)
  else if 65 ≤ c ∧ c ≤ 90 then some (c.toNat - 65 + 10)
  else none

/-- The loop over the digits. -/
def strtolFrom (base : Nat) (sign : Int) : Int → CString → Int
  | result, [] => result * sign
  | result, c :: cs =>
      match digitValue c with
      | none => result * sign
      | some digit =>
          if base ≤ digit then result * sign
          else if longMax / base < result ∨ result = longMax / base ∧ longMax % base < digit then
            if sign = 1 then longMax else longMin
          else strtolFrom base sign (result * base + digit) cs

/-- The two bytes "0x" or "0X" are at the start. -/
def startsHex (s : CString) : Bool := s.head? = some 48 && (s[1]? = some 120 || s[1]? = some 88)

def strtol (str : CString) (base : Nat) : Int :=
  let s := str.dropWhile isSpace
  let sign : Int := if s.head? = some 45 then -1 else 1
  let s := if s.head? = some 45 ∨ s.head? = some 43 then s.tail else s
  if base = 0 then
    if s.head? = some 48 then if startsHex s then strtolFrom 16 sign 0 (s.drop 2) else strtolFrom 8 sign 0 s.tail
    else strtolFrom 10 sign 0 s
  else if base = 16 ∧ startsHex s then strtolFrom 16 sign 0 (s.drop 2)
  else strtolFrom base sign 0 s

end ShadowOS
