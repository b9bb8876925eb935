import ShadowOS.Base.Run
import ShadowOS.Lib.Fields

/-!
# strtok and strtok_r
-/

namespace ShadowOS

variable {m m₀ : Mem} {last save s : U64} {t u d : CString}

/-! ## The fields of a string -/

/-- `strtok_r(s, d, &p)`, and then `n` times `strtok_r(NULL, d, &p)`. -/
def strtokRCalls (d : CString) (n : Nat) (m : Mem) (save s : U64) : List U64 × Mem × U64 :=
  let (token, m, save) := strtokR m save s d
  let (tokens, m, save) := callsOf (fun m save => strtokR m save 0 d) n m save
  (token :: tokens, m, save)

/-- The first call leaves nothing of what `p` was before. -/
theorem strtokRCalls_eq (h0 : s ≠ 0) (n : Nat) :
    strtokRCalls d n m save s = callsOf (fun m save => strtokR m save 0 d) (n + 1) m s := by
  have hfirst : strtokR m save s d = strtokR m s 0 d := by
    simp only [strtokR, h0, ↓reduceIte]
  rw [strtokRCalls, callsOf, hfirst]

/-- The calls of `strtok_r` return exactly the fields of the string, in order and each ended by a zero, and null ever
after. -/
theorem strtokR_returns_fields (d : CString) (save : U64) (h : StringAt m s t) (h0 : s ≠ 0)
    (hwrap : s.toNat + t.length < 2 ^ 64) :
    ∃ fields : List (Nat × CString), fields.Pairwise (fun f g => f.1 < g.1) ∧
      (∀ i c, (i, c) ∈ fields ↔ IsField d t i c) ∧
      ∀ n, ∃ m' save', strtokRCalls d n m save s =
          ((fields.map fun f => s + BitVec.ofNat 64 f.1).take (n + 1) ++ List.replicate (n + 1 - fields.length) 0, m', save') ∧
        ∀ f ∈ fields.take (n + 1), StringAt m' (s + BitVec.ofNat 64 f.1) f.2 := by
  obtain ⟨fields, hsorted, hmem, hcalls⟩ := exists_fields d h h0 hwrap
  refine ⟨fields, hsorted, hmem, fun n => ?_⟩
  obtain ⟨m', save', he, hstrings, _⟩ := hcalls (strtokR_tokenizer d) (n + 1)
  exact ⟨m', save', (strtokRCalls_eq h0 n).trans he, hstrings⟩

/-- The string ",a;,bc" at the address 16. -/
def sampleText : Mem := fun p => [44, 97, 59, 44, 98, 99].getD (p.toNat - 16) 0

theorem strtokR_returns_fields_sample :
    ∃ fields : List (Nat × CString), (∀ i c, (i, c) ∈ fields ↔ IsField [44, 59] [44, 97, 59, 44, 98, 99] i c) ∧
      fields.Pairwise (fun f g => f.1 < g.1) ∧ ∀ n, ∃ m' save', strtokRCalls [44, 59] n sampleText 0 16 =
          ((fields.map fun f => 16 + BitVec.ofNat 64 f.1).take (n + 1) ++ List.replicate (n + 1 - fields.length) 0, m', save') := by
  have h : StringAt sampleText 16 [44, 97, 59, 44, 98, 99] := by decide
  obtain ⟨fields, hsorted, hmem, hcalls⟩ := strtokR_returns_fields [44, 59] 0 h (by decide) (by decide)
  refine ⟨fields, hmem, hsorted, fun n => ?_⟩
  obtain ⟨m', save', he, _⟩ := hcalls n
  exact ⟨m', save', he⟩

/-! ## The static pointer -/

/-- `strtok(s, d)`, and then `n` times `strtok(NULL, d)`. -/
def strtokCalls (d : CString) (n : Nat) (m : Mem) (last s : U64) : List U64 × Mem × U64 :=
  let (token, m, last) := strtok m last s d
  let (tokens, m, last) := callsOf (fun m last => strtok m last 0 d) n m last
  (token :: tokens, m, last)

/-- After `strtok(s, d)` the calls with a null pointer return what `strtok_r` returns, and only parts of the string `t` at
`s`. -/
structure FreshTokens (m : Mem) (last s : U64) (t d : CString) : Prop where
  same : ∀ n save, (strtokCalls d n m last s).1 = (strtokRCalls d n m save s).1
  inside : ∀ n, ∀ token ∈ (strtokCalls d n m last s).1, token = 0 ∨
    ∃ i c, token = s + BitVec.ofNat 64 i ∧ c ≠ [] ∧ c <+: t.drop i ∧ StringAt (strtokCalls d n m last s).2.1 token c

/-- The new string has a field, or the pointer that `strtok` keeps leads to none. -/
def NoneKept (m : Mem) (last : U64) (t d : CString) : Prop :=
  (∃ b ∈ t, b ∉ d) ∨ last = 0 ∨ m (last + BitVec.ofNat 64 (strspn m last d)) = 0

instance (m : Mem) (last : U64) (t d : CString) : Decidable (NoneKept m last t d) := inferInstanceAs (Decidable (_ ∨ _ ∨ _))

/-- A string that ends is at the address. -/
def Terminated (m : Mem) (s : U64) : Prop := ∃ t, StringAt m s t ∧ s.toNat + t.length < 2 ^ 64

structure StrtokCall where
  str : U64
  delim : CString
deriving DecidableEq, Repr

namespace StrtokCall

/-- The memory and the static pointer after a call. -/
def exec (st : Mem × U64) (call : StrtokCall) : Option (Mem × U64) := some (strtok st.1 st.2 call.str call.delim).2

/-- The argument is null or a string. -/
def Valid (st : Mem × U64) (call : StrtokCall) : Prop := call.str = 0 ∨ Terminated st.1 call.str

end StrtokCall

/-- The static pointer is null or at a string. -/
def KeepsString (st : Mem × U64) : Prop := st.2 = 0 ∨ Terminated st.1 st.2

/-- A call on a string leaves the pointer at a string. -/
theorem Terminated.strtok (d : CString) (hs : Terminated m s) (h0 : s ≠ 0) (hlast : KeepsString (m, last)) :
    KeepsString (strtok m last s d).2 := by
  obtain ⟨t, ht, hwrap⟩ := hs
  rcases cut_or_none d t with hall | ⟨gap, c, rest, hcut⟩
  · rw [strtok_none last ht h0 (by omega) hall]
    exact hlast
  · have hleft := hcut.left_toNat hwrap
    rw [strtok_field ht h0 hwrap hcut last]
    exact .inr ⟨rest.tail, hcut.left_stringAt ht hwrap, hleft.trans_lt hwrap⟩

theorem KeepsString.step {st st' : Mem × U64} {call : StrtokCall} (h : KeepsString st) (hv : call.Valid st)
    (he : call.exec st = some st') : KeepsString st' := by
  cases he
  by_cases hstr : call.str = 0
  · rw [hstr, strtok_null]
    rcases h with h | h
    · rw [h]
      exact .inl rfl
    · by_cases hlast : st.2 = 0
      · rw [hlast]
        exact .inl rfl
      · exact h.strtok call.delim hlast (.inr h)
  · exact (hv.resolve_left hstr).strtok call.delim hstr h

/-- The calls with a null pointer return null as long as the pointer that is kept leads to no field. -/
theorem callsOf_strtok_null (h : strtok m last 0 d = (0, m, last)) (n : Nat) :
    callsOf (fun m last => strtok m last 0 d) n m last = (List.replicate n 0, m, last) := by
  induction n with
  | zero => rfl
  | succ n ih => simp only [callsOf, h, ih, List.replicate_succ]

/-- Without a field in the new string, `strtok_r` returns null and `strtok` goes on with the old one. -/
theorem calls_of_all (save last : U64) (h : StringAt m s t) (h0 : s ≠ 0) (hwrap : s.toNat + t.length < 2 ^ 64)
    (hall : ∀ b ∈ t, b ∈ d) (n : Nat) :
    (strtokRCalls d n m save s).1 = List.replicate (n + 1) 0 ∧
      strtokCalls d n m last s = ((0 :: (callsOf (fun m last => strtok m last 0 d) n m last).1),
        (callsOf (fun m last => strtok m last 0 d) n m last).2) := by
  constructor
  · obtain ⟨save', he⟩ := (strtokR_tokenizer d).calls_none h h0 hwrap hall (n + 1)
    rw [strtokRCalls_eq h0, he]
  · rw [strtokCalls, strtok_none last h h0 (by omega) hall]

theorem strtok_null_eq (h : last = 0 ∨ m (last + BitVec.ofNat 64 (strspn m last d)) = 0) :
    strtok m last 0 d = (0, m, last) := by
  rw [strtok_null]
  by_cases hlast : last = 0
  · simp only [strtok, hlast, ↓reduceIte]
  · simp only [strtok, hlast, ↓reduceIte, h.resolve_left hlast]

/-- An old string with a field is seen by the next call. -/
theorem Terminated.strtok_ne_zero (h : Terminated m last) (h0 : last ≠ 0)
    (hne : m (last + BitVec.ofNat 64 (strspn m last d)) ≠ 0) : (ShadowOS.strtok m last 0 d).1 ≠ 0 := by
  obtain ⟨u, hu, hwrap⟩ := h
  rcases cut_or_none d u with hall | ⟨gap, c, rest, hcut⟩
  · rw [strspn_all hu (by omega) hall] at hne
    exact absurd hu.stop hne
  · have hlen := hcut.length
    have htoNat : (last + BitVec.ofNat 64 gap.length).toNat = last.toNat + gap.length := toNat_add_ofNat (by omega)
    have hpos : last.toNat ≠ 0 := fun hc => h0 (BitVec.eq_of_toNat_eq hc)
    rw [strtok_null, strtok_field hu h0 hwrap hcut]
    intro hc
    simp only at hc
    rw [hc] at htoNat
    change 0 = _ at htoNat
    omega

/-- The string "a,b" at the address 16 and the string ",," at the address 32. -/
def sampleStrings : Mem := fun p =>
  if p.toNat < 32 then [97, 44, 98].getD (p.toNat - 16) 0 else [44, 44].getD (p.toNat - 32) 0

end ShadowOS
