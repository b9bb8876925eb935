import ShadowOS.Lib.CString

/-!
# Strings in memory and their fields

The fields of a string are what lies between its delimiters. One call of `strtok` or `strtok_r` cuts off the next field.
-/

namespace ShadowOS

variable {m m' : Mem} {p q last : U64} {d s t u c gap rest : CString} {fuel : Nat}

/-! ## Strings in memory -/

/-- The bytes of `s` are at `p`, and a zero follows them. -/
def StringAt (m : Mem) : U64 → CString → Prop
  | p, [] => m p = 0
  | p, b :: s => m p = b ∧ b ≠ 0 ∧ StringAt m (p + 1) s

instance StringAt.decidable (m : Mem) : ∀ p s, Decidable (StringAt m p s)
  | p, [] => inferInstanceAs (Decidable (m p = 0))
  | p, b :: s =>
      have := StringAt.decidable m (p + 1) s
      inferInstanceAs (Decidable (m p = b ∧ b ≠ 0 ∧ StringAt m (p + 1) s))

theorem add_ofNat_cons (p : U64) (b : U8) (s : CString) : p + BitVec.ofNat 64 (b :: s).length = p + 1 + BitVec.ofNat 64 s.length := by
  rw [List.length_cons, Nat.add_comm, BitVec.ofNat_add, ← BitVec.add_assoc]
  rfl

namespace StringAt

theorem readString (h : StringAt m p s) (hfuel : s.length ≤ fuel) : readString m fuel p = s := by
  induction s generalizing p fuel with
  | nil =>
      cases fuel with
      | zero => rfl
      | succ fuel =>
          change m p = 0 at h
          rw [ShadowOS.readString, if_pos h]
  | cons b s ih =>
      obtain ⟨rfl, hb, hs⟩ := h
      cases fuel with
      | zero => cases hfuel
      | succ fuel => rw [ShadowOS.readString, if_neg hb, ih hs (Nat.le_of_succ_le_succ hfuel)]

theorem append (h : StringAt m p (s ++ t)) : StringAt m (p + BitVec.ofNat 64 s.length) t := by
  induction s generalizing p with
  | nil =>
      rw [List.length_nil, BitVec.add_zero]
      exact h
  | cons b s ih =>
      rw [add_ofNat_cons]
      exact ih h.2.2

/-- The byte after the string. -/
theorem stop (h : StringAt m p s) : m (p + BitVec.ofNat 64 s.length) = 0 := by
  rw [← List.append_nil s] at h
  exact h.append

/-- The string ends where a zero is written. -/
theorem cut (h : StringAt m p (s ++ t)) (hkeep : ∀ i < s.length, m' (p + BitVec.ofNat 64 i) = m (p + BitVec.ofNat 64 i))
    (hzero : m' (p + BitVec.ofNat 64 s.length) = 0) : StringAt m' p s := by
  induction s generalizing p with
  | nil =>
      rw [List.length_nil, BitVec.add_zero] at hzero
      exact hzero
  | cons b s ih =>
      obtain ⟨hb, hb0, hs⟩ := h
      refine ⟨?_, hb0, ih hs (fun i hi => ?_) ?_⟩
      · have hfirst := hkeep 0 (Nat.succ_pos _)
        rw [BitVec.add_zero] at hfirst
        rw [hfirst, hb]
      · rw [Mem.add_one_add_ofNat]
        exact hkeep (i + 1) (Nat.succ_lt_succ hi)
      · rwa [← add_ofNat_cons]

theorem congr (h : StringAt m p s) (hkeep : ∀ i ≤ s.length, m' (p + BitVec.ofNat 64 i) = m (p + BitVec.ofNat 64 i)) :
    StringAt m' p s := by
  refine cut (t := []) (by rwa [List.append_nil]) (fun i hi => hkeep i hi.le) ?_
  rw [hkeep s.length le_rfl, h.stop]

end StringAt

/-- A string that ends is one. -/
theorem stringAt_readString (h : (readString m fuel p).length < fuel) : StringAt m p (readString m fuel p) := by
  induction fuel generalizing p with
  | zero => cases h
  | succ fuel ih =>
      simp only [readString] at h ⊢
      split
      · rename_i hp
        exact hp
      · rename_i hp
        rw [if_neg hp, List.length_cons] at h
        exact ⟨rfl, hp, ih (Nat.lt_of_succ_lt_succ h)⟩

/-- A string goes on after its first bytes when there is no zero among them. -/
theorem readString_add (m : Mem) (i j : Nat) (p : U64) : readString m (i + j) p =
    if (readString m i p).length = i then readString m i p ++ readString m j (p + BitVec.ofNat 64 i) else readString m i p := by
  induction i generalizing p with
  | zero => simp [readString]
  | succ i ih =>
      rw [Nat.succ_add]
      simp only [readString]
      by_cases hp : m p = 0
      · simp [hp]
      · have hnext : p + 1 + BitVec.ofNat 64 i = p + BitVec.ofNat 64 (i + 1) := Mem.add_one_add_ofNat p i
        simp only [hp, ↓reduceIte, ih, hnext, List.length_cons, Nat.add_right_cancel_iff]
        split
        · rfl
        · rfl

theorem length_readString_le (m : Mem) (fuel : Nat) (p : U64) : (readString m fuel p).length ≤ fuel := by
  induction fuel generalizing p with
  | zero => rfl
  | succ fuel ih =>
      simp only [readString]
      split
      · exact Nat.zero_le _
      · exact Nat.succ_le_succ (ih (p + 1))

theorem spanLength_eq (test : U8 → Bool) (h : StringAt m p s) (hfuel : s.length ≤ fuel) :
    spanLength m test fuel p = (s.takeWhile test).length := by
  induction s generalizing p fuel with
  | nil =>
      cases fuel with
      | zero => rfl
      | succ fuel =>
          change m p = 0 at h
          rw [spanLength, if_neg fun hc => hc.1 h]
          rfl
  | cons b s ih =>
      obtain ⟨rfl, hb, hs⟩ := h
      cases fuel with
      | zero => cases hfuel
      | succ fuel =>
          rw [spanLength, List.takeWhile_cons]
          by_cases ht : test (m p) = true
          · rw [if_pos ⟨hb, ht⟩, if_pos ht, ih hs (Nat.le_of_succ_le_succ hfuel), List.length_cons]
          · rw [if_neg fun hc => ht hc.2, if_neg ht]
            rfl

/-- Only bytes from `start` up to `stop` have changed. -/
def SameOutside (start stop : Nat) (m m' : Mem) : Prop := ∀ p : U64, ¬ (start ≤ p.toNat ∧ p.toNat < stop) → m' p = m p

theorem SameOutside.refl (start stop : Nat) (m : Mem) : SameOutside start stop m m := fun _ _ => rfl

theorem SameOutside.trans {start stop : Nat} {m₁ : Mem} (h : SameOutside start stop m m₁) (h' : SameOutside start stop m₁ m') :
    SameOutside start stop m m' := fun p hp => (h' p hp).trans (h p hp)

theorem SameOutside.mono {start start' stop stop' : Nat} (h : SameOutside start stop m m') (hs : start' ≤ start)
    (hs' : stop ≤ stop') : SameOutside start' stop' m m' := fun p hp => h p fun hc => hp ⟨by omega, by omega⟩

theorem toNat_add_ofNat {i : Nat} (h : p.toNat + i < 2 ^ 64) : (p + BitVec.ofNat 64 i).toNat = p.toNat + i := by
  rw [BitVec.toNat_add, BitVec.toNat_ofNat]
  omega

/-! ## The next field -/

/-- The string `u` is a gap of delimiters, a field and the rest, which is nothing or starts with a delimiter. -/
structure Cut (d u gap c rest : CString) : Prop where
  eq : u = gap ++ (c ++ rest)
  gap : ∀ b ∈ gap, b ∈ d
  ne_nil : c ≠ []
  field : ∀ b ∈ c, b ∉ d
  rest : ∀ b ∈ rest.head?, b ∈ d

/-- A string has only delimiters, or there is a next field. -/
theorem cut_or_none (d u : CString) : (∀ b ∈ u, b ∈ d) ∨ ∃ gap c rest, Cut d u gap c rest := by
  induction u with
  | nil => exact .inl (by simp)
  | cons b u ih =>
      by_cases hb : b ∈ d
      · rcases ih with hall | ⟨gap, c, rest, h⟩
        · exact .inl (by simpa [hb] using hall)
        · exact .inr ⟨b :: gap, c, rest, by rw [h.eq]; rfl, by simpa [hb] using h.gap, h.ne_nil, h.field, h.rest⟩
      · refine .inr ⟨[], (b :: u).takeWhile (· ∉ d), (b :: u).dropWhile (· ∉ d), ?_, by simp, ?_, ?_, ?_⟩
        · rw [List.takeWhile_append_dropWhile, List.nil_append]
        · simp [hb]
        · intro x hx
          simpa using List.mem_takeWhile_imp hx
        · intro x hx
          have hhead := List.head?_dropWhile_not (fun b => decide (b ∉ d)) (b :: u)
          rw [Option.mem_def.mp hx] at hhead
          simpa using hhead

namespace Cut

theorem takeWhile_gap (h : Cut d u gap c rest) : u.takeWhile (fun b => decide (b ∈ d)) = gap := by
  have hall : ∀ b ∈ gap, decide (b ∈ d) = true := by simpa using h.gap
  obtain ⟨b, c', rfl⟩ := List.exists_cons_of_ne_nil h.ne_nil
  have hb : b ∉ d := h.field b (by simp)
  rw [h.eq, List.takeWhile_append_of_pos hall]
  simp [hb]

theorem takeWhile_field (h : Cut d u gap c rest) : (c ++ rest).takeWhile (fun b => decide (b ∉ d)) = c := by
  have hall : ∀ b ∈ c, decide (b ∉ d) = true := by simpa using h.field
  rw [List.takeWhile_append_of_pos hall]
  cases hr : rest with
  | nil => simp
  | cons b rest' =>
      have hb : b ∈ d := h.rest b (by simp [hr])
      simp [hb]

theorem length (h : Cut d u gap c rest) : u.length = gap.length + c.length + rest.length := by
  rw [h.eq, List.length_append, List.length_append, Nat.add_assoc]

end Cut

/-! ## Calls -/

/-- A null pointer stands for what is left. -/
theorem strtok_null (m : Mem) (last : U64) (d : CString) : strtok m last 0 d = strtok m last last d := by
  simp only [strtok, ↓reduceIte, ite_self]

theorem strtokR_null (m : Mem) (save : U64) (d : CString) : strtokR m save 0 d = strtokR m save save d := by
  simp only [strtokR, ↓reduceIte, ite_self]

theorem strspn_all (h : StringAt m p u) (hu : u.length ≤ 2 ^ 64) (hd : ∀ b ∈ u, b ∈ d) : strspn m p d = u.length := by
  rw [strspn, spanLength_eq _ h hu, List.takeWhile_eq_self_iff.mpr (by simpa using hd)]

/-- Without a field left, nothing is written. -/
theorem strtok_none (last : U64) (h : StringAt m p u) (h0 : p ≠ 0) (hu : u.length ≤ 2 ^ 64) (hd : ∀ b ∈ u, b ∈ d) :
    strtok m last p d = (0, m, last) := by
  simp only [strtok, h0, ↓reduceIte, strspn_all h hu hd, h.stop]

theorem strtokR_none (save : U64) (h : StringAt m p u) (h0 : p ≠ 0) (hu : u.length ≤ 2 ^ 64) (hd : ∀ b ∈ u, b ∈ d) :
    strtokR m save p d = (0, m, p + BitVec.ofNat 64 u.length) := by
  simp only [strtokR, h0, ↓reduceIte, strspn_all h hu hd, h.stop]

/-- The memory after the field that ends at `stop` is cut off from `rest`. -/
def cutAt (m : Mem) (stop : U64) (rest : CString) : Mem := if rest = [] then m else Function.update m stop 0

/-- What is left after the delimiter behind a field. -/
def leftAt (stop : U64) (rest : CString) : U64 := if rest = [] then stop else stop + 1

theorem strpbrkFrom_eq (h : StringAt m p (c ++ rest)) (hc : ∀ b ∈ c, b ∉ d) (hrest : ∀ b ∈ rest.head?, b ∈ d)
    (hfuel : (c ++ rest).length < fuel) :
    strpbrkFrom m d fuel p = if rest = [] then 0 else p + BitVec.ofNat 64 c.length := by
  induction c generalizing p fuel with
  | nil =>
      cases fuel with
      | zero => cases hfuel
      | succ fuel =>
          cases rest with
          | nil =>
              have hp : m p = 0 := h
              simp [strpbrkFrom, hp]
          | cons b rest =>
              obtain ⟨rfl, hb, _⟩ := h
              have hd : m p ∈ d := hrest _ rfl
              rw [strpbrkFrom, if_neg hb, if_pos hd, if_neg (List.cons_ne_nil _ _), List.length_nil, BitVec.add_zero]
  | cons b c ih =>
      cases fuel with
      | zero => cases hfuel
      | succ fuel =>
          obtain ⟨rfl, hb, hs⟩ := h
          have hd : m p ∉ d := hc _ (by simp)
          rw [strpbrkFrom, if_neg hb, if_neg hd, ih hs (fun x hx => hc x (by simp [hx])) (Nat.lt_of_succ_lt_succ hfuel),
            add_ofNat_cons]

section Field

variable (h : StringAt m p u) (h0 : p ≠ 0) (hwrap : p.toNat + u.length < 2 ^ 64) (hcut : Cut d u gap c rest)

include h hcut

theorem Cut.stringAt : StringAt m (p + BitVec.ofNat 64 gap.length) (c ++ rest) := by
  rw [hcut.eq] at h
  exact h.append

theorem Cut.start_ne_zero : m (p + BitVec.ofNat 64 gap.length) ≠ 0 := by
  have hfield := hcut.stringAt h
  obtain ⟨b, c', rfl⟩ := List.exists_cons_of_ne_nil hcut.ne_nil
  obtain ⟨he, hb, _⟩ := hfield
  rwa [he]

include hwrap

theorem Cut.strspn : strspn m p d = gap.length := by
  rw [ShadowOS.strspn, spanLength_eq _ h (by omega), hcut.takeWhile_gap]

include h0

/-- The next field is cut off. -/
theorem strtok_field (last : U64) :
    strtok m last p d =
      (p + BitVec.ofNat 64 gap.length, cutAt m (p + BitVec.ofNat 64 gap.length + BitVec.ofNat 64 c.length) rest,
        leftAt (p + BitVec.ofNat 64 gap.length + BitVec.ofNat 64 c.length) rest) := by
  have hlen := hcut.length
  have hfield := hcut.stringAt h
  have hspan : strcspn m (p + BitVec.ofNat 64 gap.length) d = c.length := by
    rw [strcspn, spanLength_eq _ hfield (by rw [List.length_append]; omega), hcut.takeWhile_field]
  simp only [strtok, h0, ↓reduceIte, hcut.strspn h hwrap, hcut.start_ne_zero h, hspan, cutAt, leftAt]
  cases rest with
  | nil =>
      have hstop := hfield.append
      simp only [StringAt] at hstop
      simp only [hstop, ne_eq, not_true_eq_false, ↓reduceIte]
  | cons b rest =>
      obtain ⟨hb, hb0, _⟩ := hfield.append
      simp only [hb, ne_eq, hb0, not_false_eq_true, ↓reduceIte, reduceCtorEq]

/-- On a field, `strtok_r` does the same. -/
theorem strtokR_field (save last : U64) : strtokR m save p d = strtok m last p d := by
  have hlen := hcut.length
  have hfield := hcut.stringAt h
  have hp0 : p.toNat ≠ 0 := fun hc => h0 (BitVec.eq_of_toNat_eq hc)
  rw [strtok_field h h0 hwrap hcut]
  simp only [strtokR, h0, ↓reduceIte, hcut.strspn h hwrap, hcut.start_ne_zero h, cutAt, leftAt]
  rw [strpbrk, strpbrkFrom_eq hfield hcut.field hcut.rest (by rw [List.length_append]; omega)]
  cases rest with
  | nil =>
      rw [List.append_nil] at hfield
      have hstrlen : strlen m (p + BitVec.ofNat 64 gap.length) = c.length := by
        rw [strlen, spanLength_eq _ hfield (by omega), List.takeWhile_eq_self_iff.mpr (by simp)]
      simp only [↓reduceIte, hstrlen]
  | cons b rest =>
      have hstop : p + BitVec.ofNat 64 gap.length + BitVec.ofNat 64 c.length ≠ 0 := by
        intro hc
        have htoNat : (p + BitVec.ofNat 64 gap.length + BitVec.ofNat 64 c.length).toNat = p.toNat + gap.length + c.length := by
          rw [toNat_add_ofNat, toNat_add_ofNat]
          · omega
          · rw [toNat_add_ofNat]
            · omega
            · omega
        rw [hc] at htoNat
        change 0 = _ at htoNat
        omega
      simp only [reduceCtorEq, ↓reduceIte, hstop]

end Field

/-! ## All fields in turn -/

/-- The bytes `c` from `i` on are a field of `u`: not empty, without a delimiter, and as long as can be on both sides. -/
def IsField (d u : CString) (i : Nat) (c : CString) : Prop :=
  ∃ before after, u = before ++ (c ++ after) ∧ before.length = i ∧ c ≠ [] ∧ (∀ b ∈ c, b ∉ d) ∧
    (∀ b ∈ before.getLast?, b ∈ d) ∧ ∀ b ∈ after.head?, b ∈ d

theorem not_isField_of_all {i : Nat} (hd : ∀ b ∈ u, b ∈ d) : ¬ IsField d u i c := by
  rintro ⟨before, after, rfl, _, hne, hc, _⟩
  obtain ⟨b, c', rfl⟩ := List.exists_cons_of_ne_nil hne
  exact hc b (by simp) (hd b (by simp))

/-- A string that starts with a field starts with no other. -/
theorem Cut.field_unique (h : Cut d u gap c rest) {e after : CString} (heq : c ++ rest = e ++ after) (he : ∀ b ∈ e, b ∉ d)
    (hne : e ≠ []) (hafter : ∀ b ∈ after.head?, b ∈ d) : e = c := by
  have h' : Cut d (e ++ after) [] e after := ⟨rfl, by simp, hne, he, hafter⟩
  rw [← h.takeWhile_field, heq, h'.takeWhile_field]

/-- A field that starts behind the start of the next one starts behind its delimiter. -/
theorem Cut.behind (h : Cut d u gap c rest) {x y : CString} (heq : c ++ rest = x ++ y) (hne : x ≠ [])
    (hlast : ∀ b ∈ x.getLast?, b ∈ d) : ∃ b x', x = c ++ b :: x' ∧ rest = b :: (x' ++ y) := by
  have hmem : x.getLast hne ∈ d := hlast _ (List.getLast?_eq_getLast_of_ne_nil hne)
  rcases List.append_eq_append_iff.mp heq with ⟨z, hx, hrest⟩ | ⟨z, hc, _⟩
  · cases z with
    | nil =>
        subst hx
        simp only [List.append_nil] at hmem
        exact absurd hmem (h.field _ (List.getLast_mem _))
    | cons b x' => exact ⟨b, x', hx, hrest⟩
  · refine absurd hmem (h.field _ ?_)
    rw [hc]
    exact List.mem_append_left _ (List.getLast_mem hne)

/-- The fields of a string are the next one and those of what is left. -/
theorem Cut.isField_iff (h : Cut d u gap c rest) {i : Nat} {e : CString} :
    IsField d u i e ↔ i = gap.length ∧ e = c ∨
      ∃ j, i = gap.length + c.length + 1 + j ∧ IsField d rest.tail j e := by
  constructor
  · rintro ⟨before, after, hu, rfl, hne, he, hbefore, hafter⟩
    rw [h.eq] at hu
    rcases List.append_eq_append_iff.mp hu with ⟨x, rfl, hx⟩ | ⟨x, hgap, hx⟩
    · by_cases hx0 : x = []
      · subst hx0
        exact .inl ⟨by simp, h.field_unique (by simpa using hx) he hne hafter⟩
      · rw [List.getLast?_append_of_ne_nil _ hx0] at hbefore
        obtain ⟨b, x', rfl, rfl⟩ := h.behind hx hx0 hbefore
        refine .inr ⟨x'.length, ?_, x', after, rfl, rfl, hne, he, fun b' hb' => hbefore b' ?_, hafter⟩
        · simp only [List.length_append, List.length_cons]
          omega
        · rw [Option.mem_def] at hb' ⊢
          simp [List.getLast?_append, List.getLast?_cons, hb']
    · cases x with
      | nil =>
          rw [List.append_nil] at hgap
          exact .inl ⟨by rw [hgap], h.field_unique (by simpa using hx.symm) he hne hafter⟩
      | cons b x =>
          -- it would start inside the gap
          obtain ⟨b', e', rfl⟩ := List.exists_cons_of_ne_nil hne
          rw [List.cons_append, List.cons_append, List.cons.injEq] at hx
          exact absurd (h.gap b (by simp [hgap])) (hx.1 ▸ he b' (by simp))
  · rintro (⟨rfl, rfl⟩ | ⟨j, rfl, before, after, hrest, rfl, hne, he, hbefore, hafter⟩)
    · exact ⟨gap, rest, h.eq, rfl, h.ne_nil, h.field, fun b hb => h.gap b (List.mem_of_getLast? hb), h.rest⟩
    · cases rest with
      | nil =>
          rw [List.tail_nil, eq_comm, List.append_eq_nil_iff, List.append_eq_nil_iff] at hrest
          exact absurd hrest.2.1 hne
      | cons b rest =>
          rw [List.tail_cons] at hrest
          refine ⟨gap ++ (c ++ b :: before), after, by simp [h.eq, hrest], by simp; omega, hne, he, fun b' hb' => ?_, hafter⟩
          rw [Option.mem_def, List.getLast?_append_of_ne_nil _ (by simp), List.getLast?_append_of_ne_nil _ (by simp),
            List.getLast?_cons] at hb'
          cases hlast : before.getLast? with
          | none =>
              rw [hlast] at hb'
              exact h.rest b' hb'
          | some x =>
              rw [hlast] at hb'
              exact hbefore b' (by rw [hlast]; exact hb')

/-! ## After a field is cut off -/

section After

variable (h : StringAt m p u) (hwrap : p.toNat + u.length < 2 ^ 64) (hcut : Cut d u gap c rest)

include hwrap hcut

theorem Cut.stop_toNat : (p + BitVec.ofNat 64 gap.length + BitVec.ofNat 64 c.length).toNat = p.toNat + gap.length + c.length := by
  have hlen := hcut.length
  have hgap : (p + BitVec.ofNat 64 gap.length).toNat = p.toNat + gap.length := toNat_add_ofNat (by omega)
  rw [toNat_add_ofNat (by omega), hgap]

theorem Cut.left_toNat : (leftAt (p + BitVec.ofNat 64 gap.length + BitVec.ofNat 64 c.length) rest).toNat + rest.tail.length =
    p.toNat + u.length := by
  have hlen := hcut.length
  have hstop := hcut.stop_toNat hwrap
  cases rest with
  | nil =>
      simp only [leftAt, ↓reduceIte, hstop, List.tail_nil, List.length_nil] at hlen ⊢
      omega
  | cons b rest =>
      simp only [List.length_cons] at hlen
      have hone : (1 : U64).toNat = 1 := rfl
      simp only [leftAt, reduceCtorEq, ↓reduceIte, List.tail_cons, BitVec.toNat_add, hstop, hone]
      omega

theorem Cut.left_ne_zero :
    leftAt (p + BitVec.ofNat 64 gap.length + BitVec.ofNat 64 c.length) rest ≠ 0 := by
  have hlen := hcut.length
  have hleft := hcut.left_toNat hwrap
  have hpos := List.length_pos_of_ne_nil hcut.ne_nil
  have htail : rest.tail.length ≤ rest.length := by simp
  intro hc
  rw [hc] at hleft
  change 0 + _ = _ at hleft
  omega

/-- Only the delimiter behind the field is overwritten. -/
theorem Cut.sameOutside :
    SameOutside (p.toNat + gap.length + c.length) (p.toNat + u.length) m
      (cutAt m (p + BitVec.ofNat 64 gap.length + BitVec.ofNat 64 c.length) rest) := by
  have hlen := hcut.length
  have hstop := hcut.stop_toNat hwrap
  intro x hx
  cases rest with
  | nil => rfl
  | cons b rest =>
      rw [List.length_cons] at hlen
      refine Function.update_of_ne (fun hc => hx ?_) _ _
      rw [hc, hstop]
      omega

include h

theorem Cut.field_stringAt :
    StringAt (cutAt m (p + BitVec.ofNat 64 gap.length + BitVec.ofNat 64 c.length) rest)
      (p + BitVec.ofNat 64 gap.length) c := by
  have hlen := hcut.length
  have hfield := hcut.stringAt h
  have hgap : (p + BitVec.ofNat 64 gap.length).toNat = p.toNat + gap.length := toNat_add_ofNat (by omega)
  refine hfield.cut (fun i hi => hcut.sameOutside hwrap _ ?_) ?_
  · rw [toNat_add_ofNat (by omega)]
    omega
  · cases rest with
    | nil => exact hfield.append
    | cons b rest =>
        simp only [cutAt, reduceCtorEq, ↓reduceIte]
        exact Function.update_self _ _ _

theorem Cut.left_stringAt :
    StringAt (cutAt m (p + BitVec.ofNat 64 gap.length + BitVec.ofNat 64 c.length) rest)
      (leftAt (p + BitVec.ofNat 64 gap.length + BitVec.ofNat 64 c.length) rest) rest.tail := by
  have hleft := hcut.left_toNat hwrap
  have hlen := hcut.length
  have hrest := (hcut.stringAt h).append
  have hstop := hcut.stop_toNat hwrap
  cases rest with
  | nil => exact hrest
  | cons b rest =>
      simp only [leftAt, cutAt, reduceCtorEq, ↓reduceIte, List.tail_cons, List.length_cons] at hleft hlen hrest ⊢
      refine hrest.2.2.congr fun i hi => Function.update_of_ne (fun hc => ?_) _ _
      have htoNat := congrArg BitVec.toNat hc
      rw [toNat_add_ofNat (by omega), hstop] at htoNat
      omega

end After

/-! ## Call after call -/

/-- A function that cuts off fields: like `strtok` when there is one, and otherwise it stays at delimiters. -/
structure Tokenizer (d : CString) (next : Mem → U64 → U64 × Mem × U64) : Prop where
  field : ∀ {m p u gap c rest}, StringAt m p u → p ≠ 0 → p.toNat + u.length < 2 ^ 64 → Cut d u gap c rest →
    next m p = (p + BitVec.ofNat 64 gap.length, cutAt m (p + BitVec.ofNat 64 gap.length + BitVec.ofNat 64 c.length) rest,
      leftAt (p + BitVec.ofNat 64 gap.length + BitVec.ofNat 64 c.length) rest)
  none : ∀ {m p u}, StringAt m p u → p ≠ 0 → p.toNat + u.length < 2 ^ 64 → (∀ b ∈ u, b ∈ d) →
    ∃ p' u', next m p = (0, m, p') ∧ StringAt m p' u' ∧ p' ≠ 0 ∧ p'.toNat + u'.length < 2 ^ 64 ∧ ∀ b ∈ u', b ∈ d

theorem strtok_tokenizer (d : CString) : Tokenizer d fun m last => strtok m last 0 d where
  field h h0 hwrap hcut := by
    rw [strtok_null]
    exact strtok_field h h0 hwrap hcut _
  none {m p u} h h0 hwrap hd := by
    refine ⟨p, u, ?_, h, h0, hwrap, hd⟩
    rw [strtok_null]
    exact strtok_none p h h0 (by omega) hd

theorem strtokR_tokenizer (d : CString) : Tokenizer d fun m save => strtokR m save 0 d where
  field {m p _ _ _ _} h h0 hwrap hcut := by
    rw [strtokR_null, strtokR_field h h0 hwrap hcut p p]
    exact strtok_field h h0 hwrap hcut _
  none {m p u} h h0 hwrap hd := by
    have htoNat : (p + BitVec.ofNat 64 u.length).toNat = p.toNat + u.length := toNat_add_ofNat hwrap
    refine ⟨p + BitVec.ofNat 64 u.length, [], ?_, h.stop, fun hc => h0 ?_, by rw [htoNat]; exact hwrap, by simp⟩
    · rw [strtokR_null]
      exact strtokR_none p h h0 (by omega) hd
    · rw [hc] at htoNat
      change 0 = _ at htoNat
      exact BitVec.eq_of_toNat_eq (show p.toNat = 0 by omega)

/-- The results of `n` calls, the memory and the pointer after them. -/
def callsOf (next : Mem → U64 → U64 × Mem × U64) : Nat → Mem → U64 → List U64 × Mem × U64
  | 0, m, p => ([], m, p)
  | n + 1, m, p =>
      let (t, m, p) := next m p
      let (ts, m, p) := callsOf next n m p
      (t :: ts, m, p)

namespace Tokenizer

variable {next : Mem → U64 → U64 × Mem × U64}

theorem calls_none (hn : Tokenizer d next) (h : StringAt m p u) (h0 : p ≠ 0) (hwrap : p.toNat + u.length < 2 ^ 64)
    (hd : ∀ b ∈ u, b ∈ d) (n : Nat) : ∃ p', callsOf next n m p = (List.replicate n 0, m, p') := by
  induction n generalizing p u with
  | zero => exact ⟨p, rfl⟩
  | succ n ih =>
      obtain ⟨p₁, u₁, hnext, h₁, h0₁, hwrap₁, hd₁⟩ := hn.none h h0 hwrap hd
      obtain ⟨p', he⟩ := ih h₁ h0₁ hwrap₁ hd₁
      exact ⟨p', by simp only [callsOf, hnext, he, List.replicate_succ]⟩

end Tokenizer

/-- The calls return the fields one after the other, and then null. -/
theorem exists_fields (d : CString) (h : StringAt m p u) (h0 : p ≠ 0) (hwrap : p.toNat + u.length < 2 ^ 64) :
    ∃ fields : List (Nat × CString), fields.Pairwise (fun f g => f.1 < g.1) ∧
      (∀ i c, (i, c) ∈ fields ↔ IsField d u i c) ∧
      ∀ {next}, Tokenizer d next → ∀ n, ∃ m' p', callsOf next n m p =
          ((fields.map fun f => p + BitVec.ofNat 64 f.1).take n ++ List.replicate (n - fields.length) 0, m', p') ∧
        (∀ f ∈ fields.take n, StringAt m' (p + BitVec.ofNat 64 f.1) f.2) ∧
        SameOutside p.toNat (p.toNat + u.length) m m' := by
  induction hlen : u.length using Nat.strong_induction_on generalizing m p u with
  | _ len ih =>
      subst hlen
      rcases cut_or_none d u with hall | ⟨gap, c, rest, hcut⟩
      · refine ⟨[], .nil, fun i c => ?_, fun hn n => ?_⟩
        · exact ⟨fun hc => absurd hc List.not_mem_nil, fun hc => absurd hc (not_isField_of_all hall)⟩
        · obtain ⟨p', he⟩ := hn.calls_none h h0 hwrap hall n
          exact ⟨m, p', by simpa using he, by simp, .refl _ _ _⟩
      · have hsize := hcut.length
        have hpos := List.length_pos_of_ne_nil hcut.ne_nil
        have hleft := hcut.left_toNat hwrap
        have hstop := hcut.stop_toNat hwrap
        have hfield := hcut.field_stringAt h hwrap
        have hsame := hcut.sameOutside (m := m) hwrap
        have hlt : rest.tail.length ≤ rest.length := by simp
        obtain ⟨fields, hsorted, hmem, hcalls⟩ := ih rest.tail.length (by omega) (hcut.left_stringAt h hwrap)
          (hcut.left_ne_zero hwrap) (by omega) rfl
        generalize hp₁ : leftAt (p + BitVec.ofNat 64 gap.length + BitVec.ofNat 64 c.length) rest = p₁ at hleft hcalls
        generalize hm₁ : cutAt m (p + BitVec.ofNat 64 gap.length + BitVec.ofNat 64 c.length) rest = m₁ at hfield hsame hcalls
        -- where the later fields are, counted from `p`
        have hshift : ∀ f ∈ fields, p₁ + BitVec.ofNat 64 f.1 = p + BitVec.ofNat 64 (gap.length + c.length + 1 + f.1) := by
          intro f hf
          have hne : rest ≠ [] := by
            rintro rfl
            exact not_isField_of_all (by simp) ((hmem f.1 f.2).mp hf)
          rw [← hp₁, leftAt, if_neg hne, BitVec.ofNat_add, BitVec.ofNat_add, BitVec.ofNat_add]
          simp only [BitVec.add_assoc]
          rfl
        refine ⟨(gap.length, c) :: fields.map fun f => (gap.length + c.length + 1 + f.1, f.2), ?_, fun i e => ?_,
          fun hn n => ?_⟩
        · refine List.pairwise_cons.mpr ⟨fun f hf => ?_, List.pairwise_map.mpr (hsorted.imp fun hfg => by simpa using hfg)⟩
          obtain ⟨g, _, rfl⟩ := List.mem_map.mp hf
          simp only
          omega
        · rw [hcut.isField_iff, List.mem_cons, Prod.mk.injEq, List.mem_map]
          refine or_congr Iff.rfl ⟨?_, ?_⟩
          · rintro ⟨⟨j, e'⟩, hf, he⟩
            obtain ⟨rfl, rfl⟩ := Prod.mk.inj he
            exact ⟨j, rfl, (hmem j e').mp hf⟩
          · rintro ⟨j, rfl, hf⟩
            exact ⟨(j, e), (hmem j e).mpr hf, rfl⟩
        · cases n with
          | zero => exact ⟨m, p, by simp [callsOf], by simp, .refl _ _ _⟩
          | succ n =>
              obtain ⟨m', p', he, hstrings, hsame'⟩ := hcalls hn n
              refine ⟨m', p', ?_, ?_, (hsame.mono (by omega) le_rfl).trans (hsame'.mono (by omega) (by omega))⟩
              · have hmap : (fields.map fun f => p + BitVec.ofNat 64 (gap.length + c.length + 1 + f.1)) =
                    fields.map fun f => p₁ + BitVec.ofNat 64 f.1 := List.map_congr_left fun f hf => (hshift f hf).symm
                simp only [callsOf, hn.field h h0 hwrap hcut, hm₁, hp₁, he, List.map_cons, List.map_map, Function.comp_def, hmap,
                  List.take_succ_cons, List.cons_append, List.length_cons, List.length_map, Nat.add_sub_add_right]
              · simp only [List.take_succ_cons, List.mem_cons, forall_eq_or_imp, ← List.map_take, List.mem_map,
                  forall_exists_index, and_imp, forall_apply_eq_imp_iff₂]
                refine ⟨hfield.congr fun i hi => hsame' _ ?_, fun f hf => ?_⟩
                · rw [toNat_add_ofNat (by rw [toNat_add_ofNat (by omega)]; omega), toNat_add_ofNat (by omega)]
                  cases rest with
                  | nil =>
                      simp only [List.tail_nil, List.length_nil] at hleft hsize ⊢
                      omega
                  | cons b rest =>
                      simp only [List.tail_cons, List.length_cons] at hleft hsize ⊢
                      omega
                · rw [← hshift f (List.mem_of_mem_take hf)]
                  exact hstrings f hf

end ShadowOS
