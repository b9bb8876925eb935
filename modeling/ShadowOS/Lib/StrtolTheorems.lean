import Mathlib
import ShadowOS.Lib.CString

/-!
# strtol
-/

namespace ShadowOS

variable {str s digits rest : CString} {base base' : Nat} {sign result : Int}

/-! ## Numerals -/

/-- The byte is a digit of the base. -/
def IsDigit (base : Nat) (b : U8) : Prop := ∃ v < base, digitValue b = some v

/-- The number that digits stand for, the first one being the highest. -/
def digitsValue (base : Nat) (digits : CString) : Nat :=
  Nat.ofDigits base ((digits.map fun b => (digitValue b).getD 0).reverse)

/-- The sign that a numeral starts with, before the bytes `s`. -/
inductive SignOf : CString → Int → CString → Prop where
  | minus (s : CString) : SignOf [45] (-1) s
  | plus (s : CString) : SignOf [43] 1 s
  | none (s : CString) : s.head? ≠ some 45 → s.head? ≠ some 43 → SignOf [] 1 s

/-- What tells the base of a numeral, before the bytes `s`. -/
inductive BaseOf : Nat → CString → Nat → CString → Prop where
  | hex (base : Nat) (x : U8) (s : CString) : base = 0 ∨ base = 16 → x = 120 ∨ x = 88 → BaseOf base [48, x] 16 s
  | octal (s : CString) : startsHex (48 :: s) = false → BaseOf 0 [48] 8 s
  | decimal (s : CString) : s.head? ≠ some 48 → BaseOf 0 [] 10 s
  | given (base : Nat) (s : CString) : base ≠ 0 → (base = 16 → startsHex s = false) → BaseOf base [] base s

/-- A string is white space, a sign, a prefix, as many digits as there are, and more. -/
def Numeral (str : CString) (base : Nat) (sign : Int) (base' : Nat) (digits : CString) : Prop :=
  ∃ spaces signs mark rest, str = spaces ++ (signs ++ (mark ++ (digits ++ rest))) ∧
    (∀ b ∈ spaces, isSpace b = true) ∧ (∀ b ∈ (signs ++ (mark ++ (digits ++ rest))).head?, isSpace b = false) ∧
    SignOf signs sign (mark ++ (digits ++ rest)) ∧ BaseOf base mark base' (digits ++ rest) ∧
    (∀ b ∈ digits, IsDigit base' b) ∧ ∀ b ∈ rest.head?, ¬ IsDigit base' b

/-- The nearest value of a `long`. -/
def clamp (v : Int) : Int := max longMin (min longMax v)

/-! ## The parts of strtol -/

/-- The base, the sign and the bytes with which the loop over the digits starts. -/
def strtolStart (str : CString) (base : Nat) : Nat × Int × CString :=
  let s := str.dropWhile isSpace
  let sign : Int := if s.head? = some 45 then -1 else 1
  let s := if s.head? = some 45 ∨ s.head? = some 43 then s.tail else s
  if base = 0 then
    if s.head? = some 48 then if startsHex s then (16, sign, s.drop 2) else (8, sign, s.tail)
    else (10, sign, s)
  else if base = 16 ∧ startsHex s then (16, sign, s.drop 2)
  else (base, sign, s)

theorem strtol_eq_start (str : CString) (base : Nat) :
    strtol str base = strtolFrom (strtolStart str base).1 (strtolStart str base).2.1 0 (strtolStart str base).2.2 := by
  simp only [strtol, strtolStart]
  generalize (if (str.dropWhile isSpace).head? = some 45 then (-1 : Int) else 1) = sign
  generalize (if (str.dropWhile isSpace).head? = some 45 ∨ (str.dropWhile isSpace).head? = some 43 then
    (str.dropWhile isSpace).tail else str.dropWhile isSpace) = s
  split
  · split
    · split
      · rfl
      · rfl
    · rfl
  · split
    · rfl
    · rfl

/-- The values of the multiplications and additions of the loop over the digits, and of `result * sign` at its end. -/
def strtolValues (base : Nat) (sign : Int) : Int → CString → List Int
  | result, [] => [result * sign]
  | result, c :: cs =>
      match digitValue c with
      | none => [result * sign]
      | some digit =>
          if base ≤ digit then [result * sign]
          else if longMax / base < result ∨ result = longMax / base ∧ longMax % base < digit then []
          else result * base :: (result * base + digit) :: strtolValues base sign (result * base + digit) cs

/-- All values that `strtol` computes for a string. -/
def strtolArithmetic (str : CString) (base : Nat) : List Int :=
  strtolValues (strtolStart str base).1 (strtolStart str base).2.1 0 (strtolStart str base).2.2

/-! ## The loop over the digits -/

theorem digitsValue_nil (base : Nat) : digitsValue base [] = 0 := rfl

theorem digitsValue_cons {b : U8} {v : Nat} (hb : digitValue b = some v) (digits : CString) :
    digitsValue base (b :: digits) = v * base ^ digits.length + digitsValue base digits := by
  rw [digitsValue, List.map_cons, List.reverse_cons, Nat.ofDigits_append, List.length_reverse, List.length_map,
    Nat.ofDigits_singleton, hb, Option.getD_some, digitsValue, Nat.add_comm, Nat.mul_comm]

/-- The test before a digit is taken says exactly that the result would not fit. -/
theorem cutoff_iff {v : Nat} (hv : v < base) :
    longMax / base < result ∨ result = longMax / base ∧ longMax % base < v ↔ longMax < result * base + v := by
  have hbase : (0 : Int) < base := by omega
  have hsplit := Int.mul_ediv_add_emod longMax base
  have hmod := Int.emod_lt_of_pos longMax hbase
  have hmod0 := Int.emod_nonneg longMax hbase.ne'
  generalize longMax / (base : Int) = q at hsplit ⊢
  generalize longMax % (base : Int) = e at hsplit hmod hmod0 ⊢
  constructor
  · rintro (hq | ⟨rfl, he⟩)
    · have hmul : (base : Int) * (q + 1) ≤ base * result := Int.mul_le_mul_of_nonneg_left hq hbase.le
      rw [Int.mul_add, Int.mul_one] at hmul
      rw [Int.mul_comm result]
      omega
    · rw [Int.mul_comm result]
      omega
  · intro hlt
    rcases Int.lt_trichotomy q result with hq | hq | hq
    · exact .inl hq
    · refine .inr ⟨hq.symm, ?_⟩
      rw [hq, Int.mul_comm] at hsplit
      omega
    · have hmul : (base : Int) * (result + 1) ≤ base * q := Int.mul_le_mul_of_nonneg_left hq hbase.le
      rw [Int.mul_add, Int.mul_one] at hmul
      rw [Int.mul_comm result] at hlt
      omega

theorem clamp_mul_sign (hsign : sign = 1 ∨ sign = -1) (h0 : 0 ≤ result) (hmax : result ≤ longMax) :
    clamp (sign * result) = result * sign := by
  rw [Int.mul_comm, clamp]
  rcases hsign with rfl | rfl
  · simp only [longMax, longMin] at hmax ⊢
    omega
  · simp only [longMax, longMin] at hmax ⊢
    omega

/-- A number that is too large comes out as the end of the range on its side. -/
theorem clamp_of_lt (hsign : sign = 1 ∨ sign = -1) {v : Int} (hv : longMax < v) :
    clamp (sign * v) = if sign = 1 then longMax else longMin := by
  rw [clamp]
  rcases hsign with rfl | rfl
  · simp only [longMax, longMin, ↓reduceIte] at hv ⊢
    omega
  · simp only [longMax, longMin] at hv ⊢
    simp
    omega

/-- The loop over the digits adds them to what it has so far. -/
theorem strtolFrom_eq (hsign : sign = 1 ∨ sign = -1) (hdigits : ∀ b ∈ digits, IsDigit base b)
    (hrest : ∀ b ∈ rest.head?, ¬ IsDigit base b) (h0 : 0 ≤ result) (hmax : result ≤ longMax) :
    strtolFrom base sign result (digits ++ rest) =
      clamp (sign * (result * base ^ digits.length + digitsValue base digits)) := by
  induction digits generalizing result with
  | nil =>
      have hend : strtolFrom base sign result rest = result * sign := by
        cases rest with
        | nil => rfl
        | cons b rest =>
            rw [strtolFrom]
            split
            · rfl
            · rename_i v hv
              exact if_pos (Nat.le_of_not_lt fun hlt => hrest b rfl ⟨v, hlt, hv⟩)
      rw [List.nil_append, hend, List.length_nil, pow_zero, mul_one, digitsValue_nil, Nat.cast_zero, add_zero,
        clamp_mul_sign hsign h0 hmax]
  | cons b digits ih =>
      obtain ⟨v, hv, hb⟩ := hdigits b (by simp)
      have hvalue : result * (base : Int) ^ (b :: digits).length + (digitsValue base (b :: digits) : Nat) =
          (result * base + v) * (base : Int) ^ digits.length + (digitsValue base digits : Nat) := by
        rw [digitsValue_cons hb, List.length_cons]
        push_cast
        ring
      rw [hvalue, List.cons_append, strtolFrom, hb]
      simp only [Nat.not_le.mpr hv, ↓reduceIte, cutoff_iff hv]
      split
      · rename_i hover
        have hpow : (1 : Int) ≤ (base : Int) ^ digits.length := by exact_mod_cast Nat.one_le_pow _ _ (by omega)
        have hbig : result * base + v ≤ (result * base + v) * (base : Int) ^ digits.length := by
          have hpos : 0 ≤ result * base + v := by
            simp only [longMax] at hover
            omega
          exact le_mul_of_one_le_right hpos hpow
        rw [clamp_of_lt hsign (by omega)]
      · rename_i hfits
        exact ih (fun x hx => hdigits x (by simp [hx])) (by positivity) (by omega)

theorem strtolValues_inRange (hsign : sign = 1 ∨ sign = -1) (h0 : 0 ≤ result) (hmax : result ≤ longMax) :
    ∀ v ∈ strtolValues base sign result s, longMin ≤ v ∧ v ≤ longMax := by
  have hend : ∀ {r : Int}, 0 ≤ r → r ≤ longMax → ∀ v ∈ [r * sign], longMin ≤ v ∧ v ≤ longMax := by
    intro r hr0 hr v hv
    rw [List.mem_singleton] at hv
    simp only [longMin, longMax] at hr ⊢
    rcases hsign with rfl | rfl
    · omega
    · omega
  induction s generalizing result with
  | nil => exact hend h0 hmax
  | cons c cs ih =>
      intro v hv
      rw [strtolValues] at hv
      split at hv
      · exact hend h0 hmax v hv
      · rename_i digit _
        split at hv
        · exact hend h0 hmax v hv
        · rename_i hdigit
          split at hv
          · exact absurd hv List.not_mem_nil
          · rename_i hfits
            rw [cutoff_iff (Nat.lt_of_not_le hdigit)] at hfits
            have hmul : 0 ≤ result * base := by positivity
            rcases List.mem_cons.mp hv with rfl | hv
            · simp only [longMin, longMax] at hfits ⊢
              omega
            · rcases List.mem_cons.mp hv with rfl | hv
              · simp only [longMin, longMax] at hfits ⊢
                omega
              · exact ih (by omega) (by omega) v hv

/-! ## Before the digits -/

/-- What the loop over the digits starts with, for a string of the form of a numeral. -/
theorem strtolStart_eq {spaces signs mark : CString} (hspaces : ∀ b ∈ spaces, isSpace b = true)
    (hhead : ∀ b ∈ (signs ++ (mark ++ s)).head?, isSpace b = false) (hsign : SignOf signs sign (mark ++ s))
    (hbase : BaseOf base mark base' s) :
    strtolStart (spaces ++ (signs ++ (mark ++ s))) base = (base', sign, s) := by
  have hdrop : (spaces ++ (signs ++ (mark ++ s))).dropWhile isSpace = signs ++ (mark ++ s) := by
    rw [List.dropWhile_append_of_pos hspaces]
    cases hs : signs ++ (mark ++ s) with
    | nil => rfl
    | cons b t =>
        rw [hs] at hhead
        rw [List.dropWhile_cons_of_neg]
        simp [hhead b rfl]
  have hafter : (if (signs ++ (mark ++ s)).head? = some 45 ∨ (signs ++ (mark ++ s)).head? = some 43 then
      (signs ++ (mark ++ s)).tail else signs ++ (mark ++ s)) = mark ++ s ∧
      (if (signs ++ (mark ++ s)).head? = some 45 then (-1 : Int) else 1) = sign := by
    cases hsign with
    | minus => simp
    | plus => simp
    | none _ hminus hplus => simp only [List.nil_append, hminus, hplus, or_self, ↓reduceIte, and_self]
  simp only [strtolStart, hdrop, hafter.1, hafter.2]
  cases hbase with
  | hex _ x _ hb hx =>
      have hstarts : startsHex ([48, x] ++ s) = true := by
        rcases hx with rfl | rfl
        · rfl
        · rfl
      rcases hb with rfl | rfl
      · have hzero : ([48, x] ++ s).head? = some 48 := rfl
        rw [if_pos rfl, if_pos hzero, if_pos hstarts]
        rfl
      · simp only [hstarts, and_self, ↓reduceIte]
        rfl
  | octal _ hx =>
      have hzero : ([48] ++ s).head? = some 48 := rfl
      rw [List.singleton_append] at hzero ⊢
      rw [if_pos rfl, if_pos hzero, hx, if_neg Bool.false_ne_true]
      rfl
  | decimal _ h48 =>
      rw [List.nil_append, if_pos rfl, if_neg h48]
  | given _ _ hb hx =>
      simp only [List.nil_append, hb, ↓reduceIte]
      rw [if_neg]
      rintro ⟨h16, hs⟩
      rw [hx h16] at hs
      cases hs

theorem SignOf.sign_eq {signs : CString} (h : SignOf signs sign s) : sign = 1 ∨ sign = -1 := by
  cases h with
  | minus => exact .inr rfl
  | plus => exact .inl rfl
  | none => exact .inl rfl

theorem exists_sign (s : CString) : ∃ signs sign s', s = signs ++ s' ∧ SignOf signs sign s' := by
  by_cases hminus : s.head? = some 45
  · obtain ⟨s', rfl⟩ := List.head?_eq_some_iff.mp hminus
    exact ⟨[45], -1, s', rfl, .minus s'⟩
  · by_cases hplus : s.head? = some 43
    · obtain ⟨s', rfl⟩ := List.head?_eq_some_iff.mp hplus
      exact ⟨[43], 1, s', rfl, .plus s'⟩
    · exact ⟨[], 1, s, rfl, .none s hminus hplus⟩

theorem startsHex_cases (h : startsHex s = true) : ∃ x s', s = [48, x] ++ s' ∧ (x = 120 ∨ x = 88) := by
  match s with
  | [] => cases h
  | [b] => simp [startsHex] at h
  | b :: x :: s' =>
      simp only [startsHex, List.head?_cons, List.getElem?_cons_succ, List.getElem?_cons_zero, Bool.and_eq_true,
        Bool.or_eq_true, decide_eq_true_eq, Option.some.injEq] at h
      exact ⟨x, s', by rw [h.1]; rfl, h.2⟩

theorem exists_base (base : Nat) (s : CString) : ∃ mark base' s', s = mark ++ s' ∧ BaseOf base mark base' s' := by
  by_cases hx : startsHex s = true
  · obtain ⟨x, s', rfl, hx'⟩ := startsHex_cases hx
    by_cases hb : base = 0 ∨ base = 16
    · exact ⟨[48, x], 16, s', rfl, .hex base x s' hb hx'⟩
    · rw [not_or] at hb
      exact ⟨[], base, _, rfl, .given base _ hb.1 fun h16 => absurd h16 hb.2⟩
  · rw [Bool.not_eq_true] at hx
    by_cases hb : base = 0
    · subst hb
      by_cases h48 : s.head? = some 48
      · obtain ⟨s', rfl⟩ := List.head?_eq_some_iff.mp h48
        exact ⟨[48], 8, s', rfl, .octal s' hx⟩
      · exact ⟨[], 10, s, rfl, .decimal s h48⟩
    · exact ⟨[], base, s, rfl, .given base s hb fun _ => hx⟩

instance (base : Nat) (b : U8) : Decidable (IsDigit base b) :=
  match h : digitValue b with
  | none => isFalse (by simp [IsDigit, h])
  | some v => decidable_of_iff (v < base) (by simp [IsDigit, h])

/-- Every string can be read as a numeral. -/
theorem exists_numeral (str : CString) (base : Nat) : ∃ sign base' digits, Numeral str base sign base' digits := by
  obtain ⟨signs, sign, s, hs, hsign⟩ := exists_sign (str.dropWhile isSpace)
  obtain ⟨mark, base', t, rfl, hbase⟩ := exists_base base s
  have hsplit : t.takeWhile (fun b => decide (IsDigit base' b)) ++ t.dropWhile (fun b => decide (IsDigit base' b)) = t :=
    List.takeWhile_append_dropWhile
  refine ⟨sign, base', t.takeWhile fun b => decide (IsDigit base' b), str.takeWhile isSpace, signs, mark,
    t.dropWhile fun b => decide (IsDigit base' b), ?_, fun b hb => List.mem_takeWhile_imp hb, fun b hb => ?_, ?_, ?_,
    fun b hb => by simpa using List.mem_takeWhile_imp hb, fun b hb => ?_⟩
  · rw [hsplit, ← hs, List.takeWhile_append_dropWhile]
  · rw [hsplit, ← hs] at hb
    have hhead := List.head?_dropWhile_not isSpace str
    rw [Option.mem_def.mp hb] at hhead
    simpa using hhead
  · rwa [hsplit]
  · rwa [hsplit]
  · have hhead := List.head?_dropWhile_not (fun b => decide (IsDigit base' b)) t
    rw [Option.mem_def.mp hb] at hhead
    simpa using hhead

theorem strtolStart_sign (str : CString) (base : Nat) :
    (strtolStart str base).2.1 = 1 ∨ (strtolStart str base).2.1 = -1 := by
  obtain ⟨sign, base', digits, spaces, signs, mark, rest, rfl, hspaces, hhead, hsign, hbase, _⟩ := exists_numeral str base
  rw [strtolStart_eq hspaces hhead hsign hbase]
  exact hsign.sign_eq

/-! ## The value -/

/-- `strtol` returns the value of the numeral as far as it fits, and no multiplication or addition on the way overflows. -/
theorem strtol_saturates (str : CString) (base : Nat) :
    (∃ sign base' digits, Numeral str base sign base' digits) ∧
      (∀ sign base' digits, Numeral str base sign base' digits → strtol str base = clamp (sign * digitsValue base' digits)) ∧
      ∀ v ∈ strtolArithmetic str base, longMin ≤ v ∧ v ≤ longMax := by
  refine ⟨exists_numeral str base, ?_, ?_⟩
  · rintro sign base' digits ⟨spaces, signs, mark, rest, rfl, hspaces, hhead, hsign, hmark, hdigits, hrest⟩
    rw [strtol_eq_start, strtolStart_eq hspaces hhead hsign hmark,
      strtolFrom_eq hsign.sign_eq hdigits hrest le_rfl (by decide), zero_mul, zero_add]
  · exact strtolValues_inRange (strtolStart_sign str base) le_rfl (by decide)

/-- The string " -0x8000000000000000" in base 16, and one digit more. -/
example : strtol ([32, 45, 48, 120, 56] ++ List.replicate 15 48) 16 = longMin ∧
    strtol ([32, 45, 48, 120, 56] ++ List.replicate 16 48) 16 = longMin := by decide

end ShadowOS
