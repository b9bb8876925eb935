import ShadowOS.Lib.Fields

/-!
# Looking up a key of the configuration (`post.c`)
-/

namespace ShadowOS

variable {m m' : Mem} {p buff last value : U64} {c e u text key needle gap rest : CString} {i j fuel : Nat} {P : CString → Prop}

/-- The loop over the lines, with what the last call of `strtok` returned. -/
def configLoop (key : CString) : Nat → U64 × Mem × U64 → U64 × Mem × U64
  | 0, (_, m, last) => (0, m, last)
  | fuel + 1, (line, m, last) =>
      if line = 0 then (0, m, last)
      else
        let temp := strstr m line (key ++ [61])
        if temp ≠ 0 then (temp + BitVec.ofNat 64 key.length + 1, m, last)
        else configLoop key fuel (strtok m last 0 [10])

/-- `GET_KERNEL_CONFIG_VALUE(buff, key)`: the address of the value or null, the memory and the pointer that `strtok` keeps. -/
def getKernelConfigValue (m : Mem) (last buff : U64) (key : CString) : U64 × Mem × U64 :=
  configLoop key (2 ^ 64) (strtok m last buff [10])

/-! ## Substrings -/

theorem matchesAt_iff (needle : CString) (h : StringAt m p c) : matchesAt m p needle = true ↔ needle <+: c := by
  induction needle generalizing p c with
  | nil => simp [matchesAt]
  | cons b needle ih =>
      cases c with
      | nil =>
          have hp : m p = 0 := h
          simp [matchesAt, hp]
      | cons x c =>
          obtain ⟨hx, hx0, hc⟩ := h
          rw [List.cons_prefix_cons, ← ih hc, matchesAt, hx]
          have hx0' : x ≠ 0#8 := hx0
          simp [hx0', eq_comm (a := b)]

/-- `strstr` finds the first place of the needle. -/
theorem strstrFrom_cases (hne : needle ≠ []) (h : StringAt m p c) {fuel : Nat} (hfuel : c.length < fuel) :
    ¬ needle <:+: c ∧ strstrFrom m needle fuel p = 0 ∨
      ∃ before after, c = before ++ (needle ++ after) ∧ (∀ i < before.length, ¬ needle <+: c.drop i) ∧
        strstrFrom m needle fuel p = p + BitVec.ofNat 64 before.length := by
  induction c generalizing p fuel with
  | nil =>
      cases fuel with
      | zero => cases hfuel
      | succ fuel =>
          have hp : m p = 0 := h
          exact .inl ⟨by simpa using hne, by rw [strstrFrom, if_pos hp]⟩
  | cons b c ih =>
      cases fuel with
      | zero => cases hfuel
      | succ fuel =>
          have hmatch := matchesAt_iff needle h
          obtain ⟨rfl, hb, hc⟩ := h
          rw [strstrFrom, if_neg hb]
          by_cases hm : matchesAt m p needle = true
          · obtain ⟨after, hafter⟩ := hmatch.mp hm
            refine .inr ⟨[], after, hafter.symm, fun i hi => absurd hi (Nat.not_lt_zero i), ?_⟩
            rw [if_pos hm, List.length_nil, BitVec.add_zero]
          · rw [if_neg hm]
            have hstart := mt hmatch.mpr hm
            rcases ih hc (Nat.lt_of_succ_lt_succ hfuel) with ⟨hnone, he⟩ | ⟨before, after, hsplit, hfirst, he⟩
            · exact .inl ⟨fun hi => (List.infix_cons_iff.mp hi).elim hstart hnone, he⟩
            · refine .inr ⟨m p :: before, after, by rw [hsplit]; rfl, fun i hi => ?_, by rw [he, add_ofNat_cons]⟩
              cases i with
              | zero => exact hstart
              | succ i => exact hfirst i (Nat.lt_of_succ_lt_succ hi)

/-! ## Lines -/

/-- The line `c` from `i` on is the first one with the property. An empty line counts as none. -/
def FirstLine (text : CString) (P : CString → Prop) (i : Nat) (c : CString) : Prop :=
  IsField [10] text i c ∧ P c ∧ ∀ j < i, ∀ e, IsField [10] text j e → ¬ P e

theorem IsField.le_length (h : IsField [10] text i c) : i + c.length ≤ text.length := by
  obtain ⟨before, after, rfl, rfl, _⟩ := h
  simp only [List.length_append]
  omega

theorem IsField.unique (h : IsField [10] text i c) (h' : IsField [10] text i e) : e = c := by
  obtain ⟨before, after, rfl, rfl, hne, hc, _, hafter⟩ := h
  obtain ⟨before', after', heq, hlen, hne', he, _, hafter'⟩ := h'
  have hcut : Cut [10] (c ++ after) [] c after := ⟨rfl, by simp, hne, hc, hafter⟩
  exact hcut.field_unique (List.append_inj_right heq hlen.symm) he hne' hafter'

/-- Between two lines there is a newline. -/
theorem IsField.lt (h : IsField [10] text i c) (h' : IsField [10] text j e) (hlt : i < j) : i + c.length < j := by
  obtain ⟨before, after, rfl, rfl, hne, hc, _, hafter⟩ := h
  obtain ⟨before', after', heq, rfl, _, _, hlast, _⟩ := h'
  have hcut : Cut [10] (c ++ after) [] c after := ⟨rfl, by simp, hne, hc, hafter⟩
  obtain ⟨x, rfl, hx⟩ : ∃ x, before' = before ++ x ∧ c ++ after = x ++ (e ++ after') := by
    rcases List.append_eq_append_iff.mp heq with ⟨x, hx, hx'⟩ | ⟨x, hx, _⟩
    · exact ⟨x, hx, hx'⟩
    · have hlen := congrArg List.length hx
      rw [List.length_append] at hlen
      omega
  have hx0 : x ≠ [] := by
    rintro rfl
    simp at hlt
  rw [List.getLast?_append_of_ne_nil _ hx0] at hlast
  obtain ⟨b, x', rfl, _⟩ := hcut.behind hx hx0 hlast
  simp only [List.length_append, List.length_cons]
  omega

theorem FirstLine.unique (h : FirstLine text P i c) (h' : FirstLine text P j e) : e = c := by
  rcases Nat.lt_trichotomy i j with hlt | rfl | hlt
  · exact absurd h.2.1 (h'.2.2 i hlt c h.1)
  · exact h.1.unique h'.1
  · exact absurd h'.2.1 (h.2.2 j hlt e h'.1)

theorem Cut.firstLine (hcut : Cut [10] u gap c rest) (hc : P c) : FirstLine u P gap.length c := by
  refine ⟨hcut.isField_iff.mpr (.inl ⟨rfl, rfl⟩), hc, fun j hj e he => ?_⟩
  rcases hcut.isField_iff.mp he with ⟨hj', _⟩ | ⟨k, hj', _⟩
  · omega
  · omega

/-- Without the property, the first line is skipped. -/
theorem Cut.firstLine_tail (hcut : Cut [10] u gap c rest) (hc : ¬ P c) (h : FirstLine rest.tail P j e) :
    FirstLine u P (gap.length + c.length + 1 + j) e := by
  obtain ⟨hj, he, hfirst⟩ := h
  refine ⟨hcut.isField_iff.mpr (.inr ⟨j, rfl, hj⟩), he, fun k hk e' he' => ?_⟩
  rcases hcut.isField_iff.mp he' with ⟨_, rfl⟩ | ⟨k', rfl, hk'⟩
  · exact hc
  · exact hfirst k' (by omega) e' hk'

/-! ## The loop -/

/-- The value behind the first place of `needle` in the first line that has it, or null. -/
def FoundIn (needle : CString) (m : Mem) (p : U64) (u : CString) (value : U64) : Prop :=
  (∃ i before after, FirstLine u (needle <:+: ·) i (before ++ (needle ++ after)) ∧
      (needle <+: before ++ (needle ++ after) → before = []) ∧
      value = p + BitVec.ofNat 64 (i + before.length + needle.length) ∧ StringAt m value after) ∨
    (∀ i c, IsField [10] u i c → ¬ needle <:+: c) ∧ value = 0

theorem configLoop_found (key : CString) (last : U64) (h : StringAt m p u) (h0 : p ≠ 0) (hwrap : p.toNat + u.length < 2 ^ 64)
    (hfuel : u.length < fuel) :
    FoundIn (key ++ [61]) (configLoop key fuel (strtok m last p [10])).2.1 p u
      (configLoop key fuel (strtok m last p [10])).1 := by
  induction fuel generalizing m p u last with
  | zero => cases hfuel
  | succ fuel ih =>
      rcases cut_or_none [10] u with hall | ⟨gap, c, rest, hcut⟩
      · rw [strtok_none last h h0 (by omega) hall]
        exact .inr ⟨fun i c hc => absurd hc (not_isField_of_all hall), rfl⟩
      · have hsize := hcut.length
        have hpos := List.length_pos_of_ne_nil hcut.ne_nil
        have hp0 : p.toNat ≠ 0 := fun hc => h0 (BitVec.eq_of_toNat_eq hc)
        have htail : rest.tail.length ≤ rest.length := by simp
        have hline : (p + BitVec.ofNat 64 gap.length).toNat = p.toNat + gap.length := toNat_add_ofNat (by omega)
        have hline0 : p + BitVec.ofNat 64 gap.length ≠ 0 := by
          intro hc
          rw [hc] at hline
          change 0 = _ at hline
          omega
        have hleft := hcut.left_toNat hwrap
        have hfield := hcut.field_stringAt h hwrap
        have hrest := ih (leftAt (p + BitVec.ofNat 64 gap.length + BitVec.ofNat 64 c.length) rest)
          (hcut.left_stringAt h hwrap) (hcut.left_ne_zero hwrap) (by omega) (by omega)
        rw [← strtok_null] at hrest
        rw [strtok_field h h0 hwrap hcut]
        generalize hp₁ : leftAt (p + BitVec.ofNat 64 gap.length + BitVec.ofNat 64 c.length) rest = p₁ at hrest ⊢
        generalize cutAt m (p + BitVec.ofNat 64 gap.length + BitVec.ofNat 64 c.length) rest = m₁ at hfield hrest ⊢
        have hneedle : key ++ [61] ≠ [] := by simp
        have hlong : c.length < 2 ^ 64 := by omega
        rcases strstrFrom_cases hneedle hfield hlong with ⟨hnone, he⟩ | ⟨before, after, hsplit, hfirst, he⟩
        · simp only [configLoop, hline0, ↓reduceIte, strstr, hneedle, he, ne_eq, not_true_eq_false]
          rcases hrest with ⟨i, before, after, hi, hbefore, hvalue, hafter⟩ | ⟨hnone', hvalue⟩
          · refine .inl ⟨_, before, after, hcut.firstLine_tail hnone hi, hbefore, ?_, hafter⟩
            have hne : rest ≠ [] := by
              rintro rfl
              exact not_isField_of_all (by simp) hi.1
            rw [hvalue, ← hp₁, leftAt, if_neg hne]
            simp only [BitVec.ofNat_add, BitVec.add_assoc]
            rfl
          · refine .inr ⟨fun i e hi => ?_, hvalue⟩
            rcases hcut.isField_iff.mp hi with ⟨_, rfl⟩ | ⟨k, _, hk⟩
            · exact hnone
            · exact hnone' k e hk
        · have hlen := congrArg List.length hsplit
          simp only [List.length_append, List.length_singleton] at hlen
          have hplace : (p + BitVec.ofNat 64 gap.length + BitVec.ofNat 64 before.length).toNat =
              p.toNat + gap.length + before.length := by
            rw [toNat_add_ofNat (by omega), hline]
          have hplace0 : p + BitVec.ofNat 64 gap.length + BitVec.ofNat 64 before.length ≠ 0 := by
            intro hc
            rw [hc] at hplace
            change 0 = _ at hplace
            omega
          simp only [configLoop, hline0, ↓reduceIte, strstr, hneedle, he, ne_eq, hplace0, not_false_eq_true]
          have hvalue : p + BitVec.ofNat 64 gap.length + BitVec.ofNat 64 before.length + BitVec.ofNat 64 key.length + 1 =
              p + BitVec.ofNat 64 (gap.length + before.length + (key ++ [61]).length) := by
            simp only [List.length_append, List.length_singleton, BitVec.ofNat_add, BitVec.add_assoc]
            rfl
          subst hsplit
          refine .inl ⟨gap.length, before, after, hcut.firstLine ⟨before, after, by simp⟩, fun hstart => ?_, hvalue, ?_⟩
          · by_contra hne
            exact hfirst 0 (List.length_pos_of_ne_nil hne) hstart
          · rw [hvalue]
            have hbehind := hfield.append.append
            rw [BitVec.ofNat_add, BitVec.ofNat_add]
            simpa only [BitVec.add_assoc] using hbehind

/-! ## Looking up -/

/-- The value is that of the first line that starts with the key and "=", and null if there is no such line. -/
def FindsKey (m : Mem) (buff : U64) (text key : CString) (value : U64) : Prop :=
  (∃ i v, FirstLine text (key ++ [61] <+: ·) i (key ++ 61 :: v) ∧
      value = buff + BitVec.ofNat 64 (i + key.length + 1) ∧ StringAt m value v) ∨
    (∀ i c, IsField [10] text i c → ¬ key ++ [61] <+: c) ∧ value = 0

/-- The first line with the key and "=" anywhere starts with them. -/
def KeyStartsLine (text key : CString) : Prop := ∀ i c, FirstLine text (key ++ [61] <:+: ·) i c → key ++ [61] <+: c

/-- A lookup finds the key exactly if it occurs in no line before the one it starts. -/
theorem config_finds_key_iff (last : U64) (key : CString) (h : StringAt m buff text) (h0 : buff ≠ 0)
    (hwrap : buff.toNat + text.length < 2 ^ 64) :
    FindsKey (getKernelConfigValue m last buff key).2.1 buff text key (getKernelConfigValue m last buff key).1 ↔
      KeyStartsLine text key := by
  have hlong : text.length < 2 ^ 64 := by omega
  have hfound := configLoop_found key last h h0 hwrap hlong
  rw [getKernelConfigValue]
  generalize configLoop key (2 ^ 64) (strtok m last buff [10]) = r at hfound ⊢
  rcases hfound with ⟨i, before, after, hi, hbefore, hvalue, hafter⟩ | ⟨hnone, hvalue⟩
  · have hle := hi.1.le_length
    simp only [List.length_append, List.length_singleton] at hle
    have hlen : (key ++ [61]).length = key.length + 1 := by simp
    have hbuff : buff.toNat ≠ 0 := fun hc => h0 (BitVec.eq_of_toNat_eq hc)
    have htoNat : r.1.toNat = buff.toNat + (i + before.length + (key.length + 1)) := by
      rw [hvalue, hlen, toNat_add_ofNat (by omega)]
    constructor
    · rintro (⟨j, v, hj, hvalue', _⟩ | ⟨_, hnull⟩)
      · have hle' := hj.1.le_length
        simp only [List.length_append, List.length_cons] at hle'
        rw [hvalue', toNat_add_ofNat (by omega)] at htoNat
        have hplace : j = i + before.length := by omega
        -- the line at `j` would start inside the line at `i`
        have hnil : before = [] := by
          by_contra hne
          have hpos := List.length_pos_of_ne_nil hne
          have hlt := hi.1.lt hj.1 (by omega)
          simp only [List.length_append, List.length_singleton] at hlt
          omega
        intro k e he
        rw [hi.unique he, hnil]
        exact List.prefix_append _ _
      · rw [hnull] at htoNat
        change 0 = _ at htoNat
        omega
    · intro hstarts
      obtain rfl := hbefore (hstarts i _ hi)
      rw [List.nil_append, List.append_assoc] at hi
      refine .inl ⟨i, after, ⟨hi.1, ⟨after, by simp⟩, fun j hj e he hc => hi.2.2 j hj e he hc.isInfix⟩, ?_, hafter⟩
      rw [hvalue, hlen, List.length_nil, Nat.add_zero, Nat.add_assoc]
  · refine ⟨fun _ i c hc => absurd hc.2.1 (hnone i c hc.1), fun _ => .inr ⟨fun i c hc hstart => ?_, hvalue⟩⟩
    exact hnone i c hc hstart.isInfix

/-- The lines "xkey=1" and "key=2" at the address 16. -/
def sampleConfig : CString := [120, 107, 101, 121, 61, 49, 10, 107, 101, 121, 61, 50]

theorem sampleConfig_line : IsField [10] sampleConfig 0 [120, 107, 101, 121, 61, 49] :=
  ⟨[], [10, 107, 101, 121, 61, 50], rfl, rfl, by decide, by decide, by decide, by decide⟩

/-- The memory with a text at the address 16. -/
def textAt (text : CString) : Mem := fun p => text.getD (p.toNat - 16) 0

theorem config_finds_key_iff_sample :
    KeyStartsLine sampleConfig [120, 107, 101, 121] ∧
      FindsKey (getKernelConfigValue (textAt sampleConfig) 0 16 [120, 107, 101, 121]).2.1 16 sampleConfig [120, 107, 101, 121]
        (getKernelConfigValue (textAt sampleConfig) 0 16 [120, 107, 101, 121]).1 := by
  have h : StringAt (textAt sampleConfig) 16 sampleConfig := by decide
  have hstarts : KeyStartsLine sampleConfig [120, 107, 101, 121] := by
    intro i c hc
    have hline : FirstLine sampleConfig ([120, 107, 101, 121] ++ [61] <:+: ·) 0 [120, 107, 101, 121, 61, 49] :=
      ⟨sampleConfig_line, by decide, fun j hj => absurd hj (Nat.not_lt_zero j)⟩
    rw [hline.unique hc]
    decide
  exact ⟨hstarts, (config_finds_key_iff 0 _ h (by decide) (by decide)).mpr hstarts⟩

/-- The key is found at the end of another one. -/
theorem config_finds_other_key :
    StringAt (textAt sampleConfig) 16 sampleConfig ∧
      ¬ FindsKey (getKernelConfigValue (textAt sampleConfig) 0 16 [107, 101, 121]).2.1 16 sampleConfig [107, 101, 121]
        (getKernelConfigValue (textAt sampleConfig) 0 16 [107, 101, 121]).1 := by
  have h : StringAt (textAt sampleConfig) 16 sampleConfig := by decide
  have hvalue : (getKernelConfigValue (textAt sampleConfig) 0 16 [107, 101, 121]).1 = 21 := by decide
  refine ⟨h, ?_⟩
  rw [hvalue]
  rintro (⟨i, v, hi, hplace, _⟩ | ⟨_, hnull⟩)
  · -- the line would start at the second byte of the first line
    have hle : i + (3 + (v.length + 1)) ≤ 12 := by
      have hle := hi.1.le_length
      rwa [List.length_append] at hle
    change (21 : U64) = 16 + BitVec.ofNat 64 (i + 3 + 1) at hplace
    have hbuff : (16 : U64).toNat = 16 := rfl
    have htoNat := congrArg BitVec.toNat hplace
    rw [toNat_add_ofNat (by omega)] at htoNat
    change 21 = 16 + (i + 3 + 1) at htoNat
    have hlt := sampleConfig_line.lt hi.1 (by omega)
    change 0 + 6 < i at hlt
    omega
  · exact absurd hnull (by decide)

end ShadowOS
