import ShadowOS.Lib.Fields

/-!
# The tokens of a path

What `strtok` makes of a path, from its first call to the last.
-/

namespace ShadowOS

variable {m m' : Mem} {p q last : U64} {s t c rest : CString} {cs : List CString} {fuel : Nat}

/-! ## Tokens -/

/-- The parts of a path between its slashes. -/
def tokens (s : CString) : List CString := (s.splitOn slash).filter (· ≠ [])

theorem splitOn_append (hc : slash ∉ c) (rest : CString) : (c ++ slash :: rest).splitOn slash = c :: rest.splitOn slash := by
  refine List.splitOnP_append_cons_of_forall_mem (fun b hb => ?_) slash (by simp) rest
  rw [beq_eq_false_iff_ne]
  rintro rfl
  exact hc hb

theorem tokens_nil : tokens [] = [] := by decide

theorem tokens_slash (s : CString) : tokens (slash :: s) = tokens s := by
  have hs := splitOn_append (c := []) (by simp) s
  rw [List.nil_append] at hs
  simp [tokens, hs]

theorem tokens_last (hc : slash ∉ c) (hne : c ≠ []) : tokens c = [c] := by
  simp [tokens, List.splitOn_eq_singleton hc, hne]

theorem tokens_cons (hc : slash ∉ c) (hne : c ≠ []) (rest : CString) : tokens (c ++ slash :: rest) = c :: tokens rest := by
  simp [tokens, splitOn_append hc, hne]

theorem tokens_dropWhile (s : CString) : tokens (s.dropWhile (· = slash)) = tokens s := by
  induction s with
  | nil => rfl
  | cons b s ih =>
      rw [List.dropWhile_cons]
      by_cases hb : b = slash
      · rw [hb, if_pos (by simp), ih, tokens_slash]
      · rw [if_neg (by simpa using hb)]

/-- A token is not empty and has no slash. -/
structure IsToken (c : CString) : Prop where
  ne_nil : c ≠ []
  slash : ShadowOS.slash ∉ c

theorem IsToken.tokens (h : IsToken c) : tokens c = [c] := tokens_last h.slash h.ne_nil

/-- What follows the slashes at the start of a path is nothing, or a token with what comes after it. -/
theorem dropWhile_cases (s : CString) : s.dropWhile (· = slash) = [] ∧ tokens s = [] ∨
    ∃ c rest, IsToken c ∧ s.dropWhile (· = slash) = c ++ rest ∧
      (rest = [] ∧ tokens s = [c] ∨ ∃ rest', rest = slash :: rest' ∧ tokens s = c :: tokens rest') := by
  rw [← tokens_dropWhile s]
  cases hs : s.dropWhile (· = slash) with
  | nil => exact .inl ⟨rfl, tokens_nil⟩
  | cons b t =>
      have hb : b ≠ slash := by
        have hhead := List.head?_dropWhile_not (fun b => decide (b = slash)) s
        rw [hs] at hhead
        simpa using hhead
      refine .inr ?_
      by_cases hmem : slash ∈ b :: t
      · obtain ⟨c, rest, hct, hc⟩ := List.eq_append_cons_of_mem hmem
        have hne : c ≠ [] := by
          rintro rfl
          rw [List.nil_append, List.cons.injEq] at hct
          exact hb hct.1
        exact ⟨c, slash :: rest, ⟨hne, hc⟩, hct, .inr ⟨rest, rfl, by rw [hct, tokens_cons hc hne]⟩⟩
      · exact ⟨b :: t, [], ⟨by simp, hmem⟩, by simp, .inl ⟨rfl, tokens_last hmem (by simp)⟩⟩

theorem length_tokens_le (s : CString) : (tokens s).length ≤ s.length := by
  induction hlen : s.length using Nat.strong_induction_on generalizing s with
  | _ len ih =>
      subst hlen
      have hdrop := (List.dropWhile_suffix (l := s) (fun b => decide (b = slash))).length_le
      rcases dropWhile_cases s with ⟨_, hnil⟩ | ⟨c, rest, htok, hs, ⟨_, hc⟩ | ⟨rest', rfl, hc⟩⟩
      · rw [hnil]
        exact Nat.zero_le _
      · have hpos := List.length_pos_of_ne_nil htok.ne_nil
        rw [hs, List.length_append] at hdrop
        rw [hc, List.length_singleton]
        omega
      · rw [hs, List.length_append, List.length_cons] at hdrop
        have hrest := ih rest'.length (by omega) rest' rfl
        rw [hc, List.length_cons]
        omega

/-! ## Calls of strtok -/

/-- The part of a path that is left for the calls with a null pointer: its tokens are `cs`, and it ends at `stop`. -/
def Left (m : Mem) (start stop : Nat) (last : U64) (cs : List CString) : Prop :=
  ∃ rest, StringAt m last rest ∧ tokens rest = cs ∧ last ≠ 0 ∧ start ≤ last.toNat ∧ last.toNat + rest.length = stop

/-- A token at `token`, from `start` on and up to `stop`. -/
structure TokenAt (m : Mem) (start stop : Nat) (token : U64) (c : CString) : Prop extends IsToken c where
  nonnull : token ≠ 0
  string : StringAt m token c
  start : start ≤ token.toNat
  stop : token.toNat + c.length ≤ stop

/-- Without a token left there are only slashes. -/
theorem mem_of_tokens_nil (ht : tokens s = []) : ∀ b ∈ s, b ∈ [slash] := by
  have hnil : s.dropWhile (· = slash) = [] := by
    rcases dropWhile_cases s with ⟨hnil, _⟩ | ⟨c, rest, _, _, ⟨_, hc⟩ | ⟨_, _, hc⟩⟩
    · exact hnil
    · rw [ht] at hc
      cases hc
    · rw [ht] at hc
      cases hc
  simpa using List.dropWhile_eq_nil_iff.mp hnil

/-- The next token is the next field between slashes. -/
theorem cut_of_tokens (ht : tokens s = c :: cs) :
    ∃ gap rest, IsToken c ∧ Cut [slash] s gap c rest ∧ tokens rest.tail = cs := by
  rcases dropWhile_cases s with ⟨_, hnil⟩ | ⟨c', rest, htok, hdrop, hrest⟩
  · rw [ht] at hnil
    cases hnil
  · have hsplit : s = s.takeWhile (· = slash) ++ (c' ++ rest) := by
      rw [← hdrop, List.takeWhile_append_dropWhile]
    have hgap : ∀ b ∈ s.takeWhile (· = slash), b ∈ [slash] := fun b hb => by simpa using List.mem_takeWhile_imp hb
    have hfield : ∀ b ∈ c', b ∉ [slash] := by
      intro b hb
      rw [List.mem_singleton]
      rintro rfl
      exact htok.slash hb
    rcases hrest with ⟨rfl, htoks⟩ | ⟨rest', rfl, htoks⟩
    · rw [ht] at htoks
      cases htoks
      exact ⟨_, [], htok, ⟨hsplit, hgap, htok.ne_nil, hfield, by simp⟩, tokens_nil⟩
    · rw [ht] at htoks
      cases htoks
      exact ⟨_, slash :: rest', htok, ⟨hsplit, hgap, htok.ne_nil, hfield, by simp⟩, rfl⟩

/-- The next token is cut off, and the rest of the path is left. -/
theorem strtok_cons (last : U64) (h : StringAt m p s) (h0 : p ≠ 0) (hwrap : p.toNat + s.length < 2 ^ 64) (ht : tokens s = c :: cs) :
    ∃ t m' last', strtok m last p [slash] = (t, m', last') ∧ TokenAt m' p.toNat (p.toNat + s.length) t c ∧
      Left m' p.toNat (p.toNat + s.length) last' cs ∧ SameOutside p.toNat (p.toNat + s.length) m m' := by
  obtain ⟨gap, rest, htok, hcut, hrest⟩ := cut_of_tokens ht
  have hlen := hcut.length
  have hpos := List.length_pos_of_ne_nil hcut.ne_nil
  have hleft := hcut.left_toNat hwrap
  have htail : rest.tail.length ≤ rest.length := by simp
  have hstart : (p + BitVec.ofNat 64 gap.length).toNat = p.toNat + gap.length := toNat_add_ofNat (by omega)
  have hp0 : p.toNat ≠ 0 := fun hc => h0 (BitVec.eq_of_toNat_eq hc)
  refine ⟨_, _, _, strtok_field h h0 hwrap hcut last, ⟨htok, fun hc => ?_, hcut.field_stringAt h hwrap, by omega, by omega⟩,
    ⟨rest.tail, hcut.left_stringAt h hwrap, hrest, hcut.left_ne_zero hwrap, by omega, hleft⟩,
    (hcut.sameOutside hwrap).mono (by omega) le_rfl⟩
  rw [hc] at hstart
  change 0 = _ at hstart
  omega

theorem TokenAt.mono {start start' stop stop' : Nat} (h : TokenAt m start stop p c) (hs : start' ≤ start) (hs' : stop ≤ stop') :
    TokenAt m start' stop' p c := ⟨h.toIsToken, h.nonnull, h.string, hs.trans h.start, h.stop.trans hs'⟩

theorem Left.mono {start start' stop : Nat} (h : Left m start stop last cs) (hs : start' ≤ start) :
    Left m start' stop last cs := by
  obtain ⟨rest, hrest, ht, h0, hstart, hstop⟩ := h
  exact ⟨rest, hrest, ht, h0, hs.trans hstart, hstop⟩

/-- A token that is cut again is the same one. -/
theorem TokenAt.strtok {start stop : Nat} (last : U64) (h : TokenAt m start stop p c) (hstop : stop < 2 ^ 64) :
    ∃ t m' last', strtok m last p [slash] = (t, m', last') ∧ TokenAt m' start stop t c ∧ SameOutside start stop m m' := by
  have hlow := h.start
  have hhigh := h.stop
  obtain ⟨t, m', last', hres, ht, _, hsame⟩ := strtok_cons last h.string h.nonnull (by omega) h.toIsToken.tokens
  exact ⟨t, m', last', hres, ht.mono hlow hhigh, hsame.mono hlow hhigh⟩

/-! ## All tokens in turn -/

/-- The loop over the tokens is at `token`, the first one of those that are to come. -/
def Pending (m : Mem) (start stop : Nat) (token last : U64) : List CString → Prop
  | [] => token = 0 ∧ Left m start stop last []
  | c :: cs => TokenAt m start stop token c ∧ Left m start stop last cs

/-- The call for the next token. -/
theorem Left.strtok {start stop : Nat} (h : Left m start stop last cs) (hstop : stop < 2 ^ 64) :
    ∃ t m' last', strtok m last 0 [slash] = (t, m', last') ∧ Pending m' start stop t last' cs ∧ SameOutside start stop m m' := by
  rw [strtok_null]
  obtain ⟨rest, hrest, ht, h0, hlow, hhigh⟩ := h
  cases cs with
  | nil =>
      refine ⟨0, m, last, strtok_none last hrest h0 (by omega) (mem_of_tokens_nil ht), ⟨rfl, rest, hrest, ht, h0, hlow, hhigh⟩, .refl _ _ _⟩
  | cons c cs =>
      obtain ⟨t, m', last', hres, htok, hleft, hsame⟩ := strtok_cons last hrest h0 (by omega) ht
      rw [hhigh] at htok hleft hsame
      exact ⟨t, m', last', hres, ⟨htok.mono hlow le_rfl, hleft.mono hlow⟩, hsame.mono hlow le_rfl⟩

end ShadowOS
