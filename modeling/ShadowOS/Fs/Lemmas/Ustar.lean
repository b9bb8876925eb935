import ShadowOS.Fs.Ustar

/-!
# The loop over an archive
-/

namespace ShadowOS.Fs

variable {H : Type} {A : Proc.Allocator H} {root data size : U64} {s s' : Unpacking H × U64}

/-! ## Turns of the loop -/

theorem and_not_511 (x : U32) : x &&& ~~~(511 : U32) = x >>> 9 <<< 9 := by
  apply BitVec.eq_of_getLsbD_eq
  intro i hi
  interval_cases i <;> simp

theorem ustarAdvance_toNat (n : U32) :
    (ustarAdvance n).toNat = (512 + (n.toNat + 511) % 2 ^ 32 / 512 * 512) % 2 ^ 32 := by
  have hadd : (n + 511).toNat = (n.toNat + 511) % 2 ^ 32 := BitVec.toNat_add n 511
  have hshift : ((n + 511) >>> 9 <<< 9).toNat = (n.toNat + 511) % 2 ^ 32 / 512 * 512 := by
    rw [BitVec.toNat_shiftLeft, BitVec.toNat_ushiftRight, hadd, Nat.shiftRight_eq_div_pow, Nat.shiftLeft_eq,
      Nat.mod_eq_of_lt (by omega)]
  rw [ustarAdvance, and_not_511, BitVec.toNat_add, hshift]
  rfl

theorem ustarEntry_skip {u : Unpacking H} {header : U64}
    (h : u.string (u.name header) = [] ∨ u.string (u.name header) = [46]) : ustarEntry A root u header = .ok u := if_pos h

theorem ustarTurn_skip {u : Unpacking H} {offset : U64} (hoff : offset < size) (h0 : u.archive (data + offset) ≠ 0)
    (h : u.string (u.name (data + offset)) = [] ∨ u.string (u.name (data + offset)) = [46]) :
    ustarTurn A root data size (u, offset) () =
      some (u, offset + (ustarAdvance (u.fileSize (data + offset))).setWidth 64) := by
  unfold ustarTurn
  dsimp only
  rw [if_neg (BitVec.not_le.mpr hoff), if_neg h0, ustarEntry_skip h]

/-- How a turn that does not leave the loop changes the offset. -/
theorem ustarTurn_offset (h : ustarTurn A root data size s () = some s') :
    s'.2 = s.2 + (ustarAdvance (s.1.fileSize (data + s.2))).setWidth 64 := by
  obtain ⟨u, offset⟩ := s
  simp only [ustarTurn] at h
  split at h
  · cases h
  · split at h
    · cases h
    · split at h
      · cases h
      · cases h
        rfl

theorem progress_eq_advances : Progress A root data size = Advances A root data size := by
  funext s _
  unfold Progress Advances
  cases hturn : ustarTurn A root data size s () with
  | none => simp
  | some s' =>
      have hoff := congrArg BitVec.toNat (ustarTurn_offset hturn)
      rw [BitVec.toNat_add, BitVec.toNat_setWidth, ustarAdvance_toNat] at hoff
      have hs := s.2.isLt
      have hn := (s.1.fileSize (data + s.2)).isLt
      simp only [Option.some.injEq, forall_eq', ne_eq, reduceCtorEq, not_false_eq_true, forall_const, BitVec.lt_def, eq_iff_iff]
      omega

/-- The loop goes on with the state after the turn. -/
theorem ustarLoop_succ (A : Proc.Allocator H) (root data size : U64) (fuel : Nat) (s : Unpacking H × U64) :
    (∃ s', ustarTurn A root data size s () = some s' ∧
      ustarLoop A root data size (fuel + 1) s.1 s.2 = ustarLoop A root data size fuel s'.1 s'.2) ∨
    ustarTurn A root data size s () = none ∧ ustarLoop A root data size (fuel + 1) s.1 s.2 ≠ .error .loop := by
  obtain ⟨u, offset⟩ := s
  simp only [ustarTurn, ustarLoop]
  split
  · exact .inr ⟨rfl, by simp⟩
  · split
    · exact .inr ⟨rfl, by simp⟩
    · cases hentry : ustarEntry A root u (data + offset) with
      | error why =>
          cases why with
          | ret fs => exact .inr ⟨rfl, by simp⟩
          | stop why => exact .inr ⟨rfl, by simp⟩
      | ok u' => exact .inl ⟨_, rfl, rfl⟩

/-- The offset is a 64-bit number that grows in every turn. -/
theorem ustarLoop_ends {fuel : Nat}
    (h : ∀ n, AllSteps (ustarTurn A root data size) (Progress A root data size) s (List.replicate n ()))
    (hfuel : 2 ^ 64 ≤ fuel + s.2.toNat) : ustarLoop A root data size fuel s.1 s.2 ≠ .error .loop := by
  induction fuel generalizing s with
  | zero =>
      have hs := s.2.isLt
      omega
  | succ fuel ih =>
      rcases ustarLoop_succ A root data size fuel s with ⟨s', hturn, heq⟩ | ⟨_, hne⟩
      · rw [heq]
        have hlt := (h 1).1 s' hturn
        refine ih (fun n => (h (n + 1)).2 s' hturn) ?_
        rw [BitVec.lt_def] at hlt
        omega
      · exact hne

/-- A turn that changes nothing is never the last one. -/
theorem ustarLoop_endless (h : ustarTurn A root data size s () = some s) (fuel : Nat) :
    ustarLoop A root data size fuel s.1 s.2 = .error .loop := by
  induction fuel with
  | zero => rfl
  | succ fuel ih =>
      rcases ustarLoop_succ A root data size fuel s with ⟨s', hturn, heq⟩ | ⟨hnone, _⟩
      · rw [h] at hturn
        cases hturn
        rw [heq, ih]
      · rw [h] at hnone
        cases hnone

/-! ## Bytes that are read -/

theorem strtok_mem (m : Mem) (last str : U64) (delim : CString) :
    (strtok m last str delim).2.1 = m ∨ ∃ stop, (strtok m last str delim).2.1 = Function.update m stop 0 := by
  simp only [strtok]
  generalize (if str = 0 then last else str) = str
  split
  · exact .inl rfl
  · split
    · exact .inl rfl
    · split
      · exact .inr ⟨_, rfl⟩
      · exact .inl rfl

/-- The archive after `strtok`: some bytes are zero now. -/
def Zeroed (m m' : Mem) : Prop := ∀ p, m' p = m p ∨ m' p = 0

namespace Zeroed

variable {m m' m₁ : Mem}

theorem refl (m : Mem) : Zeroed m m := fun _ => .inl rfl

theorem trans (h : Zeroed m m₁) (h' : Zeroed m₁ m') : Zeroed m m' := by
  intro p
  rcases h' p with hp | hp
  · rw [hp]
    exact h p
  · exact .inr hp

theorem readString (h : Zeroed m m') (fuel : Nat) (p : U64) : readString m' fuel p <+: readString m fuel p := by
  induction fuel generalizing p with
  | zero => exact List.nil_prefix
  | succ fuel ih =>
      simp only [ShadowOS.readString]
      rcases h p with hp | hp
      · rw [hp]
        split
        · exact List.nil_prefix
        · exact List.cons_prefix_cons.mpr ⟨rfl, ih (p + 1)⟩
      · rw [if_pos hp]
        exact List.nil_prefix

theorem strtok (h : Zeroed m m') (last str : U64) (delim : CString) : Zeroed m (strtok m' last str delim).2.1 := by
  rcases strtok_mem m' last str delim with he | ⟨stop, he⟩
  · rwa [he]
  · rw [he]
    refine h.trans (fun p => ?_)
    by_cases hp : p = stop
    · rw [hp, Function.update_self]
      exact .inr rfl
    · rw [Function.update_of_ne hp]
      exact .inl rfl

end Zeroed

theorem digitsLength_mono {base : Nat} {result : Int} {s t : CString} (h : s <+: t) :
    digitsLength base result s ≤ digitsLength base result t := by
  induction s generalizing t result with
  | nil => exact Nat.zero_le _
  | cons c s ih =>
      obtain ⟨t, rfl, h'⟩ := List.cons_prefix_iff.mp h
      simp only [digitsLength]
      cases digitValue c with
      | none => exact le_rfl
      | some digit =>
          dsimp only
          split
          · exact le_rfl
          · split
            · exact le_rfl
            · exact Nat.succ_le_succ (ih h')

theorem strtolLength_mono (base : Nat) {s t : CString} (h : s <+: t) : strtolLength base s ≤ strtolLength base t := by
  induction s generalizing t with
  | nil => exact Nat.zero_le _
  | cons c s ih =>
      obtain ⟨t, rfl, h'⟩ := List.cons_prefix_iff.mp h
      simp only [strtolLength]
      split
      · exact Nat.succ_le_succ (ih h')
      · split
        · exact Nat.succ_le_succ (digitsLength_mono h')
        · exact digitsLength_mono h

theorem inside_of_lt (data : U64) {offset : U64} {d : Nat} (h : offset.toNat + d < size.toNat) :
    data + offset + BitVec.ofNat 64 d - data < size := by
  have hs := size.isLt
  rw [BitVec.lt_def]
  have hsub : data + offset + BitVec.ofNat 64 d - data = offset + BitVec.ofNat 64 d := by
    rw [BitVec.add_assoc, BitVec.add_comm data, BitVec.add_sub_cancel]
  rw [hsub, BitVec.toNat_add, BitVec.toNat_ofNat]
  omega

theorem inside_addressSpan (data : U64) {offset : U64} (d : Nat) {n : Nat} (h : offset.toNat + d + n < size.toNat) :
    ∀ p ∈ addressSpan (data + offset + BitVec.ofNat 64 d) n, p - data < size := by
  intro p hp
  obtain ⟨i, hi, rfl⟩ := List.mem_map.mp hp
  rw [List.mem_range] at hi
  rw [BitVec.add_assoc, ← BitVec.ofNat_add]
  exact inside_of_lt data (by omega)

/-- More fuel does not change a string that ends. -/
theorem readString_fuel {m : Mem} {fuel : Nat} {p : U64} (h : (readString m fuel p).length < fuel) {fuel' : Nat}
    (hle : fuel ≤ fuel') : readString m fuel' p = readString m fuel p := by
  induction fuel generalizing p fuel' with
  | zero => cases h
  | succ fuel ih =>
      cases fuel' with
      | zero => cases hle
      | succ fuel' =>
          simp only [readString] at h ⊢
          split
          · rfl
          · rename_i hp
            rw [if_neg hp, List.length_cons] at h
            rw [ih (Nat.lt_of_succ_lt_succ h) (Nat.le_of_succ_le_succ hle)]

variable {u u' : Unpacking H} {offset header : U64}

theorem ustarDir_keeps {parent : U64} {name : CString} (h : ustarDir A u header parent name = .ok u') :
    u'.archive = u.archive ∧ u'.last = u.last := by
  unfold ustarDir at h
  split at h
  · cases h
  · split at h
    · cases h
    · cases h
      exact ⟨rfl, rfl⟩

/-- The loop over a name only marks the ends of tokens. -/
theorem zeroed_ustarWalk {dir : Bool} {fuel : Nat} {parent token parent' token' : U64}
    (h : ustarWalk A header dir fuel u parent token = .ok (u', parent', token')) : Zeroed u.archive u'.archive := by
  induction fuel generalizing u parent token with
  | zero =>
      cases h
      exact .refl _
  | succ fuel ih =>
      simp only [ustarWalk] at h
      split at h
      · cases h
        exact .refl _
      · split at h
        · cases h
        · split at h
          · exact ((Zeroed.refl _).strtok _ _ _).trans (ih h)
          · split at h
            · cases hdir : ustarDir A u header parent (u.string token) with
              | error why =>
                  rw [hdir] at h
                  cases h
              | ok u₁ =>
                  rw [hdir] at h
                  rw [← (ustarDir_keeps hdir).1]
                  exact ((Zeroed.refl _).strtok _ _ _).trans (ih h)
            · cases h
              exact .refl _

/-- A number of the header stays inside when bytes become zero. -/
theorem inside_fieldReads {d : Nat} (hz : Zeroed u.archive u'.archive)
    (h : offset.toNat + d + strtolLength 8 (u.string (data + offset + BitVec.ofNat 64 d)) < size.toNat) :
    ∀ p ∈ u'.fieldReads (data + offset + BitVec.ofNat 64 d), p - data < size := by
  have hle := strtolLength_mono 8 (hz.readString maxBytes (data + offset + BitVec.ofNat 64 d))
  refine inside_addressSpan data d (lt_of_le_of_lt ?_ h)
  exact Nat.add_le_add_left hle _

/-- The name starts at the header or two bytes later. -/
theorem inside_name (h : offset.toNat + (u.string (data + offset)).length < size.toNat) :
    ∀ p ∈ u.stringReads (u.name (data + offset)), p - data < size := by
  have hs := size.isLt
  unfold Unpacking.name
  split
  · rename_i hdot
    -- the string at the header is longer by the two bytes
    have hstr : u.string (data + offset) = 46 :: slash :: readString u.archive (2 ^ 64 - 2) (data + offset + 2) := by
      have h2 : data + offset + 1 + 1 = data + offset + 2 := by
        rw [BitVec.add_assoc]
        rfl
      have hmax : maxBytes = (2 ^ 64 - 2) + 1 + 1 := rfl
      rw [Unpacking.string, hmax, readString, hdot.1, if_neg (by decide), readString, hdot.2, if_neg (by decide), h2]
    rw [hstr, List.length_cons, List.length_cons] at h
    have hfuel : u.string (data + offset + 2) = readString u.archive (2 ^ 64 - 2) (data + offset + 2) :=
      readString_fuel (by omega) (by decide)
    have hlen : offset.toNat + 2 + (u.string (data + offset + 2)).length < size.toNat := by
      rw [hfuel]
      omega
    exact inside_addressSpan data 2 hlen
  · have hspan := inside_addressSpan data 0 h
    rwa [show data + offset + BitVec.ofNat 64 0 = data + offset from BitVec.add_zero _] at hspan

section Entry

variable {parent token : U64} {name : CString} (hz : Zeroed u.archive u'.archive)
  (hmode : offset.toNat + 100 + strtolLength 8 (u.string (data + offset + 100)) < size.toNat)
  (htime : offset.toNat + 136 + strtolLength 8 (u.string (data + offset + 136)) < size.toNat)
include hz hmode htime

theorem inside_ustarDirReads : ∀ p ∈ ustarDirReads A u' (data + offset) parent name, p - data < size := by
  unfold ustarDirReads
  split
  · simp
  · split
    · simp
    · rw [List.forall_mem_append]
      exact ⟨inside_fieldReads hz hmode, inside_fieldReads hz htime⟩

theorem inside_ustarWalkReads {dir : Bool} {fuel : Nat} :
    ∀ p ∈ ustarWalkReads A (data + offset) dir fuel u' parent token, p - data < size := by
  induction fuel generalizing u' parent token with
  | zero => simp [ustarWalkReads]
  | succ fuel ih =>
      simp only [ustarWalkReads]
      split
      · simp
      · split
        · simp
        · split
          · exact ih (hz.strtok _ _ _)
          · split
            · exact inside_ustarDirReads hz hmode htime
            · simp

theorem inside_ustarFileReads {n : U32} (hn : offset.toNat + 512 + n.toNat ≤ size.toNat) :
    ∀ p ∈ ustarFileReads A u' (data + offset) parent name n, p - data < size := by
  unfold ustarFileReads
  split
  · simp
  · split
    · simp
    · dsimp only
      split
      · simp
      · split
        · simp
        · rw [List.forall_mem_append, List.forall_mem_append]
          refine ⟨fun p hp => ?_, inside_fieldReads hz hmode, inside_fieldReads hz htime⟩
          obtain ⟨i, hi, rfl⟩ := List.mem_map.mp hp
          rw [List.mem_range] at hi
          have hlt : offset.toNat + (512 + i) < size.toNat := by omega
          have hin := inside_of_lt data hlt
          rw [BitVec.ofNat_add, ← BitVec.add_assoc] at hin
          exact hin

end Entry

/-- An entry that is inside the archive is read inside the archive. -/
theorem EntryInside.readsInside
    (h : s.2 < size → s.1.archive (data + s.2) ≠ 0 → EntryInside data size s) : ReadsInside A root data size s := by
  obtain ⟨u, offset⟩ := s
  simp only at h
  unfold ReadsInside ustarReads
  dsimp only
  split
  · simp
  · rename_i hoff
    rw [BitVec.not_le] at hoff
    have hheader : data + offset - data < size := by
      rwa [BitVec.add_comm, BitVec.add_sub_cancel]
    split
    · simpa using hheader
    · rename_i h0
      obtain ⟨hlen, hname, hfields, hcontents⟩ := h hoff h0
      simp only at hlen hname hfields hcontents
      have hmode := hfields 100 (by simp)
      have hsize := hfields 124 (by simp)
      have htime := hfields 136 (by simp)
      simp only [List.forall_mem_append]
      refine ⟨⟨⟨⟨?_, ?_⟩, ?_⟩, ?_⟩, ?_⟩
      · simp only [List.mem_cons, List.not_mem_nil, or_false]
        rintro p (rfl | rfl)
        · exact hheader
        · exact inside_of_lt data (d := 156) (by omega)
      · exact inside_fieldReads (.refl _) hsize
      · split
        · simp only [List.mem_singleton, forall_eq]
          exact inside_of_lt data (d := 1) (by omega)
        · simp
      · exact inside_name hname
      · split
        · simp
        · have hz := (Zeroed.refl u.archive).strtok u.last (u.name (data + offset)) [slash]
          refine List.forall_mem_append.mpr ⟨inside_fieldReads (.refl _) hmode, List.forall_mem_append.mpr
            ⟨inside_ustarWalkReads hz hmode htime, ?_⟩⟩
          split
          · simp
          · rename_i hwalk
            split
            · simp
            · rename_i hdir
              split
              · have hz₂ := hz.trans (zeroed_ustarWalk hwalk)
                exact inside_ustarFileReads (hz₂.strtok _ _ _) hmode htime (hcontents.resolve_left hdir)
              · simp

end ShadowOS.Fs
