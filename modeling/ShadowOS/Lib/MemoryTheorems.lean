import ShadowOS.Lib.Memory

/-!
# memmove, strncpy and strncat
-/

namespace ShadowOS

open Mem

variable {m : Mem} {dest src d s : U64} {t u : CString} {n i k : Nat}

/-! ## The loops -/

theorem add_ofNat_add_one (a : U64) (i : Nat) : a + BitVec.ofNat 64 i + 1 = a + BitVec.ofNat 64 (i + 1) := by
  rw [BitVec.ofNat_add, ← BitVec.add_assoc]
  rfl

/-- The loop has stored `i` bytes, and `n` are left. -/
theorem copyUp_write (h : i + n ≤ 2 ^ 64) :
    copyUp n (m.write d (echo m d s) i) (d + BitVec.ofNat 64 i) (s + BitVec.ofNat 64 i) = m.write d (echo m d s) (i + n) := by
  induction n generalizing i with
  | zero => rfl
  | succ n ih =>
      rw [copyUp, update_write_echo (by omega), add_ofNat_add_one, add_ofNat_add_one, ih (by omega)]
      congr 1
      omega

theorem copyUp_eq (m : Mem) (d s : U64) (h : n ≤ 2 ^ 64) : copyUp n m d s = m.write d (echo m d s) n := by
  have hloop := copyUp_write (m := m) (d := d) (s := s) (i := 0) (n := n) (by omega)
  rwa [write_zero, BitVec.add_zero, BitVec.add_zero, Nat.zero_add] at hloop

theorem setBytes_write (c : U8) (h : i + n ≤ 2 ^ 64) :
    setBytes c n (m.write d (fun _ => c) i) (d + BitVec.ofNat 64 i) = m.write d (fun _ => c) (i + n) := by
  induction n generalizing i with
  | zero => rfl
  | succ n ih =>
      have hstep := write_succ (m := m) (a := d) (f := fun _ => c) (i := i) (by omega)
      rw [setBytes, hstep, add_ofNat_add_one, ih (by omega)]
      congr 1
      omega

theorem setBytes_eq (c : U8) (m : Mem) (d : U64) (h : n ≤ 2 ^ 64) : setBytes c n m d = m.write d (fun _ => c) n := by
  have hloop := setBytes_write (m := m) (d := d) (i := 0) (n := n) c (by omega)
  rwa [write_zero, BitVec.add_zero, Nat.zero_add] at hloop

/-- The bytes from `dest + i` on are stored, and the `i` bytes before them are not read any more. -/
theorem copyDown_write (hle : src.toNat ≤ dest.toNat) (hdest : dest.toNat + (n + i) ≤ 2 ^ 64) :
    copyDown i (m.write (dest + BitVec.ofNat 64 i) (fun j => m (src + BitVec.ofNat 64 (j + i))) n) (dest + BitVec.ofNat 64 i)
      (src + BitVec.ofNat 64 i) = m.write dest (fun j => m (src + BitVec.ofNat 64 j)) (n + i) := by
  induction i generalizing n with
  | zero => rw [copyDown, BitVec.add_zero]; rfl
  | succ i ih =>
      have hback : ∀ a : U64, a + BitVec.ofNat 64 (i + 1) - 1 = a + BitVec.ofNat 64 i := by
        intro a
        rw [← add_ofNat_add_one, BitVec.add_sub_cancel]
      have hread : n ≤ (src + BitVec.ofNat 64 i - (dest + BitVec.ofNat 64 (i + 1))).toNat := by
        have hs := src.isLt
        rw [BitVec.toNat_sub, BitVec.toNat_add, BitVec.toNat_add, BitVec.toNat_ofNat, BitVec.toNat_ofNat]
        omega
      have hstep := write_cons (m := m) (a := dest + BitVec.ofNat 64 i) (n := n)
        (f := fun j => m (src + BitVec.ofNat 64 (j + i))) (by omega)
      rw [copyDown, hback, hback, write_of_le hread]
      rw [add_ofNat_add_one, Nat.zero_add] at hstep
      have hsame : (fun j => m (src + BitVec.ofNat 64 (j + 1 + i))) = fun j => m (src + BitVec.ofNat 64 (j + (i + 1))) := by
        funext j
        rw [Nat.add_assoc, Nat.add_comm 1 i]
      rw [hsame] at hstep
      rw [hstep, ih (by omega)]
      congr 1
      omega

/-! ## Copies of a range -/

theorem memset_eq (m : Mem) (s : U64) (c : U32) (n : U64) : memset m s c n = (s, m.fill s (c.setWidth 8) n.toNat) := by
  rw [memset, setBytes_eq _ _ _ n.isLt.le, fill_eq_write]

/-- `memcpy` copies the source as it was when the destination does not begin behind its first byte. -/
theorem memcpy_eq {n : U64} (h : dest = src ∨ n.toNat ≤ (dest - src).toNat) :
    memcpy m dest src n = (dest, m.copyFrom dest m src n.toNat) := by
  rw [memcpy, copyUp_eq m dest src n.isLt.le, copyFrom_eq_write]
  refine congrArg _ (write_congr fun i hi => echo_of_lt ?_)
  exact h.imp_right hi.trans_le

theorem memmove_eq {n : U64} (hsrc : src.toNat + n.toNat ≤ 2 ^ 64) (hdest : dest.toNat + n.toNat ≤ 2 ^ 64) :
    memmove m dest src n = (dest, m.copyFrom dest m src n.toNat) := by
  rw [memmove]
  split
  · rename_i hlt
    rw [BitVec.lt_def] at hlt
    refine memcpy_eq (.inr ?_)
    rw [BitVec.toNat_sub]
    omega
  · rename_i hle
    rw [BitVec.not_lt, BitVec.le_def] at hle
    have hloop := copyDown_write (m := m) (n := 0) (i := n.toNat) hle (by omega)
    rw [write_zero, BitVec.ofNat_toNat, BitVec.setWidth_eq, Nat.zero_add] at hloop
    rw [hloop, copyFrom_eq_write]

/-- `memmove` leaves the original bytes of the source at the destination and every other byte as it was. -/
theorem memmove_handles_overlap (m : Mem) (dest src n : U64) (hsrc : src.toNat + n.toNat ≤ 2 ^ 64)
    (hdest : dest.toNat + n.toNat ≤ 2 ^ 64) :
    (∀ i < n.toNat, (memmove m dest src n).2 (dest + BitVec.ofNat 64 i) = m (src + BitVec.ofNat 64 i)) ∧
    ∀ x, x.toNat < dest.toNat ∨ dest.toNat + n.toNat ≤ x.toNat → (memmove m dest src n).2 x = m x := by
  rw [memmove_eq hsrc hdest, copyFrom_eq_write]
  dsimp only
  refine ⟨fun i hi => write_add hi n.isLt.le, fun x hx => write_of_le ?_⟩
  have hlt := x.isLt
  rw [BitVec.toNat_sub]
  omega

/-- Three bytes are moved one address up and one address down. -/
theorem memmove_handles_overlap_sample :
    let m : Mem := fun p => p.setWidth 8
    (∀ i < 3, (memmove m 17 16 3).2 (17 + BitVec.ofNat 64 i) = m (16 + BitVec.ofNat 64 i)) ∧
    ∀ i < 3, (memmove m 15 16 3).2 (15 + BitVec.ofNat 64 i) = m (16 + BitVec.ofNat 64 i) :=
  ⟨(memmove_handles_overlap _ 17 16 3 (by decide) (by decide)).1, (memmove_handles_overlap _ 15 16 3 (by decide) (by decide)).1⟩

/-! ## Copies of a string -/

namespace StringAt

/-- The bytes of a string, with its terminator. -/
theorem getD (h : StringAt m s t) (hi : i ≤ t.length) : m (s + BitVec.ofNat 64 i) = t.getD i 0 := by
  induction t generalizing s i with
  | nil =>
      obtain rfl : i = 0 := Nat.le_zero.mp hi
      rw [BitVec.add_zero]
      exact h
  | cons b t ih =>
      obtain ⟨hb, _, ht⟩ := h
      cases i with
      | zero => rw [BitVec.add_zero]; exact hb
      | succ i =>
          rw [← add_one_add_ofNat, List.getD_cons_succ]
          exact ih ht (Nat.le_of_succ_le_succ hi)

theorem getD_ne_zero (h : StringAt m s t) (hi : i < t.length) : t.getD i 0 ≠ 0 := by
  induction t generalizing s i with
  | nil => cases hi
  | cons b t ih =>
      obtain ⟨_, hb, ht⟩ := h
      cases i with
      | zero => exact hb
      | succ i => exact ih ht (Nat.lt_of_succ_lt_succ hi)

theorem ne_zero_of_mem {b : U8} (h : StringAt m s t) (hb : b ∈ t) : b ≠ 0 := by
  obtain ⟨i, hi, rfl⟩ := List.getElem_of_mem hb
  rw [← List.getD_eq_getElem _ 0 hi]
  exact h.getD_ne_zero hi

theorem ne_zero (h : StringAt m s t) (hi : i < t.length) : m (s + BitVec.ofNat 64 i) ≠ 0 := by
  rw [h.getD hi.le]
  exact h.getD_ne_zero hi

/-- The addresses of a string do not come round to its start. -/
theorem length_lt (h : StringAt m s t) : t.length < 2 ^ 64 := by
  by_contra hc
  have hround : BitVec.ofNat 64 t.length = BitVec.ofNat 64 (t.length - 2 ^ 64) := by
    refine BitVec.eq_of_toNat_eq ?_
    rw [BitVec.toNat_ofNat, BitVec.toNat_ofNat]
    omega
  have hstop := h.stop
  rw [hround] at hstop
  exact h.ne_zero (by omega) hstop

theorem strlen (h : StringAt m s t) : strlen m s = t.length := by
  rw [ShadowOS.strlen, spanLength_eq _ h h.length_lt.le, List.takeWhile_eq_self_iff.mpr (fun _ _ => rfl)]

end StringAt

theorem stringAt_of_getD (hbytes : ∀ i ≤ t.length, m (s + BitVec.ofNat 64 i) = t.getD i 0) (h0 : ∀ b ∈ t, b ≠ 0) :
    StringAt m s t := by
  induction t generalizing s with
  | nil =>
      have hfirst := hbytes 0 le_rfl
      rwa [BitVec.add_zero] at hfirst
  | cons b t ih =>
      refine ⟨?_, h0 b List.mem_cons_self, ih (fun i hi => ?_) fun c hc => h0 c (List.mem_cons_of_mem b hc)⟩
      · have hfirst := hbytes 0 (Nat.zero_le _)
        rwa [BitVec.add_zero] at hfirst
      · rw [add_one_add_ofNat, hbytes (i + 1) (Nat.succ_le_succ hi), List.getD_cons_succ]

/-- One round of the loop, after `i` bytes. -/
theorem copyChars_succ (hi : i < 2 ^ 64) :
    copyChars (n + 1) (m.write d (echo m d s) i) (d + BitVec.ofNat 64 i) (s + BitVec.ofNat 64 i) =
      if echo m d s i = 0 then (n + 1, m.write d (echo m d s) (i + 1), d + BitVec.ofNat 64 (i + 1))
      else copyChars n (m.write d (echo m d s) (i + 1)) (d + BitVec.ofNat 64 (i + 1)) (s + BitVec.ofNat 64 (i + 1)) := by
  rw [copyChars, update_write_echo hi, write_echo hi, add_ofNat_add_one, add_ofNat_add_one]

theorem copyChars_write (hf : ∀ j < i + n, echo m d s j ≠ 0) (h : i + n ≤ 2 ^ 64) :
    copyChars n (m.write d (echo m d s) i) (d + BitVec.ofNat 64 i) (s + BitVec.ofNat 64 i) =
      (0, m.write d (echo m d s) (i + n), d + BitVec.ofNat 64 (i + n)) := by
  induction n generalizing i with
  | zero => rfl
  | succ n ih =>
      have he : i + (n + 1) = i + 1 + n := by omega
      rw [copyChars_succ (by omega), if_neg (hf i (by omega)), he]
      exact ih (fun j hj => hf j (by omega)) (by omega)

theorem copyChars_write_stop (hf : ∀ j < k, echo m d s j ≠ 0) (h0 : echo m d s k = 0) (hik : i ≤ k) (hk : k < i + n)
    (h : i + n ≤ 2 ^ 64) :
    copyChars n (m.write d (echo m d s) i) (d + BitVec.ofNat 64 i) (s + BitVec.ofNat 64 i) =
      (i + n - k, m.write d (echo m d s) (k + 1), d + BitVec.ofNat 64 (k + 1)) := by
  induction n generalizing i with
  | zero => omega
  | succ n ih =>
      have he : i + (n + 1) = i + 1 + n := by omega
      rw [copyChars_succ (by omega)]
      by_cases hi : i = k
      · subst hi
        rw [if_pos h0, Nat.add_sub_cancel_left]
      · rw [if_neg (hf i (by omega)), he]
        exact ih (by omega) (by omega) (by omega)

/-- No zero among the bytes that are copied. -/
theorem copyChars_eq (hf : ∀ j < n, echo m d s j ≠ 0) (h : n ≤ 2 ^ 64) :
    copyChars n m d s = (0, m.write d (echo m d s) n, d + BitVec.ofNat 64 n) := by
  have hloop := copyChars_write (m := m) (d := d) (s := s) (i := 0) (n := n) (by simpa using hf) (by omega)
  rwa [write_zero, BitVec.add_zero, BitVec.add_zero, Nat.zero_add] at hloop

/-- The byte after the first `k` is the first zero. -/
theorem copyChars_stop (hf : ∀ j < k, echo m d s j ≠ 0) (h0 : echo m d s k = 0) (hk : k < n) (h : n ≤ 2 ^ 64) :
    copyChars n m d s = (n - k, m.write d (echo m d s) (k + 1), d + BitVec.ofNat 64 (k + 1)) := by
  have hloop := copyChars_write_stop (m := m) (d := d) (s := s) (i := 0) (n := n) hf h0 (by omega) (by omega) (by omega)
  rwa [write_zero, BitVec.add_zero, BitVec.add_zero, Nat.zero_add] at hloop

/-- The destination begins in the string, behind its first byte. -/
def Inside (dest src : U64) (t : CString) : Prop := 0 < (dest - src).toNat ∧ (dest - src).toNat ≤ t.length

instance (dest src : U64) (t : CString) : Decidable (Inside dest src t) := inferInstanceAs (Decidable (_ ∧ _))

/-- Then the loop never comes to a zero. -/
theorem Inside.echo_ne_zero (h : StringAt m src t) (hin : Inside dest src t) (i : Nat) : echo m dest src i ≠ 0 :=
  h.ne_zero ((Nat.mod_lt i hin.1).trans_le hin.2)

/-- Otherwise it reads the string as it was. -/
theorem echo_of_not_inside (h : StringAt m src t) (hout : ¬ Inside dest src t) (hi : i ≤ t.length) :
    echo m dest src i = t.getD i 0 := by
  rw [echo_of_lt, h.getD hi]
  by_cases h0 : dest = src
  · exact .inl h0
  · have hpos : (dest - src).toNat ≠ 0 := fun hc => h0 (sub_eq_zero.mp (BitVec.toNat_inj.mp hc))
    refine .inr (hi.trans_lt (not_le.mp fun hc => hout ⟨by omega, hc⟩))

/-! ## strncpy -/

/-- The first `n` bytes are those of the string and zeros behind its end, and no other byte is changed. -/
def WritesExactly (m m' : Mem) (dest : U64) (t : CString) (n : U64) : Prop :=
  (∀ i < n.toNat, m' (dest + BitVec.ofNat 64 i) = t.getD i 0) ∧ ∀ x, n.toNat ≤ (x - dest).toNat → m' x = m x

/-- The string has `n` bytes, or the byte behind the `n` is zero. A destination in the string gets its bytes when they repeat
themselves at its distance. -/
def StrncpyFits (m : Mem) (dest src : U64) (t : CString) (n : U64) : Prop :=
  if Inside dest src t then n.toNat ≤ t.length ∧
    ∀ i, i + (dest - src).toNat < n.toNat → t.getD (i + (dest - src).toNat) 0 = t.getD i 0
  else n.toNat ≤ t.length ∨ m (dest + n) = 0

theorem writesExactly_write {n : U64} {f : Nat → U8} :
    WritesExactly m (m.write dest f n.toNat) dest t n ↔ ∀ i < n.toNat, f i = t.getD i 0 := by
  constructor
  · intro h i hi
    rw [← h.1 i hi, write_add hi n.isLt.le]
  · intro h
    refine ⟨fun i hi => ?_, fun x hx => write_of_le hx⟩
    rw [write_add hi n.isLt.le, h i hi]

theorem strncpy_eq {n : U64} (hf : ∀ j < n.toNat, echo m dest src j ≠ 0) :
    strncpy m dest src n = (dest, m.write dest (echo m dest src) n.toNat) := by
  rw [strncpy, copyChars_eq hf n.isLt.le]
  rfl

/-- The terminator is stored and not counted: one byte more than `n` is written. -/
theorem strncpy_eq_succ {n : U64} (hf : ∀ j < k, echo m dest src j ≠ 0) (h0 : echo m dest src k = 0) (hk : k < n.toNat) :
    strncpy m dest src n = (dest, m.write dest (fun j => if j < k + 1 then echo m dest src j else 0) (n.toNat + 1)) := by
  have hn := n.isLt
  have he : k + 1 + (n.toNat - k) = n.toNat + 1 := by omega
  rw [strncpy, copyChars_stop hf h0 hk hn.le]
  dsimp only
  rw [setBytes_eq _ _ _ (by omega), write_write (by omega), he]

/-- A string that is at least as long as what is asked for. -/
theorem strncpy_eq_of_le {n : U64} (h : StringAt m src t) (hout : ¬ Inside dest src t) (hn : n.toNat ≤ t.length) :
    strncpy m dest src n = (dest, m.write dest (fun i => t.getD i 0) n.toNat) := by
  have hstring : ∀ i < n.toNat, echo m dest src i = t.getD i 0 := fun i hi => echo_of_not_inside h hout (hi.le.trans hn)
  have hnonzero : ∀ i < n.toNat, echo m dest src i ≠ 0 := fun i hi => by
    rw [hstring i hi]
    exact h.getD_ne_zero (hi.trans_le hn)
  rw [strncpy_eq hnonzero, write_congr hstring]

/-- A destination in the string: the bytes that are stored come round. -/
theorem echo_eq_iff (h : StringAt m src t) (hin : Inside dest src t) : (∀ i < n, echo m dest src i = t.getD i 0) ↔
    n ≤ t.length ∧ ∀ i, i + (dest - src).toNat < n → t.getD (i + (dest - src).toNat) 0 = t.getD i 0 := by
  constructor
  · intro hall
    refine ⟨not_lt.mp fun hc => ?_, fun i hi => ?_⟩
    · refine hin.echo_ne_zero h t.length ?_
      rw [hall t.length hc, ← h.getD le_rfl, h.stop]
    · rw [← hall _ hi, echo_add, hall i (by omega)]
  · rintro ⟨hn, hrepeat⟩ i
    induction i using Nat.strong_induction_on with
    | _ i ih =>
        intro hi
        by_cases hlt : i < (dest - src).toNat
        · rw [echo_of_lt (.inr hlt), h.getD (by omega)]
        · have hpos := hin.1
          have he : i - (dest - src).toNat + (dest - src).toNat = i := by omega
          have hecho := echo_add m dest src (i - (dest - src).toNat)
          have hback := hrepeat (i - (dest - src).toNat) (by omega)
          rw [he] at hecho hback
          rw [hecho, ih _ (by omega) (by omega), hback]

/-- `strncpy` writes exactly `n` bytes when the string has as many, or when the byte it writes besides was zero. -/
theorem strncpy_exact_iff (dest n : U64) (h : StringAt m src t) :
    WritesExactly m (strncpy m dest src n).2 dest t n ↔ StrncpyFits m dest src t n := by
  rw [StrncpyFits]
  by_cases hin : Inside dest src t
  · rw [if_pos hin, strncpy_eq fun j _ => hin.echo_ne_zero h j, writesExactly_write, echo_eq_iff h hin]
  · rw [if_neg hin]
    by_cases hn : n.toNat ≤ t.length
    · rw [strncpy_eq_of_le h hin hn, writesExactly_write]
      exact iff_of_true (fun _ _ => rfl) (.inl hn)
    · have hstring : ∀ i ≤ t.length, echo m dest src i = t.getD i 0 := fun i hi => echo_of_not_inside h hin hi
      have hnonzero : ∀ i < t.length, echo m dest src i ≠ 0 := fun i hi => by
        rw [hstring i hi.le]
        exact h.getD_ne_zero hi
      have hstop : echo m dest src t.length = 0 := by
        rw [hstring _ le_rfl, ← h.getD le_rfl, h.stop]
      have hlt := n.isLt
      have hkeeps := write_succ_keeps_iff (m := m) (a := dest)
        (f := fun j => if j < t.length + 1 then echo m dest src j else 0) hlt
      rw [BitVec.ofNat_toNat, BitVec.setWidth_eq] at hkeeps
      -- the byte behind the `n` is the terminator, or a zero of the padding
      have hlast : (if n.toNat < t.length + 1 then echo m dest src n.toNat else 0) = 0 := if_neg (by omega)
      rw [strncpy_eq_succ hnonzero hstop (by omega), WritesExactly, hkeeps, hlast, or_iff_right hn]
      refine and_iff_right fun i hi => ?_
      dsimp only
      rw [write_add (by omega) (by omega)]
      split
      · exact hstring i (by omega)
      · rw [List.getD_eq_default _ _ (by omega)]

/-- The string "ab", and a byte that is not zero at the address 42. -/
def samplePadded : Mem := fun p => if p = 16 then 97 else if p = 17 then 98 else if p = 42 then 1 else 0

theorem strncpy_exact_iff_sample : WritesExactly samplePadded (strncpy samplePadded 40 16 2).2 40 [97, 98] 2 := by
  refine (strncpy_exact_iff 40 2 (by decide)).mpr ?_
  rw [StrncpyFits, if_neg (by decide)]
  exact .inl (by decide)

/-- "b" is copied with two bytes of padding asked for, and a third byte is lost. -/
theorem strncpy_writes_past_end : StringAt samplePadded 17 [98] ∧ samplePadded 42 = 1 ∧
    (strncpy samplePadded 40 17 2).2 42 = 0 ∧ ¬ WritesExactly samplePadded (strncpy samplePadded 40 17 2).2 40 [98] 2 := by
  refine ⟨by decide, by decide, by decide, fun h => ?_⟩
  have hbyte : (strncpy samplePadded 40 17 2).2 42 = samplePadded 42 := h.2 42 (by decide)
  revert hbyte
  decide

/-- The copy is a string of at most `n` bytes, and no byte behind its terminator is written: the length that `strndup` passes is
never more than that of the string. -/
theorem strndup_stringAt {copy n : U64} (h : StringAt m s t) (h0 : copy ≠ 0) (hout : ¬ Inside copy s t) :
    StringAt (strndup m copy s n).2 copy (t.take n.toNat) ∧
    ∀ x, (t.take n.toNat).length < (x - copy).toNat → (strndup m copy s n).2 x = m x := by
  have hlt := h.length_lt
  obtain ⟨len, hres, hlen⟩ : ∃ len : U64, strndup m copy s n =
      (copy, Function.update (strncpy m copy s len).2 (copy + len) 0) ∧ len.toNat = (t.take n.toNat).length := by
    simp only [strndup, h0, ↓reduceIte, h.strlen]
    refine ⟨_, rfl, ?_⟩
    rw [List.length_take]
    split
    · rename_i hn
      rw [BitVec.lt_def, BitVec.toNat_ofNat, Nat.mod_eq_of_lt hlt] at hn
      omega
    · rename_i hn
      rw [BitVec.lt_def, BitVec.toNat_ofNat, Nat.mod_eq_of_lt hlt] at hn
      rw [BitVec.toNat_ofNat, Nat.mod_eq_of_lt hlt]
      omega
  have hle : len.toNat ≤ t.length := by
    rw [hlen, List.length_take]
    omega
  have hend := write_snoc (m := m) (a := copy) (f := fun i => t.getD i 0) len.isLt 0
  rw [BitVec.ofNat_toNat, BitVec.setWidth_eq] at hend
  rw [hres, strncpy_eq_of_le h hout hle]
  dsimp only
  rw [hend, ← hlen]
  refine ⟨stringAt_of_getD (fun i hi => ?_) fun i hi => ?_, fun x hx => write_of_le hx⟩
  · rw [← hlen] at hi
    rw [write_add (by omega) len.isLt]
    split
    · rename_i hlt'
      rw [List.getD_eq_getElem _ _ (hlt'.trans_le hle), List.getD_eq_getElem _ _ (hlt'.trans_eq hlen), List.getElem_take]
    · rw [List.getD_eq_default _ _ (by omega)]
  · exact h.ne_zero_of_mem (List.mem_of_mem_take hi)

/-! ## strncat -/

/-- The first bytes of the string, at most `n`, and a zero stand at `stop`, and no other byte is changed. -/
def AppendsWithin (m m' : Mem) (stop : U64) (t : CString) (n : U64) : Prop :=
  (∀ i < min n.toNat t.length, m' (stop + BitVec.ofNat 64 i) = t.getD i 0) ∧
  m' (stop + BitVec.ofNat 64 (min n.toNat t.length)) = 0 ∧
  ∀ x, min n.toNat t.length < (x - stop).toNat → m' x = m x

/-- The string has `n` bytes, or it does not end where the destination ends and the byte behind the terminator is zero. -/
def StrncatFits (m : Mem) (stop src : U64) (t : CString) (n : U64) : Prop :=
  n.toNat ≤ t.length ∨ ¬ Inside stop src t ∧ m (stop + BitVec.ofNat 64 (t.length + 1)) = 0

theorem appendsWithin_iff {m' : Mem} {n stop : U64} (hk : min n.toNat t.length = k) : AppendsWithin m m' stop t n ↔
    (∀ i < k, m' (stop + BitVec.ofNat 64 i) = t.getD i 0) ∧ m' (stop + BitVec.ofNat 64 k) = 0 ∧
    ∀ x, k < (x - stop).toNat → m' x = m x := by
  rw [AppendsWithin, hk]

/-- A string that the end of another one lies in ends there. -/
theorem Inside.eq_length {stop : U64} (h : StringAt m src t) (hstop : m stop = 0) (hin : Inside stop src t) :
    (stop - src).toNat = t.length := by
  refine le_antisymm hin.2 (not_lt.mp fun hlt => h.ne_zero hlt ?_)
  rw [BitVec.ofNat_toNat, BitVec.setWidth_eq, BitVec.add_comm, BitVec.sub_add_cancel, hstop]

/-- The bytes before the terminator are read as they were, even if the string ends where the copy begins. -/
theorem echo_of_stop {stop : U64} (h : StringAt m src t) (hstop : m stop = 0) (hi : i < t.length) :
    echo m stop src i = t.getD i 0 := by
  by_cases hin : Inside stop src t
  · have hlen := hin.eq_length h hstop
    rw [echo_of_lt (.inr (by omega)), h.getD hi.le]
  · exact echo_of_not_inside h hin hi.le

theorem strncat_eq (h : StringAt m dest u) (src n : U64) : (strncat m dest src n).2 =
    Function.update (copyChars n.toNat m (dest + BitVec.ofNat 64 u.length) src).2.1
      (copyChars n.toNat m (dest + BitVec.ofNat 64 u.length) src).2.2 0 := by
  rw [strncat, h.strlen]

/-- `strncat` appends at most `n` bytes and a zero, and writes a second zero when the string is shorter than `n`. -/
theorem strncat_within_iff (n : U64) (hdest : StringAt m dest u) (hsrc : StringAt m src t) :
    AppendsWithin m (strncat m dest src n).2 (dest + BitVec.ofNat 64 u.length) t n ↔
      StrncatFits m (dest + BitVec.ofNat 64 u.length) src t n := by
  have hstop := hdest.stop
  have hn := n.isLt
  rw [strncat_eq hdest]
  generalize dest + BitVec.ofNat 64 u.length = stop at hstop ⊢
  have hnonzero : ∀ i < t.length, echo m stop src i ≠ 0 := fun i hi => by
    rw [echo_of_stop hsrc hstop hi]
    exact hsrc.getD_ne_zero hi
  by_cases hle : n.toNat ≤ t.length
  · refine iff_of_true ?_ (.inl hle)
    rw [copyChars_eq (fun i hi => hnonzero i (hi.trans_le hle)) hn.le]
    dsimp only
    rw [appendsWithin_iff (min_eq_left hle), write_snoc hn]
    refine ⟨fun i hi => ?_, ?_, fun x hx => write_of_le hx⟩
    · rw [write_add (by omega) hn, if_pos hi, echo_of_stop hsrc hstop (by omega)]
    · rw [write_add (Nat.lt_succ_self _) hn, if_neg (lt_irrefl _)]
  · have hmin : min n.toNat t.length = t.length := min_eq_right (by omega)
    rw [StrncatFits, or_iff_right hle, appendsWithin_iff hmin]
    by_cases hin : Inside stop src t
    · -- the terminator is overwritten before it is read, and `n` bytes are copied
      refine iff_of_false (fun hc => ?_) fun hc => hc.1 hin
      have hlast := hc.2.1
      rw [copyChars_eq (fun i _ => hin.echo_ne_zero hsrc i) hn.le] at hlast
      dsimp only at hlast
      rw [write_snoc hn, write_add (by omega) hn, if_pos (by omega)] at hlast
      exact hin.echo_ne_zero hsrc _ hlast
    · have hend : echo m stop src t.length = 0 := by
        rw [echo_of_not_inside hsrc hin le_rfl, ← hsrc.getD le_rfl, hsrc.stop]
      rw [copyChars_stop hnonzero hend (by omega) hn.le]
      dsimp only
      have hkeeps := write_succ_keeps_iff (m := m) (a := stop) (n := t.length + 1)
        (f := fun j => if j < t.length + 1 then echo m stop src j else 0) (by omega)
      rw [if_neg (lt_irrefl _)] at hkeeps
      rw [write_snoc (by omega), and_iff_right hin, ← hkeeps]
      constructor
      · exact fun hall => hall.2.2
      · intro hall
        refine ⟨fun i hi => ?_, ?_, hall⟩
        · rw [write_add (by omega) (by omega), if_pos (by omega), echo_of_stop hsrc hstop hi]
        · rw [write_add (by omega) (by omega), if_pos (by omega), hend]

/-- "ab" with a terminator at 18, and a byte that is not zero at 20. -/
def sampleFull : Mem := fun p => if p = 16 then 97 else if p = 17 then 98 else if p = 20 then 1 else if p = 40 then 99 else 0

theorem strncat_within_iff_sample : AppendsWithin sampleFull (strncat sampleFull 16 40 1).2 18 [99] 1 :=
  (strncat_within_iff (u := [97, 98]) 1 (by decide) (by decide)).mpr (.inl (by decide))

/-- "c" fits behind "ab" with its terminator, and the byte behind them is lost. -/
theorem strncat_writes_past_terminator : StringAt sampleFull 16 [97, 98] ∧ StringAt sampleFull 40 [99] ∧ sampleFull 20 = 1 ∧
    (strncat sampleFull 16 40 2).2 20 = 0 ∧ ¬ AppendsWithin sampleFull (strncat sampleFull 16 40 2).2 18 [99] 2 := by
  have hdest : StringAt sampleFull 16 [97, 98] := by decide
  have hbyte : (strncat sampleFull 16 40 2).2 20 = 0 := by
    rw [strncat_eq hdest]
    decide
  refine ⟨hdest, by decide, by decide, hbyte, fun h => ?_⟩
  have hkept : (strncat sampleFull 16 40 2).2 20 = sampleFull 20 := h.2.2 20 (by decide)
  rw [hbyte] at hkept
  revert hkept
  decide

end ShadowOS
