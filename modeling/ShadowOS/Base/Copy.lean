import ShadowOS.Base.Bytes

/-!
# Bytes written one by one

A loop that stores a byte and goes on to the next address leaves a range of the memory written. If it reads the bytes it
stores from the same memory, it may come to read what it has stored.
-/

namespace ShadowOS.Mem

variable {m : Mem} {a s : U64} {f g : Nat → U8} {n i : Nat}

/-- The `n` bytes from `a` on are `f 0`, `f 1` and so on. -/
def write (m : Mem) (a : U64) (f : Nat → U8) (n : Nat) : Mem := fun x =>
  if (x - a).toNat < n then f (x - a).toNat else m x

theorem fill_eq_write (m : Mem) (a : U64) (b : U8) (n : Nat) : m.fill a b n = m.write a (fun _ => b) n := rfl

theorem write_of_lt {x : U64} (h : (x - a).toNat < n) : m.write a f n x = f (x - a).toNat := if_pos h

theorem write_of_le {x : U64} (h : n ≤ (x - a).toNat) : m.write a f n x = m x := if_neg (not_lt.mpr h)

@[simp] theorem write_zero (m : Mem) (a : U64) (f : Nat → U8) : m.write a f 0 = m := by
  funext x
  exact write_of_le (Nat.zero_le _)

theorem write_add (h : i < n) (hn : n ≤ 2 ^ 64) : m.write a f n (a + BitVec.ofNat 64 i) = f i := by
  have hi : (a + BitVec.ofNat 64 i - a).toNat = i := ofNat_sub_self a (by omega)
  rw [write_of_lt (by rwa [hi]), hi]

/-- A write that says something else about the same bytes. -/
theorem write_congr (h : ∀ i < n, f i = g i) : m.write a f n = m.write a g n := by
  funext x
  by_cases hx : (x - a).toNat < n
  · rw [write_of_lt hx, write_of_lt hx, h _ hx]
  · rw [write_of_le (not_lt.mp hx), write_of_le (not_lt.mp hx)]

theorem copyFrom_eq_write (m : Mem) (a : U64) (src : Mem) (s : U64) (n : Nat) :
    m.copyFrom a src s n = m.write a (fun i => src (s + BitVec.ofNat 64 i)) n := by
  funext x
  by_cases hx : (x - a).toNat < n
  · rw [write_of_lt hx, copyFrom, if_pos hx, BitVec.ofNat_toNat, BitVec.setWidth_eq]
  · rw [write_of_le (not_lt.mp hx), copyFrom, if_neg hx]

theorem sub_eq_ofNat_iff {x : U64} (hi : i < 2 ^ 64) : (x - a).toNat = i ↔ x = a + BitVec.ofNat 64 i := by
  constructor
  · rintro rfl
    rw [BitVec.ofNat_toNat, BitVec.setWidth_eq, BitVec.add_comm, BitVec.sub_add_cancel]
  · rintro rfl
    exact ofNat_sub_self a hi

/-- One more byte at the end. -/
theorem write_succ (hi : i < 2 ^ 64) :
    Function.update (m.write a f i) (a + BitVec.ofNat 64 i) (f i) = m.write a f (i + 1) := by
  funext x
  by_cases hx : (x - a).toNat = i
  · rw [write_of_lt (by omega), hx, (sub_eq_ofNat_iff hi).mp hx, Function.update_self]
  · rw [Function.update_of_ne (fun hc => hx ((sub_eq_ofNat_iff hi).mpr hc))]
    by_cases hlt : (x - a).toNat < i
    · rw [write_of_lt hlt, write_of_lt (by omega)]
    · rw [write_of_le (by omega), write_of_le (by omega)]

theorem write_snoc (hi : i < 2 ^ 64) (b : U8) :
    Function.update (m.write a f i) (a + BitVec.ofNat 64 i) b = m.write a (fun j => if j < i then f j else b) (i + 1) := by
  have hsame : m.write a f i = m.write a (fun j => if j < i then f j else b) i :=
    write_congr fun j hj => (if_pos hj).symm
  rw [← write_succ hi, hsame, if_neg (lt_irrefl i)]

/-- One byte too many does no harm when it was there before. -/
theorem write_succ_keeps_iff (hn : n < 2 ^ 64) :
    (∀ x, n ≤ (x - a).toNat → m.write a f (n + 1) x = m x) ↔ m (a + BitVec.ofNat 64 n) = f n := by
  constructor
  · intro h
    rw [← h (a + BitVec.ofNat 64 n) (ofNat_sub_self a hn).ge, write_add (Nat.lt_succ_self n) hn]
  · intro h x hx
    by_cases he : (x - a).toNat = n
    · rw [write_of_lt (by omega), he, ← h, (sub_eq_ofNat_iff hn).mp he]
    · exact write_of_le (by omega)

/-- One more byte at the front. -/
theorem write_cons (h : n < 2 ^ 64) :
    Function.update (m.write (a + 1) (fun j => f (j + 1)) n) a (f 0) = m.write a f (n + 1) := by
  funext x
  have hx := (x - a).isLt
  have hnat : (x - (a + 1)).toNat = (2 ^ 64 - 1 + (x - a).toNat) % 2 ^ 64 := by
    rw [sub_add_eq_sub_sub, BitVec.toNat_sub]
    rfl
  by_cases h0 : x = a
  · subst h0
    rw [Function.update_self, write_of_lt (by simp), BitVec.sub_self, BitVec.toNat_zero]
  · have hpos : (x - a).toNat ≠ 0 := fun hc => h0 (sub_eq_zero.mp (BitVec.toNat_inj.mp hc))
    rw [Function.update_of_ne h0]
    by_cases hlt : (x - a).toNat < n + 1
    · have he : (x - (a + 1)).toNat + 1 = (x - a).toNat := by omega
      rw [write_of_lt (by omega), write_of_lt hlt, he]
    · rw [write_of_le (by omega), write_of_le (by omega)]

/-- A second range right after the first. -/
theorem write_write (h : n + i ≤ 2 ^ 64) :
    (m.write a f n).write (a + BitVec.ofNat 64 n) g i = m.write a (fun j => if j < n then f j else g (j - n)) (n + i) := by
  funext x
  have hx := (x - a).isLt
  have hnat : (x - (a + BitVec.ofNat 64 n)).toNat = (2 ^ 64 - n % 2 ^ 64 + (x - a).toNat) % 2 ^ 64 := by
    rw [sub_add_eq_sub_sub, BitVec.toNat_sub, BitVec.toNat_ofNat]
  by_cases hn : (x - a).toNat < n
  · rw [write_of_le (by omega), write_of_lt hn, write_of_lt (by omega), if_pos hn]
  · by_cases hlt : (x - a).toNat < n + i
    · have he : (x - (a + BitVec.ofNat 64 n)).toNat = (x - a).toNat - n := by omega
      rw [write_of_lt (by omega), write_of_lt hlt, if_neg hn, he]
    · rw [write_of_le (by omega), write_of_le (by omega), write_of_le (by omega)]

/-! ## Copies within a memory -/

/-- What a loop stores that copies upwards from `s` to `a`: where it reads what it has stored, the bytes repeat. -/
def echo (m : Mem) (a s : U64) (i : Nat) : U8 := m (s + BitVec.ofNat 64 (i % (a - s).toNat))

theorem echo_of_lt (h : a = s ∨ i < (a - s).toNat) : echo m a s i = m (s + BitVec.ofNat 64 i) := by
  rcases h with rfl | h
  · rw [echo, BitVec.sub_self, BitVec.toNat_zero, Nat.mod_zero]
  · rw [echo, Nat.mod_eq_of_lt h]

theorem echo_add (m : Mem) (a s : U64) (i : Nat) : echo m a s (i + (a - s).toNat) = echo m a s i := by
  rw [echo, echo, Nat.add_mod_right]

/-- The byte that is read next. -/
theorem write_echo (hi : i < 2 ^ 64) : m.write a (echo m a s) i (s + BitVec.ofNat 64 i) = echo m a s i := by
  have hd := (a - s).isLt
  have hsub : s + BitVec.ofNat 64 i - a = BitVec.ofNat 64 i - (a - s) := by bv_omega
  have hnat : (s + BitVec.ofNat 64 i - a).toNat = (2 ^ 64 - (a - s).toNat + i) % 2 ^ 64 := by
    rw [hsub, BitVec.toNat_sub, BitVec.toNat_ofNat, Nat.mod_eq_of_lt hi]
  by_cases has : a = s
  · subst has
    rw [BitVec.sub_self, BitVec.toNat_zero] at hnat
    rw [write_of_le (by omega), echo_of_lt (.inl rfl)]
  · have h0 : (a - s).toNat ≠ 0 := fun hc => has (sub_eq_zero.mp (BitVec.toNat_inj.mp hc))
    by_cases hlt : i < (a - s).toNat
    · rw [write_of_le (by omega), echo_of_lt (.inr hlt)]
    · have he : (s + BitVec.ofNat 64 i - a).toNat = i - (a - s).toNat := by omega
      have hback := echo_add m a s (i - (a - s).toNat)
      rw [Nat.sub_add_cancel (not_lt.mp hlt)] at hback
      rw [write_of_lt (by omega), he, hback]

/-- A loop that has read its byte and stored it. -/
theorem update_write_echo (hi : i < 2 ^ 64) :
    Function.update (m.write a (echo m a s) i) (a + BitVec.ofNat 64 i) (m.write a (echo m a s) i (s + BitVec.ofNat 64 i)) =
      m.write a (echo m a s) (i + 1) := by
  rw [write_echo hi, write_succ hi]

end ShadowOS.Mem
