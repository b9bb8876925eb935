import ShadowOS.Base.Copy

/-!
# Records in byte memory

A layout says how a record lies in the bytes from an address on. Layouts are put together field by field, as the fields of
a C structure are.
-/

namespace ShadowOS

namespace Mem

/-! ## Ranges -/

/-- The two memories have the same bytes at the addresses from `lo` up to `hi`. -/
def Agree (m m' : Mem) (lo hi : Nat) : Prop := ∀ x : U64, lo ≤ x.toNat → x.toNat < hi → m' x = m x

theorem Agree.refl (m : Mem) (lo hi : Nat) : Agree m m lo hi := fun _ _ _ => rfl

theorem Agree.trans {m m' m'' : Mem} {lo hi : Nat} (h : Agree m m' lo hi) (h' : Agree m' m'' lo hi) : Agree m m'' lo hi :=
  fun x hlo hhi => (h' x hlo hhi).trans (h x hlo hhi)

theorem Agree.mono {m m' : Mem} {lo hi lo' hi' : Nat} (h : Agree m m' lo hi) (hlo : lo ≤ lo') (hhi : hi' ≤ hi) :
    Agree m m' lo' hi' :=
  fun x hx hx' => h x (by omega) (by omega)

/-- Where the range does not wrap around, it is an interval of numbers. -/
theorem sub_lt_iff {a x : U64} {n : Nat} (h : a.toNat + n ≤ 2 ^ 64) :
    (x - a).toNat < n ↔ a.toNat ≤ x.toNat ∧ x.toNat < a.toNat + n := by
  have hx := x.isLt
  have ha := a.isLt
  rw [BitVec.toNat_sub]
  omega

theorem toNat_add_ofNat {a : U64} {i : Nat} (h : a.toNat + i < 2 ^ 64) : (a + BitVec.ofNat 64 i).toNat = a.toNat + i := by
  rw [BitVec.toNat_add, BitVec.toNat_ofNat]
  omega

theorem update_agree {m : Mem} {x : U64} {v : U8} {lo hi : Nat} (h : hi ≤ x.toNat ∨ x.toNat < lo) :
    m.Agree (Function.update m x v) lo hi := by
  intro y hlo hhi
  refine Function.update_of_ne (fun he => ?_) _ _
  rw [he] at hlo hhi
  omega

/-- The `n` bytes from `a` on. -/
def bytes (m : Mem) (a : U64) (n : Nat) : List U8 := (List.range n).map fun i => m (a + BitVec.ofNat 64 i)

theorem bytes_congr {m m' : Mem} {a b : U64} {n : Nat}
    (h : ∀ i < n, m' (a + BitVec.ofNat 64 i) = m (b + BitVec.ofNat 64 i)) : m'.bytes a n = m.bytes b n :=
  List.map_congr_left fun i hi => h i (List.mem_range.mp hi)

@[simp] theorem length_bytes (m : Mem) (a : U64) (n : Nat) : (m.bytes a n).length = n := by
  simp [bytes]

theorem Agree.bytes {m m' : Mem} {a : U64} {n : Nat} (h : Agree m m' a.toNat (a.toNat + n)) (ha : a.toNat + n ≤ 2 ^ 64) :
    m'.bytes a n = m.bytes a n := by
  refine bytes_congr fun i hi => h _ ?_ ?_
  all_goals
    rw [toNat_add_ofNat (by omega)]
    omega

theorem bytes_update (m : Mem) (a : U64) (v : U8) {n j : Nat} (hn : n ≤ 2 ^ 64) (hj : j < n) :
    Mem.bytes (Function.update m (a + BitVec.ofNat 64 j) v) a n = (m.bytes a n).set j v := by
  refine List.ext_getElem (by simp) fun i hi hi' => ?_
  have hin : i < n := by simpa using hi
  simp only [bytes, List.getElem_map, List.getElem_range, List.getElem_set]
  by_cases hij : j = i
  · rw [if_pos hij, hij, Function.update_self]
  · rw [if_neg hij, Function.update_of_ne]
    intro he
    have hi64 := ofNat_sub_self a (i := i) (by omega)
    rw [he, ofNat_sub_self a (by omega)] at hi64
    exact hij hi64

theorem bytes_write (m : Mem) (a : U64) (f : Nat → U8) {n k : Nat} (hk : k ≤ n) (hn : n ≤ 2 ^ 64) :
    (m.write a f n).bytes a k = (List.range k).map f :=
  List.map_congr_left fun i hi => write_add (by have := List.mem_range.mp hi; omega) hn

theorem take_bytes (m : Mem) (a : U64) {n k : Nat} (hk : k ≤ n) : (m.bytes a n).take k = m.bytes a k := by
  rw [bytes, ← List.map_take, List.take_range, Nat.min_eq_left hk]
  rfl

/-! ## Words -/

/-- The `n` bytes from `a` on are the little-endian digits of `v`. -/
def storeNat (m : Mem) (a : U64) (v n : Nat) : Mem := m.write a (fun i => BitVec.ofNat 8 (v / 256 ^ i)) n

def store32 (m : Mem) (a : U64) (v : U32) : Mem := m.storeNat a v.toNat 4

theorem store64_eq_storeNat (m : Mem) (a v : U64) : m.store64 a v = m.storeNat a v.toNat 8 := rfl

theorem loadNat_storeNat (m : Mem) (a : U64) (v : Nat) {n : Nat} (hn : n < 2 ^ 64) : ∀ k i, i + k = n →
    (m.storeNat a v n).loadNat (a + BitVec.ofNat 64 i) k = v / 256 ^ i % 256 ^ k
  | 0, i, _ => by simp [loadNat, Nat.mod_one]
  | k + 1, i, h => by
      have ih := loadNat_storeNat m a v hn k (i + 1) (by omega)
      have hnext : a + BitVec.ofNat 64 i + 1 = a + BitVec.ofNat 64 (i + 1) := by
        rw [BitVec.ofNat_add, BitVec.add_assoc]
        rfl
      have hbyte : m.storeNat a v n (a + BitVec.ofNat 64 i) = BitVec.ofNat 8 (v / 256 ^ i) :=
        write_add (by omega) (by omega)
      have hdiv : v / 256 ^ (i + 1) = v / 256 ^ i / 256 := by
        rw [Nat.pow_succ, Nat.div_div_eq_div_mul]
      rw [loadNat, hnext, ih, hbyte, hdiv, BitVec.toNat_ofNat, show 256 ^ (k + 1) = 256 * 256 ^ k from Nat.pow_succ',
        Nat.mod_mul]

@[simp] theorem load32_store32_self (m : Mem) (a : U64) (v : U32) : (m.store32 a v).load32 a = v := by
  have h := loadNat_storeNat m a v.toNat (n := 4) (by decide) 4 0 rfl
  simp only [BitVec.add_zero, Nat.pow_zero, Nat.div_one] at h
  rw [load32, store32, h, Nat.mod_eq_of_lt (show v.toNat < 256 ^ 4 from v.isLt), BitVec.ofNat_toNat, BitVec.setWidth_eq]

theorem loadNat_digit (m : Mem) (a : U64) {n i : Nat} (h : i < n) :
    m.loadNat a n / 256 ^ i % 256 = (m (a + BitVec.ofNat 64 i)).toNat := by
  induction n generalizing a i with
  | zero => omega
  | succ n ih =>
      have hlt := (m a).isLt
      cases i with
      | zero =>
          rw [loadNat, BitVec.add_zero, Nat.pow_zero, Nat.div_one]
          omega
      | succ i =>
          have hdiv : m.loadNat a (n + 1) / 256 ^ (i + 1) = m.loadNat (a + 1) n / 256 ^ i := by
            rw [Nat.pow_succ', ← Nat.div_div_eq_div_mul, loadNat]
            congr 1
            omega
          rw [hdiv, ih (a + 1) (by omega), add_one_add_ofNat]

/-- A word that is stored as it was loaded is a copy of its bytes. -/
theorem store32_load32 (m m' : Mem) (d s : U64) :
    m'.store32 d (m.load32 s) = m'.write d (fun i => m (s + BitVec.ofNat 64 i)) 4 := by
  show m'.write d (fun i => BitVec.ofNat 8 ((m.load32 s).toNat / 256 ^ i)) 4 = _
  refine write_congr fun i hi => BitVec.eq_of_toNat_eq ?_
  have hload : (m.load32 s).toNat = m.loadNat s 4 % 256 ^ 4 := by
    rw [load32, BitVec.toNat_ofNat]
    rfl
  have hdigit := m.loadNat_digit s hi
  have hpow : 256 ^ 4 = 256 ^ i * (256 * 256 ^ (3 - i)) := by
    rw [← Nat.pow_succ', ← Nat.pow_add]
    congr 1
    omega
  rw [hload, BitVec.toNat_ofNat, ← hdigit, hpow, Nat.mod_mul_right_div_self]
  exact Nat.mod_mul_right_mod _ _ _

end Mem

/-! ## Layouts -/

/-- How records of a type lie in memory: a record is read from its `size` bytes and written to them. -/
structure Layout (R : Type) where
  size : Nat
  load : Mem → U64 → R
  store : Mem → U64 → R → Mem
  size_lt : size < 2 ^ 32
  load_store : ∀ m a r, load (store m a r) a = r
  load_congr : ∀ {m m' : Mem} {a : U64},
    (∀ i < size, m' (a + BitVec.ofNat 64 i) = m (a + BitVec.ofNat 64 i)) → load m' a = load m a
  store_other : ∀ {m : Mem} {a : U64} {r : R} {x : U64}, size ≤ (x - a).toNat → store m a r x = m x

namespace Layout

variable {R R' : Type}

def u64 : Layout U64 where
  size := 8
  load := Mem.load64
  store := Mem.store64
  size_lt := by decide
  load_store := Mem.load64_store64_self
  load_congr := Mem.load64_congr
  store_other h := if_neg (not_lt.mpr h)

def u32 : Layout U32 where
  size := 4
  load := Mem.load32
  store := Mem.store32
  size_lt := by decide
  load_store := Mem.load32_store32_self
  load_congr h := by rw [Mem.load32, Mem.load32, Mem.loadNat_congr h]
  store_other h := if_neg (not_lt.mpr h)

theorem add_sub_add_left (a : U64) {i n k : Nat} (hin : i < n) (hn : n + k ≤ 2 ^ 64) :
    k ≤ (a + BitVec.ofNat 64 i - (a + BitVec.ofNat 64 n)).toNat := by
  have ha := a.isLt
  simp only [BitVec.toNat_sub, BitVec.toNat_add, BitVec.toNat_ofNat]
  omega

theorem le_sub_of_le_sub {a x : U64} {n k : Nat} (hn : n + k < 2 ^ 64) (h : n + k ≤ (x - a).toNat) :
    k ≤ (x - (a + BitVec.ofNat 64 n)).toNat := by
  have ha := a.isLt
  have hx := x.isLt
  simp only [BitVec.toNat_sub, BitVec.toNat_add, BitVec.toNat_ofNat] at h ⊢
  omega

/-- The second record follows the first one after `pad` unused bytes. -/
def append (L : Layout R) (L' : Layout R') (pad : Nat) (hsize : L.size + pad + L'.size < 2 ^ 32) : Layout (R × R') where
  size := L.size + pad + L'.size
  load m a := (L.load m a, L'.load m (a + BitVec.ofNat 64 (L.size + pad)))
  store m a r := L'.store (L.store m a r.1) (a + BitVec.ofNat 64 (L.size + pad)) r.2
  size_lt := hsize
  load_store m a r := by
    have hfst : L.load (L'.store (L.store m a r.1) (a + BitVec.ofNat 64 (L.size + pad)) r.2) a = L.load (L.store m a r.1) a :=
      L.load_congr fun i hi => L'.store_other (add_sub_add_left a (by omega) (by omega))
    exact Prod.ext (hfst.trans (L.load_store m a r.1)) (L'.load_store _ _ _)
  load_congr {m m' a} h := by
    have hfst : L.load m' a = L.load m a := L.load_congr fun i hi => h i (by omega)
    have hsnd : L'.load m' (a + BitVec.ofNat 64 (L.size + pad)) = L'.load m (a + BitVec.ofNat 64 (L.size + pad)) := by
      refine L'.load_congr fun i hi => ?_
      rw [BitVec.add_assoc, ← BitVec.ofNat_add]
      exact h _ (by omega)
    rw [hfst, hsnd]
  store_other h := by
    rw [L'.store_other (le_sub_of_le_sub (by omega) h), L.store_other (by omega)]

/-- The same bytes, read as a record of another type. -/
def map (L : Layout R) (f : R → R') (g : R' → R) (hfg : ∀ r, f (g r) = r) : Layout R' where
  size := L.size
  load m a := f (L.load m a)
  store m a r := L.store m a (g r)
  size_lt := L.size_lt
  load_store m a r := by rw [L.load_store, hfg]
  load_congr h := by rw [L.load_congr h]
  store_other := L.store_other

variable {L : Layout R} {L' : Layout R'} {m m' : Mem} {a b : U64} {r : R}

theorem load_of_agree (ha : a.toNat + L.size ≤ 2 ^ 64) (h : m.Agree m' a.toNat (a.toNat + L.size)) :
    L.load m' a = L.load m a := by
  refine L.load_congr fun i hi => h _ ?_ ?_
  all_goals
    rw [Mem.toNat_add_ofNat (by omega)]
    omega

theorem store_agree {lo hi : Nat} (ha : a.toNat + L.size ≤ 2 ^ 64) (h : hi ≤ a.toNat ∨ a.toNat + L.size ≤ lo) :
    m.Agree (L.store m a r) lo hi := by
  intro x hlo hhi
  refine L.store_other (Nat.le_of_not_lt fun hx => ?_)
  have := (Mem.sub_lt_iff ha).mp hx
  omega

/-- A record is not changed by a store to other bytes. -/
theorem load_store_of_apart (ha : a.toNat + L.size ≤ 2 ^ 64) (hb : b.toNat + L'.size ≤ 2 ^ 64)
    (h : a.toNat + L.size ≤ b.toNat ∨ b.toNat + L'.size ≤ a.toNat) : L'.load (L.store m a r) b = L'.load m b :=
  load_of_agree hb (store_agree ha (by omega))

end Layout

end ShadowOS
