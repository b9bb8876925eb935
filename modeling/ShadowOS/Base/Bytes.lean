import Mathlib

/-!
# Byte memory

A memory is a function from 64-bit addresses to bytes. Words are little-endian. A frame is an address that is
a multiple of 4096, and a memory is also a table of 512 words for every frame.
-/

namespace ShadowOS

abbrev U8 := BitVec 8
abbrev U16 := BitVec 16
abbrev U32 := BitVec 32
abbrev U64 := BitVec 64

abbrev Mem := U64 → U8

/-- A table has a first word. -/
instance neZero_table : NeZero 512 := ⟨by decide⟩

namespace Mem

/-! ## Words -/

/-- The little-endian number in the `n` bytes from `a` on. -/
def loadNat (m : Mem) (a : U64) : Nat → Nat
  | 0 => 0
  | n + 1 => (m a).toNat + 256 * loadNat m (a + 1) n

def load16 (m : Mem) (a : U64) : U16 := BitVec.ofNat 16 (m.loadNat a 2)
def load32 (m : Mem) (a : U64) : U32 := BitVec.ofNat 32 (m.loadNat a 4)
def load64 (m : Mem) (a : U64) : U64 := BitVec.ofNat 64 (m.loadNat a 8)

def store64 (m : Mem) (a v : U64) : Mem := fun x =>
  if (x - a).toNat < 8 then BitVec.ofNat 8 (v.toNat / 256 ^ (x - a).toNat) else m x

/-- The `n` bytes from `a` on are set to `b`. -/
def fill (m : Mem) (a : U64) (b : U8) (n : Nat) : Mem := fun x =>
  if (x - a).toNat < n then b else m x

/-- The `n` bytes from `a` on are the bytes of `src` from `s` on. -/
def copyFrom (m : Mem) (a : U64) (src : Mem) (s : U64) (n : Nat) : Mem := fun x =>
  if (x - a).toNat < n then src (s + (x - a)) else m x

theorem add_one_add_ofNat (a : U64) (i : Nat) : a + 1 + BitVec.ofNat 64 i = a + BitVec.ofNat 64 (i + 1) := by
  rw [BitVec.ofNat_add, BitVec.add_assoc]
  exact congrArg (a + ·) (BitVec.add_comm _ _)

theorem ofNat_sub_self (a : U64) {i : Nat} (hi : i < 2 ^ 64) : (a + BitVec.ofNat 64 i - a).toNat = i := by
  rw [BitVec.add_comm, BitVec.add_sub_cancel, BitVec.toNat_ofNat, Nat.mod_eq_of_lt hi]

theorem loadNat_congr {m m' : Mem} {a b : U64} {n : Nat}
    (h : ∀ i < n, m' (a + BitVec.ofNat 64 i) = m (b + BitVec.ofNat 64 i)) : m'.loadNat a n = m.loadNat b n := by
  induction n generalizing a b with
  | zero => rfl
  | succ n ih =>
      have h0 : m' a = m b := by simpa using h 0 (by omega)
      have ht : m'.loadNat (a + 1) n = m.loadNat (b + 1) n := by
        refine ih (fun i hi => ?_)
        rw [add_one_add_ofNat, add_one_add_ofNat]
        exact h (i + 1) (by omega)
      simp only [loadNat, h0, ht]

theorem load64_congr {m m' : Mem} {a b : U64}
    (h : ∀ i < 8, m' (a + BitVec.ofNat 64 i) = m (b + BitVec.ofNat 64 i)) : m'.load64 a = m.load64 b := by
  rw [load64, load64, loadNat_congr h]

/-- The last `n` bytes of a stored word are its high-order digits. -/
theorem loadNat_store64 (m : Mem) (a v : U64) : ∀ n i, i + n = 8 →
    (m.store64 a v).loadNat (a + BitVec.ofNat 64 i) n = v.toNat / 256 ^ i
  | 0, i, h => by
      have hi : i = 8 := by omega
      subst hi
      have hv := v.isLt
      simp only [loadNat]
      omega
  | n + 1, i, h => by
      have ih := loadNat_store64 m a v n (i + 1) (by omega)
      have he : a + BitVec.ofNat 64 i + 1 = a + BitVec.ofNat 64 (i + 1) := by
        rw [BitVec.ofNat_add, BitVec.add_assoc]
        rfl
      have hd : (a + BitVec.ofNat 64 i - a).toNat = i := ofNat_sub_self a (by omega)
      have hi : i < 8 := by omega
      have hp : v.toNat / 256 ^ (i + 1) = v.toNat / 256 ^ i / 256 := by
        rw [Nat.pow_succ, Nat.div_div_eq_div_mul]
      simp only [loadNat, he, ih, store64, hd, hi, ↓reduceIte, BitVec.toNat_ofNat, hp]
      omega

@[simp] theorem load64_store64_self (m : Mem) (a v : U64) : (m.store64 a v).load64 a = v := by
  have h := loadNat_store64 m a v 8 0 rfl
  simp only [BitVec.add_zero, Nat.pow_zero, Nat.div_one] at h
  rw [load64, h, BitVec.ofNat_toNat, BitVec.setWidth_eq]

theorem load64_store64_of_disjoint {m : Mem} {a b v : U64}
    (h : ∀ d < 8, 8 ≤ (b + BitVec.ofNat 64 d - a).toNat) : (m.store64 a v).load64 b = m.load64 b := by
  refine load64_congr (fun d hd => ?_)
  have := h d hd
  rw [store64, if_neg (by omega)]

theorem load64_of_zero {m : Mem} {a : U64} (h : ∀ i < 8, m (a + BitVec.ofNat 64 i) = 0) : m.load64 a = 0 := by
  have hz : m.load64 a = Mem.load64 (fun _ => 0) a := load64_congr h
  rw [hz]
  simp [load64, loadNat]

end Mem

/-! ## Frames -/

/-- A page frame: the address of its first byte. -/
abbrev Frame := {p : U64 // p.toNat % 4096 = 0}

namespace Frame

/-- The frame a byte lies in. -/
def of (x : U64) : Frame := ⟨BitVec.ofNat 64 (x.toNat / 4096 * 4096), by
  have := x.isLt
  rw [BitVec.toNat_ofNat]
  omega⟩

theorem of_eq_iff {x : U64} {f : Frame} : of x = f ↔ x.toNat / 4096 = f.1.toNat / 4096 := by
  obtain ⟨f, hf⟩ := f
  have hx := x.isLt
  constructor
  · intro h
    have h' : (BitVec.ofNat 64 (x.toNat / 4096 * 4096)).toNat = f.toNat :=
      congrArg (fun g : Frame => g.1.toNat) h
    rw [BitVec.toNat_ofNat] at h'
    simp only
    omega
  · intro h
    apply Subtype.ext
    apply BitVec.eq_of_toNat_eq
    simp only [of, BitVec.toNat_ofNat] at h ⊢
    omega

/-- The `d`-th byte of a frame. -/
theorem of_add (f : Frame) {d : U64} (hd : d.toNat < 4096) : of (f.1 + d) = f := by
  obtain ⟨f, hf⟩ := f
  have hlt := f.isLt
  rw [of_eq_iff, BitVec.toNat_add]
  simp only at hf ⊢
  omega

/-- A word at a multiple of 8 does not cross a frame. -/
theorem of_add_of_word {x : U64} (hx : x.toNat % 8 = 0) {d : Nat} (hd : d < 8) :
    of (x + BitVec.ofNat 64 d) = of x := by
  have hlt := x.isLt
  rw [of_eq_iff, BitVec.toNat_add, BitVec.toNat_ofNat]
  simp only [of, BitVec.toNat_ofNat]
  omega

@[simp] theorem of_self (f : Frame) : of f.1 = f := by
  simpa using of_add f (d := 0) (by simp)

theorem toNat_add (f : Frame) {d : U64} (hd : d.toNat < 4096) : (f.1 + d).toNat = f.1.toNat + d.toNat := by
  obtain ⟨f, hf⟩ := f
  have hlt := f.isLt
  rw [BitVec.toNat_add]
  simp only at hf ⊢
  omega

/-- There are `2 ^ 52` frames. -/
theorem length_le_of_nodup {fs : List Frame} (h : fs.Nodup) : fs.length ≤ 2 ^ 52 := by
  have hn : (fs.map fun f => f.1.toNat / 4096).Nodup := by
    refine h.map_on (fun f _ g _ hfg => Subtype.ext (BitVec.eq_of_toNat_eq ?_))
    have hf := f.2
    have hg := g.2
    omega
  have hs : (fs.map fun f => f.1.toNat / 4096) ⊆ List.range (2 ^ 52) := by
    intro n hn
    obtain ⟨f, _, rfl⟩ := List.mem_map.mp hn
    have := f.1.isLt
    rw [List.mem_range]
    omega
  have := (hn.subperm hs).length_le
  rwa [List.length_map, List.length_range] at this

/-- The address of the `i`-th word of a frame. -/
def slot (f : Frame) (i : Fin 512) : U64 := f.1 + 8 * BitVec.ofNat 64 i.1

theorem slot_sub_lt_iff (f g : Frame) (i j : Fin 512) {d : Nat} (hd : d < 8) :
    (g.slot j + BitVec.ofNat 64 d - f.slot i).toNat < 8 ↔ g = f ∧ j = i := by
  obtain ⟨f, hf⟩ := f
  obtain ⟨g, hg⟩ := g
  obtain ⟨i, hi⟩ := i
  obtain ⟨j, hj⟩ := j
  have hfl := f.isLt
  have hgl := g.isLt
  simp only [slot, BitVec.toNat_sub, BitVec.toNat_add, BitVec.toNat_mul, BitVec.toNat_ofNat, Subtype.mk.injEq,
    Fin.mk.injEq, ← BitVec.toNat_inj, BitVec.ofNat_eq_ofNat] at hf hg ⊢
  omega

theorem of_slot_add (f : Frame) (i : Fin 512) {d : Nat} (hd : d < 8) :
    of (f.slot i + BitVec.ofNat 64 d) = f := by
  have h : (8 * BitVec.ofNat 64 i.1 + BitVec.ofNat 64 d : U64).toNat < 4096 := by
    have hi := i.isLt
    simp only [BitVec.toNat_add, BitVec.toNat_mul, BitVec.toNat_ofNat, BitVec.ofNat_eq_ofNat]
    omega
  rw [slot, BitVec.add_assoc]
  exact of_add f h

end Frame

/-! ## Words of a frame -/

namespace Mem

/-- The `i`-th word of frame `f`. -/
def word (m : Mem) (f : Frame) (i : Fin 512) : U64 := m.load64 (f.slot i)

/-- The two memories agree outside the frames of `S`. -/
def EqOutside (S : Set Frame) (m m' : Mem) : Prop := ∀ x, Frame.of x ∉ S → m' x = m x

theorem EqOutside.refl (S : Set Frame) (m : Mem) : EqOutside S m m := fun _ _ => rfl

theorem EqOutside.mono {S T : Set Frame} {m m' : Mem} (h : EqOutside S m m') (hs : S ⊆ T) : EqOutside T m m' :=
  fun x hx => h x (fun hxs => hx (hs hxs))

theorem EqOutside.trans {S : Set Frame} {m₁ m₂ m₃ : Mem} (h : EqOutside S m₁ m₂) (h' : EqOutside S m₂ m₃) :
    EqOutside S m₁ m₃ := fun x hx => (h' x hx).trans (h x hx)

theorem EqOutside.word {S : Set Frame} {m m' : Mem} (h : EqOutside S m m') {f : Frame} (hf : f ∉ S) (i : Fin 512) :
    m'.word f i = m.word f i := by
  refine load64_congr (fun d hd => h _ ?_)
  rw [Frame.of_slot_add f i hd]
  exact hf

theorem EqOutside.load64 {S : Set Frame} {m m' : Mem} (h : EqOutside S m m') {x : U64} (hx : x.toNat % 8 = 0)
    (hf : Frame.of x ∉ S) : m'.load64 x = m.load64 x := by
  refine load64_congr (fun d hd => h _ ?_)
  rw [Frame.of_add_of_word hx hd]
  exact hf

theorem EqOutside.store64 (m : Mem) (f : Frame) (i : Fin 512) (v : U64) :
    EqOutside {f} m (m.store64 (f.slot i) v) := by
  intro x hx
  simp only [Mem.store64, ite_eq_right_iff]
  intro hlt
  refine absurd ?_ hx
  have he : x = f.slot i + BitVec.ofNat 64 (x - f.slot i).toNat := by
    rw [BitVec.ofNat_toNat, BitVec.setWidth_eq, BitVec.add_comm, BitVec.sub_add_cancel]
  rw [he]
  exact Frame.of_slot_add f i hlt

theorem EqOutside.store64_congr {S : Set Frame} {m m' : Mem} (h : EqOutside S m m') (a v : U64) :
    EqOutside S (m.store64 a v) (m'.store64 a v) := by
  intro x hx
  simp only [Mem.store64, h x hx]

theorem word_store64 (m : Mem) (f : Frame) (i : Fin 512) (v : U64) (g : Frame) (j : Fin 512) :
    (m.store64 (f.slot i) v).word g j = if g = f ∧ j = i then v else m.word g j := by
  split
  · rename_i h
    obtain ⟨rfl, rfl⟩ := h
    exact load64_store64_self m _ v
  · rename_i h
    refine load64_congr (fun d hd => ?_)
    rw [Mem.store64, if_neg]
    rw [Frame.slot_sub_lt_iff f g i j hd]
    exact h

/-- Writes the word `i` of a frame that may be missing. -/
def storeAt (m : Mem) (o : Option Frame) (i : Fin 512) (v : U64) : Mem :=
  match o with
  | none => m
  | some f => m.store64 (f.slot i) v

theorem word_storeAt (m : Mem) (o : Option Frame) (i : Fin 512) (v : U64) (g : Frame) (j : Fin 512) :
    (m.storeAt o i v).word g j = if o = some g ∧ j = i then v else m.word g j := by
  cases o with
  | none => simp [storeAt]
  | some f =>
      rw [storeAt, word_store64]
      refine if_congr (and_congr_left fun _ => ?_) rfl rfl
      rw [Option.some.injEq, eq_comm]

theorem EqOutside.storeAt (m : Mem) (o : Option Frame) (i : Fin 512) (v : U64) :
    EqOutside {f | o = some f} m (m.storeAt o i v) := by
  cases o with
  | none => exact .refl _ _
  | some f =>
      refine (EqOutside.store64 m f i v).mono ?_
      rintro g rfl
      rfl

/-- Every byte of a frame lies at a distance below 4096 from its first. -/
theorem sub_lt_iff_of (f : Frame) (x : U64) : (x - f.1).toNat < 4096 ↔ Frame.of x = f := by
  rw [Frame.of_eq_iff]
  obtain ⟨f, hf⟩ := f
  have hfl := f.isLt
  have hxl := x.isLt
  rw [BitVec.toNat_sub]
  simp only at hf ⊢
  omega

theorem fill_frame_apply (m : Mem) (f : Frame) (b : U8) (x : U64) :
    m.fill f.1 b 4096 x = if Frame.of x = f then b else m x := by
  simp only [fill, sub_lt_iff_of]

theorem EqOutside.fill (m : Mem) (f : Frame) (b : U8) {n : Nat} (hn : n ≤ 4096) :
    EqOutside {f} m (m.fill f.1 b n) := by
  intro x hx
  have hne : ¬ (x - f.1).toNat < 4096 := fun hlt => hx ((sub_lt_iff_of f x).mp hlt)
  rw [Mem.fill, if_neg (by omega)]

theorem word_fill_zero (m : Mem) (f g : Frame) (j : Fin 512) :
    (m.fill f.1 0 4096).word g j = if g = f then 0 else m.word g j := by
  split
  · rename_i h
    subst h
    refine load64_of_zero (fun d hd => ?_)
    rw [fill_frame_apply, if_pos (Frame.of_slot_add g j hd)]
  · rename_i h
    exact (EqOutside.fill m f 0 le_rfl).word h j

/-- The words from `i` on are copied from another frame. -/
theorem word_copyFrom (m : Mem) (f s : Frame) (i : Fin 512) (g : Frame) (j : Fin 512) :
    (m.copyFrom (f.slot i) m (s.slot i) (8 * (512 - i.1))).word g j =
      if g = f ∧ i ≤ j then m.word s j else m.word g j := by
  have hiff : ∀ d < 8, (g.slot j + BitVec.ofNat 64 d - f.slot i).toNat < 8 * (512 - i.1) ↔ g = f ∧ i ≤ j := by
    intro d hd
    obtain ⟨f, hf⟩ := f
    obtain ⟨g, hg⟩ := g
    obtain ⟨i, hi⟩ := i
    obtain ⟨j, hj⟩ := j
    have hfl := f.isLt
    have hgl := g.isLt
    simp only [Frame.slot, BitVec.toNat_sub, BitVec.toNat_add, BitVec.toNat_mul, BitVec.toNat_ofNat, Subtype.mk.injEq,
      Fin.mk_le_mk, ← BitVec.toNat_inj, BitVec.ofNat_eq_ofNat] at hf hg ⊢
    omega
  split
  · rename_i h
    refine load64_congr (fun d hd => ?_)
    have hsrc : s.slot i + (g.slot j + BitVec.ofNat 64 d - f.slot i) = s.slot j + BitVec.ofNat 64 d := by
      rw [h.1]
      simp only [Frame.slot]
      bv_omega
    rw [copyFrom, if_pos ((hiff d hd).mpr h), hsrc]
  · rename_i h
    refine load64_congr (fun d hd => ?_)
    rw [copyFrom, if_neg (fun hc => h ((hiff d hd).mp hc))]

theorem EqOutside.copyFrom (m src : Mem) (f : Frame) (i : Fin 512) (s : U64) {n : Nat} (hn : n ≤ 8 * (512 - i.1)) :
    EqOutside {f} m (m.copyFrom (f.slot i) src s n) := by
  intro x hx
  rw [Mem.copyFrom, if_neg]
  intro hlt
  refine hx ((sub_lt_iff_of f x).mp ?_)
  have hi := i.isLt
  have hxl := x.isLt
  have hfl := f.1.isLt
  have hslot : (f.slot i).toNat = f.1.toNat + 8 * i.1 := by
    have hd : (8 * BitVec.ofNat 64 i.1 : U64).toNat = 8 * i.1 := by
      simp only [BitVec.toNat_mul, BitVec.toNat_ofNat, BitVec.ofNat_eq_ofNat]
      omega
    rw [Frame.slot, Frame.toNat_add f (by omega), hd]
  have hf := f.2
  rw [BitVec.toNat_sub] at hlt ⊢
  omega

end Mem

end ShadowOS
