import ShadowOS.Base.Radix
import ShadowOS.Mm.Vmm

/-!
# Page tables as radix tables
-/

namespace ShadowOS.Mm

/-! ## Entries -/

theorem and_addrMask_toNat (e : U64) : (e &&& addrMask).toNat % 4096 = 0 := by
  have h : (e &&& addrMask).toNat &&& (2 ^ 12 - 1) = 0 := by
    rw [BitVec.toNat_and, Nat.and_assoc]
    have hm : addrMask.toNat &&& (2 ^ 12 - 1) = 0 := by decide
    rw [hm, Nat.and_zero]
  rw [Nat.and_two_pow_sub_one_eq_mod] at h
  exact h

/-- Page table entries: bit 0 says that the entry is present, bits 12 to 51 hold a frame. -/
def pte : Format Frame U64 U64 where
  next e := if e &&& 1 = 0 then none else some ⟨e &&& addrMask, and_addrMask_toNat e⟩
  value e := e &&& addrMask
  blank := 0
  absent := 0
  next_blank := by decide
  value_blank := by decide

/-- The same entries, read with their flags. -/
def flaggedPte : Format Frame U64 U64 := { pte with value := id, value_blank := rfl }

theorem flagged_walk {Idx : Type} (T : Frame → Idx → U64) (r : Frame) (p : List Idx) :
    flaggedPte.walk T r p = pte.walk T r p :=
  Format.walk_of_next (F := pte) (show flaggedPte.next = pte.next from rfl) T r p

theorem look_eq_flagged {Idx : Type} (T : Frame → Idx → U64) (r : Frame) (p : List Idx) (j : Idx) :
    pte.look T r p j = flaggedPte.look T r p j &&& addrMask := by
  rw [Format.look, Format.look, flagged_walk]
  cases pte.walk T r p with
  | none => exact (by decide : (0 : U64) = 0 &&& addrMask)
  | some t => rfl

theorem pte_next_absent {e : U64} (h : e &&& 1 = 0) : pte.next e = none := by
  simp only [pte, h, ↓reduceIte]

theorem pte_next_present {e : U64} (h : ¬ e &&& 1 = 0) : pte.next e = some ⟨e &&& addrMask, and_addrMask_toNat e⟩ := by
  simp only [pte, h, ↓reduceIte]

/-- Flag bits never leak into the address. -/
theorem or_flags_and_addrMask {x : U64} (flags : U64) (hx : x.toNat % 4096 = 0) (hs : x.toNat < 2 ^ 52)
    (hf : flags &&& addrMask = 0) : (x ||| flags) &&& addrMask = x := by
  have hz : x &&& addrMask ||| (0 : U64) = x &&& addrMask := BitVec.or_zero
  rw [BitVec.and_or_distrib_right, hf, hz]
  apply BitVec.eq_of_getLsbD_eq
  intro i hi
  rw [BitVec.getLsbD_and]
  by_cases hlo : i < 12
  · have hxi : x.getLsbD i = false := by
      have : x.toNat.testBit i = (x.toNat % 2 ^ 12).testBit i := by
        rw [Nat.testBit_mod_two_pow]
        simp [hlo]
      rw [← BitVec.testBit_toNat, this]
      have h0 : x.toNat % 2 ^ 12 = 0 := hx
      rw [h0, Nat.zero_testBit]
    simp [hxi]
  · by_cases hhi : 52 ≤ i
    · have hxi : x.getLsbD i = false := by
        rw [← BitVec.testBit_toNat]
        exact Nat.testBit_lt_two_pow (Nat.lt_of_lt_of_le hs (Nat.pow_le_pow_right (by omega) hhi))
      simp [hxi]
    · have hmi : addrMask.getLsbD i = true := by
        have : ∀ j : Fin 52, 12 ≤ j.1 → addrMask.getLsbD j.1 = true := by decide
        have hi' : 12 ≤ i := by omega
        exact this ⟨i, by omega⟩ hi'
      simp [hmi]

theorem present_or (x : U64) : ¬ (x ||| 0b111) &&& 1 = 0 := by
  rw [BitVec.and_or_distrib_right]
  intro h
  have h1 := congrArg (fun y : U64 => y.getLsbD 0) h
  simp at h1

theorem pte_next_table {f : Frame} (hs : f.1.toNat < 2 ^ 52) : pte.next (f.1 ||| 0b111) = some f := by
  rw [pte_next_present (present_or _)]
  have := or_flags_and_addrMask 0b111 f.2 hs (by decide)
  simp only [this]

/-! ## Indices -/

/-- The index of an address at one level. -/
def ix (virt : U64) (shift : Nat) : Fin 512 := ⟨virt.toNat / 2 ^ shift % 512, Nat.mod_lt _ (by omega)⟩

theorem pmlIdx_toNat (virt : U64) (shift : Nat) (h : shift ≤ 55) : (pmlIdx virt shift).toNat = (ix virt shift).1 := by
  have hm : (0x1ff#64 <<< shift) >>> shift = 0x1ff#64 := by
    apply BitVec.eq_of_toNat_eq
    have h1 : 511 <<< shift < 2 ^ 64 := by
      rw [Nat.shiftLeft_eq]
      calc 511 * 2 ^ shift < 2 ^ 9 * 2 ^ shift := Nat.mul_lt_mul_of_pos_right (by omega) (Nat.two_pow_pos _)
        _ = 2 ^ (9 + shift) := by rw [Nat.pow_add]
        _ ≤ 2 ^ 64 := Nat.pow_le_pow_right (by omega) (by omega)
    rw [BitVec.toNat_ushiftRight, BitVec.toNat_shiftLeft, BitVec.toNat_ofNat, Nat.mod_eq_of_lt (by omega : 511 < 2 ^ 64),
      Nat.mod_eq_of_lt h1, Nat.shiftLeft_shiftRight]
  rw [pmlIdx, BitVec.ushiftRight_and_distrib]
  have hm' : (0x1ff : U64) <<< shift >>> shift = 0x1ff#64 := hm
  rw [hm', BitVec.toNat_and, BitVec.toNat_ushiftRight, Nat.shiftRight_eq_div_pow]
  exact Nat.and_two_pow_sub_one_eq_mod _ 9

/-- The indices that lead to the last-level table of an address. -/
def path (virt : U64) : List (Fin 512) := [ix virt 39, ix virt 30, ix virt 21]

/-- The number of the page of an address: its bits 12 to 47. -/
def pageNo (virt : U64) : BitVec 36 := virt.extractLsb' 12 36

theorem pageNo_toNat (virt : U64) : (pageNo virt).toNat = virt.toNat / 4096 % 2 ^ 36 := by
  rw [pageNo, BitVec.extractLsb'_toNat, Nat.shiftRight_eq_div_pow]

theorem pageNo_eq_iff {v w : U64} : pageNo v = pageNo w ↔ path v = path w ∧ ix v 12 = ix w 12 := by
  rw [← BitVec.toNat_inj, pageNo_toNat, pageNo_toNat]
  simp only [path, ix, List.cons.injEq, Fin.mk.injEq, and_true, Nat.reducePow]
  omega

/-! ## Memory accesses -/

theorem physical_entryPtr (k : State) (f : Frame) {i : Fin 512} {idx : U64} (h : idx.toNat = i.1) :
    k.physical (entryPtr (k.higherHalf f.1) idx) = f.slot i := by
  have hi : idx = BitVec.ofNat 64 i.1 := by
    rw [← h, BitVec.ofNat_toNat, BitVec.setWidth_eq]
  rw [entryPtr, State.physical_higherHalf_add, hi, Frame.slot]

theorem load_entryPtr (k : State) (f : Frame) {i : Fin 512} {idx : U64} (h : idx.toNat = i.1) :
    k.load (entryPtr (k.higherHalf f.1) idx) = k.mem.word f i := by
  rw [State.load, physical_entryPtr k f h, Mem.word]

theorem store_entryPtr (k : State) (f : Frame) {i : Fin 512} {idx : U64} (h : idx.toNat = i.1) (v : U64) :
    k.store (entryPtr (k.higherHalf f.1) idx) v = { k with mem := k.mem.store64 (f.slot i) v } := by
  rw [State.store, physical_entryPtr k f h]

theorem word_store64_eq_set (m : Mem) (f : Frame) (i : Fin 512) (v : U64) :
    (m.store64 (f.slot i) v).word = Format.set m.word f i v := by
  funext g j
  exact Mem.word_store64 m f i v g j

/-- The entry of an address is found by the lookup in the radix tables that the memory holds. -/
theorem leafEntry_eq_look (k : State) (r : Frame) (virt : U64) :
    leafEntry k (k.higherHalf r.1) virt = flaggedPte.look k.mem.word r (path virt) (ix virt 12) := by
  have h4 := load_entryPtr k r (pmlIdx_toNat virt 39 (by omega))
  unfold leafEntry path
  simp only [h4]
  by_cases he : k.mem.word r (ix virt 39) &&& 1 = 0
  · rw [Format.look_cons_none (F := flaggedPte) (pte_next_absent he)]
    simp only [he, ↓reduceIte]
    rfl
  rw [Format.look_cons_some (F := flaggedPte) (pte_next_present he)]
  simp only [he, ↓reduceIte]
  generalize hr3 : (⟨k.mem.word r (ix virt 39) &&& addrMask, and_addrMask_toNat _⟩ : Frame) = r3
  have h3 := load_entryPtr k r3 (pmlIdx_toNat virt 30 (by omega))
  rw [← hr3] at h3
  simp only [h3]
  rw [hr3]
  by_cases he : k.mem.word r3 (ix virt 30) &&& 1 = 0
  · rw [Format.look_cons_none (F := flaggedPte) (pte_next_absent he)]
    simp only [he, ↓reduceIte]
    rfl
  rw [Format.look_cons_some (F := flaggedPte) (pte_next_present he)]
  simp only [he, ↓reduceIte]
  generalize hr2 : (⟨k.mem.word r3 (ix virt 30) &&& addrMask, and_addrMask_toNat _⟩ : Frame) = r2
  have h2 := load_entryPtr k r2 (pmlIdx_toNat virt 21 (by omega))
  rw [← hr2] at h2
  simp only [h2]
  rw [hr2]
  by_cases he : k.mem.word r2 (ix virt 21) &&& 1 = 0
  · rw [Format.look_cons_none (F := flaggedPte) (pte_next_absent he)]
    simp only [he, ↓reduceIte]
    rfl
  rw [Format.look_cons_some (F := flaggedPte) (pte_next_present he)]
  simp only [he, ↓reduceIte]
  generalize hr1 : (⟨k.mem.word r2 (ix virt 21) &&& addrMask, and_addrMask_toNat _⟩ : Frame) = r1
  have h1 := load_entryPtr k r1 (pmlIdx_toNat virt 12 (by omega))
  rw [← hr1] at h1
  simp only [h1]
  rw [hr1]
  rfl

theorem virtToPhys_eq_leafEntry (k : State) (pagemap virt : U64) :
    virtToPhys k pagemap virt = leafEntry k pagemap virt &&& addrMask := by
  have hzero : (0 : U64) &&& addrMask = 0 := by decide
  simp only [virtToPhys, leafEntry, apply_ite (· &&& addrMask), hzero]

/-- `virt_to_phys` is the lookup of the address that the entry holds. -/
theorem virtToPhys_eq_look (k : State) (r : Frame) (virt : U64) :
    virtToPhys k (k.higherHalf r.1) virt = pte.look k.mem.word r (path virt) (ix virt 12) := by
  rw [virtToPhys_eq_leafEntry, leafEntry_eq_look, look_eq_flagged]

end ShadowOS.Mm
