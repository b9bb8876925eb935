import ShadowOS.Base.Run
import ShadowOS.Fs.Spec

/-!
# Files over whole runs
-/

namespace ShadowOS.Fs

variable {H : Type} {A : Proc.Allocator H} {s s' : State H} {v : U64}

theorem kmalloc_vfs (A : Proc.Allocator H) (s : State H) (n : U64) : (s.kmalloc A n).2.toVfs = s.toVfs := rfl

theorem kfree_vfs (A : Proc.Allocator H) (s : State H) (p : U64) : (s.kfree A p).toVfs = s.toVfs := rfl

theorem kmallocBlock_cases {n p : U64} (h : s.kmallocBlock A n = (p, s')) :
    p = 0 ∧ s'.toVfs = s.toVfs ∨
      p ≠ 0 ∧ s'.toVfs = { s.toVfs with blocks := Function.update s.blocks p ⟨n.toNat, (s.blocks p).bytes⟩ } := by
  simp only [State.kmallocBlock] at h
  obtain ⟨rfl, rfl⟩ := Prod.mk.inj h
  by_cases h0 : (s.kmalloc A n).1 = 0
  · exact .inl ⟨h0, by rw [if_pos h0]; rfl⟩
  · exact .inr ⟨h0, by rw [if_neg h0]; rfl⟩

/-! ## The bytes of a file -/

/-- A larger block holds the bytes of the file, and after them what it held before. -/
theorem ramfsGrow_eq (v : U64) {newSize : U64} (hp : (s.kmalloc A newSize).1 ≠ 0) : ∃ accesses s',
    ramfsGrow A s v newSize = some (accesses, s') ∧ s'.nodes v = { s.nodes v with size := newSize } ∧
      contents v s' = ⟨newSize.toNat, fun i =>
        if i < (contents v s).size then (contents v s).byte i else (s.blocks (s.kmalloc A newSize).1).bytes i⟩ := by
  have hbytes : ∀ q, (Function.update s.blocks (s.kmalloc A newSize).1
      ⟨newSize.toNat, (s.blocks (s.kmalloc A newSize).1).bytes⟩ q).bytes = (s.blocks q).bytes := by
    intro q
    by_cases hq : q = (s.kmalloc A newSize).1
    · rw [hq, Function.update_self]
    · rw [Function.update_of_ne hq]
  simp only [ramfsGrow, State.kmallocBlock, if_neg hp]
  refine ⟨_, _, rfl, Function.update_self .., ?_⟩
  simp only [contents, Function.update_self, kfree_vfs, copyTo, kmalloc_vfs, hbytes, Nat.zero_le, true_and, Nat.zero_add,
    Nat.sub_zero]
  congr

/-- A copy to the block changes the bytes of its range. -/
theorem ramfsPut_contents (s : State H) (v : U64) (bytes : Nat → U8) (size offset : U64) :
    contents v (ramfsPut s v bytes size offset).2 =
      ⟨(if offset + size < (s.nodes v).size then (s.nodes v).size else offset + size).toNat, fun i =>
        if offset.toNat ≤ i ∧ i < offset.toNat + size.toNat then bytes (i - offset.toNat) else (contents v s).byte i⟩ := by
  simp only [contents, ramfsPut, Function.update_self, copyTo]

/-- A write that needs no larger block. -/
theorem ramfsWrite_inside (A : Proc.Allocator H) {size offset : U64} (hfile : IsFile v s) (hroom : ¬ NeedsRoom v s size offset)
    (buf : Option (Nat → U8)) : ramfsWrite A s v buf size offset =
      match buf with
      | none => (-1, [], s)
      | some bytes => (size.setWidth 32, ramfsPut s v bytes size offset) := by
  have hroom' : ¬ ((s.ramfs (s.nodes v).data).size ≤ offset ∧ (s.ramfs (s.nodes v).data).size < offset + size) := hroom
  simp only [ramfsWrite, hfile.1, hfile.2.1, hfile.2.2, ne_eq, not_true_eq_false, or_self, ↓reduceIte, if_neg hroom']
  cases buf with
  | none => rfl
  | some bytes => rfl

/-- A write for which there is no memory. -/
theorem ramfsWrite_failed {size offset : U64} (hfile : IsFile v s) (hroom : NeedsRoom v s size offset)
    (hp : (s.kmalloc A (offset + size)).1 = 0) (buf : Option (Nat → U8)) :
    ramfsWrite A s v buf size offset = (-1, [], (s.kmalloc A (offset + size)).2) := by
  have hroom' : (s.ramfs (s.nodes v).data).size ≤ offset ∧ (s.ramfs (s.nodes v).data).size < offset + size := hroom
  simp only [ramfsWrite, hfile.1, hfile.2.1, hfile.2.2, ne_eq, not_true_eq_false, or_self, ↓reduceIte, if_pos hroom', ramfsGrow,
    State.kmallocBlock, hp]

/-- A write to a larger block. -/
theorem ramfsWrite_grown {size offset : U64} (hfile : IsFile v s) (hroom : NeedsRoom v s size offset)
    (hp : (s.kmalloc A (offset + size)).1 ≠ 0) (buf : Option (Nat → U8)) : ∃ accesses s',
    ramfsGrow A s v (offset + size) = some (accesses, s') ∧ ramfsWrite A s v buf size offset =
      match buf with
      | none => (-1, accesses, s')
      | some bytes =>
          (size.setWidth 32, accesses ++ (ramfsPut s' v bytes size offset).1, (ramfsPut s' v bytes size offset).2) := by
  obtain ⟨accesses, s', hgrow, _⟩ := ramfsGrow_eq v hp
  have hroom' : (s.ramfs (s.nodes v).data).size ≤ offset ∧ (s.ramfs (s.nodes v).data).size < offset + size := hroom
  refine ⟨accesses, s', hgrow, ?_⟩
  simp only [ramfsWrite, hfile.1, hfile.2.1, hfile.2.2, ne_eq, not_true_eq_false, or_self, ↓reduceIte, if_pos hroom', hgrow]
  cases buf with
  | none => rfl
  | some bytes => rfl

/-- A read gives the bytes of the file from the offset on. -/
theorem ramfsRead_bytes {buf : U64} (hfile : IsFile v s) (hbuf : buf ≠ 0) (size offset : U64) :
    (ramfsRead s v buf size offset).2.1 = (contents v s).slice offset.toNat size.toNat ∧
      (ramfsRead s v buf size offset).1 = BitVec.ofNat 32 ((contents v s).slice offset.toNat size.toNat).length := by
  simp only [ramfsRead, hfile.1, hfile.2.1, hfile.2.2, ne_eq, not_true_eq_false, or_self, ↓reduceIte, false_or, hbuf,
    Contents.slice, contents, List.length_map, List.length_range]
  split
  · rename_i hle
    rw [BitVec.le_def] at hle
    rw [Nat.sub_eq_zero_of_le hle, Nat.min_zero]
    exact ⟨rfl, rfl⟩
  · rename_i hlt
    rw [BitVec.not_le] at hlt
    have hsub : ((s.ramfs (s.nodes v).data).size - offset).toNat = (s.ramfs (s.nodes v).data).size.toNat - offset.toNat :=
      BitVec.toNat_sub_of_le (BitVec.le_of_lt hlt)
    have hmin : (if (s.ramfs (s.nodes v).data).size - offset < size then (s.ramfs (s.nodes v).data).size - offset
        else size).toNat = min size.toNat ((s.ramfs (s.nodes v).data).size.toNat - offset.toNat) := by
      rw [← hsub]
      split
      · rename_i hc
        rw [BitVec.lt_def] at hc
        omega
      · rename_i hc
        rw [BitVec.lt_def] at hc
        omega
    rw [hmin]
    refine ⟨rfl, ?_⟩
    rw [← hmin, BitVec.ofNat_toNat]

namespace FileInv

theorem bounded (h : FileInv v s) : Bounded v s := h.block.le

theorem isFile (h : FileInv v s) : IsFile v s := ⟨h.nonnull, h.type, h.data⟩

theorem congr (h : FileInv v s) (he : s'.toVfs = s.toVfs) : FileInv v s' := by
  obtain ⟨h0, htype, hdata, hsize, hblock⟩ := h
  rw [← he] at htype hdata hsize hblock
  exact ⟨h0, htype, hdata, hsize, hblock⟩

/-- A write that ends in the file keeps it as long as its block. -/
theorem put (h : FileInv v s) (bytes : Nat → U8) {size offset : U64}
    (hin : offset.toNat + size.toNat ≤ (s.ramfs (s.nodes v).data).size.toNat) :
    FileInv v (ramfsPut s v bytes size offset).2 ∧ ∀ a ∈ (ramfsPut s v bytes size offset).1, a.Inside := by
  have hle : offset + size ≤ (s.ramfs (s.nodes v).data).size := by
    rw [BitVec.le_def, BitVec.toNat_add]
    exact (Nat.mod_le _ _).trans hin
  have hnew : (if offset + size < (s.nodes v).size then (s.nodes v).size else offset + size) = (s.nodes v).size := by
    rw [← h.size] at hle
    split
    · rfl
    · rename_i hlt
      exact BitVec.le_antisymm hle (BitVec.not_lt.mp hlt)
  refine ⟨⟨h.nonnull, ?_, ?_, ?_, ?_⟩, ?_⟩
  · simp only [ramfsPut, Function.update_self]
    exact h.type
  · simp only [ramfsPut, Function.update_self]
    exact h.data
  · simp only [ramfsPut, Function.update_self]
  · simp only [ramfsPut, Function.update_self, Vfs.allocated, hnew]
    rw [h.size, h.block, Vfs.allocated]
    split
    · rfl
    · rfl
  · simp only [ramfsPut, List.mem_singleton, forall_eq, Access.Inside, ← h.block]
    exact hin

/-- The file as it is after it got a larger block. -/
theorem grow (h : FileInv v s) {newSize : U64} {accesses : List Access}
    (hlt : (s.ramfs (s.nodes v).data).size ≤ newSize) (hres : ramfsGrow A s v newSize = some (accesses, s')) :
    FileInv v s' ∧ (s'.ramfs (s'.nodes v).data).size = newSize ∧ ∀ a ∈ accesses, a.Inside := by
  simp only [ramfsGrow] at hres
  rcases hkm : s.kmallocBlock A newSize with ⟨newData, s₁⟩
  rw [hkm] at hres
  rcases kmallocBlock_cases hkm with ⟨h0, _⟩ | ⟨h0, hvfs⟩
  · simp only [h0, ↓reduceIte, reduceCtorEq] at hres
  · simp only [h0, ↓reduceIte, Option.some.injEq, Prod.mk.injEq] at hres
    obtain ⟨rfl, rfl⟩ := hres
    have hnodes : s₁.nodes = s.nodes := by rw [hvfs]
    have hramfs : s₁.ramfs = s.ramfs := by rw [hvfs]
    have hnew : s₁.allocated newData = newSize.toNat := by
      simp only [Vfs.allocated, hvfs, h0, ↓reduceIte, Function.update_self]
    have hold : (s.ramfs (s.nodes v).data).size.toNat ≤ s₁.allocated (s.ramfs (s.nodes v).data).data := by
      by_cases he : (s.ramfs (s.nodes v).data).data = newData
      · rw [he, hnew]
        exact hlt
      · have hblock := h.block
        simp only [Vfs.allocated] at hblock
        simp only [Vfs.allocated, hvfs, Function.update_of_ne he]
        exact hblock.le
    refine ⟨⟨h.nonnull, ?_, ?_, ?_, ?_⟩, ?_, ?_⟩
    · simp only [Function.update_self]
      exact h.type
    · simp only [Function.update_self]
      exact h.data
    · simp only [Function.update_self]
    · have hsize : (s₁.blocks newData).size = newSize.toNat := by
        simpa only [Vfs.allocated, h0, ↓reduceIte] using hnew
      simp only [Function.update_self, Vfs.allocated, h0, ↓reduceIte, kfree_vfs, copyTo, hsize]
    · simp only [Function.update_self]
    · simp only [List.forall_mem_cons, List.not_mem_nil, false_implies, implies_true, and_true, Access.Inside, hnew]
      exact ⟨(Nat.zero_add _).trans_le hlt, (Nat.zero_add _).trans_le hold⟩

/-! ## Calls -/

theorem read_inside (h : FileInv v s) (buf size offset : U64) : ∀ a ∈ (ramfsRead s v buf size offset).2.2, a.Inside := by
  simp only [ramfsRead, h.nonnull, h.type, h.data, ne_eq, not_true_eq_false, or_self, ↓reduceIte, false_or]
  split
  · simp
  · rename_i hlt
    split
    · simp
    · have hblock := h.block
      rw [BitVec.not_le, BitVec.lt_def] at hlt
      simp only [List.mem_singleton, forall_eq, Access.Inside]
      rw [← hblock]
      have hsub : ((s.ramfs (s.nodes v).data).size - offset).toNat =
          (s.ramfs (s.nodes v).data).size.toNat - offset.toNat := by
        rw [BitVec.toNat_sub_of_le (BitVec.le_of_lt (BitVec.lt_def.mpr hlt))]
      split
      · omega
      · rename_i hge
        rw [BitVec.not_lt, BitVec.le_def] at hge
        omega

/-- A write that fits keeps the file as long as its block, and touches no byte outside of it. -/
theorem write (h : FileInv v s) (bytes : Nat → U8) {size offset : U64} (hwrap : offset.toNat + size.toNat < 2 ^ 64)
    (hfits : (FileOp.write bytes size offset).Fits v s) :
    FileInv v (ramfsWrite A s v (some bytes) size offset).2.2 ∧
      ∀ a ∈ (ramfsWrite A s v (some bytes) size offset).2.1, a.Inside := by
  have hsum : (offset + size).toNat = offset.toNat + size.toNat := by
    rw [BitVec.toNat_add, Nat.mod_eq_of_lt hwrap]
  simp only [ramfsWrite, h.nonnull, h.type, h.data, ne_eq, not_true_eq_false, or_self, ↓reduceIte]
  by_cases hgrow : (s.ramfs (s.nodes v).data).size ≤ offset ∧ (s.ramfs (s.nodes v).data).size < offset + size
  · rw [if_pos hgrow]
    cases hres : ramfsGrow A s v (offset + size) with
    | none => exact ⟨h.congr rfl, by simp⟩
    | some res =>
        obtain ⟨accesses, s₁⟩ := res
        obtain ⟨h₁, hsize, hacc⟩ := h.grow (BitVec.le_of_lt hgrow.2) hres
        have hin : offset.toNat + size.toNat ≤ (s₁.ramfs (s₁.nodes v).data).size.toNat := by rw [hsize, hsum]
        obtain ⟨h₂, hacc'⟩ := h₁.put bytes hin
        exact ⟨h₂, fun a ha => (List.mem_append.mp ha).elim (hacc a) (hacc' a)⟩
  · rw [if_neg hgrow]
    have hin : offset.toNat + size.toNat ≤ (s.ramfs (s.nodes v).data).size.toNat := by
      rcases hfits with hle | hin
      · rw [not_and, BitVec.not_lt] at hgrow
        rw [← hsum]
        exact hgrow hle
      · exact hin
    exact h.put bytes hin

/-- A write that starts in the file and ends past it leaves the file longer than its block. -/
theorem write_straddles (h : FileInv v s) (bytes : Nat → U8) {size offset : U64}
    (hwrap : offset.toNat + size.toNat < 2 ^ 64) (hfits : ¬ (FileOp.write bytes size offset).Fits v s) :
    ¬ Bounded v (ramfsWrite A s v (some bytes) size offset).2.2 := by
  have hsum : (offset + size).toNat = offset.toNat + size.toNat := by
    rw [BitVec.toNat_add, Nat.mod_eq_of_lt hwrap]
  simp only [FileOp.Fits, not_or, BitVec.not_le, not_le] at hfits
  have hnogrow : ¬ ((s.ramfs (s.nodes v).data).size ≤ offset ∧ (s.ramfs (s.nodes v).data).size < offset + size) :=
    fun hc => BitVec.not_le.mpr hfits.1 hc.1
  have hnew : ¬ offset + size < (s.nodes v).size := by
    rw [h.size, BitVec.lt_def, hsum]
    omega
  simp only [ramfsWrite, h.nonnull, h.type, h.data, ne_eq, not_true_eq_false, or_self, ↓reduceIte, if_neg hnogrow, ramfsPut,
    Bounded, Function.update_self, Vfs.allocated, if_neg hnew, not_le]
  have hblock := h.block
  simp only [Vfs.allocated] at hblock
  split
  · rename_i h0
    rw [if_pos h0] at hblock
    omega
  · rename_i h0
    rw [if_neg h0] at hblock
    simp only [copyTo]
    omega

end FileInv

/-! ## Gaps and failures -/

theorem Contents.mem_slice_one {c : Contents} {i : Nat} {b : U8} : b ∈ c.slice i 1 ↔ i < c.size ∧ b = c.byte i := by
  simp only [Contents.slice, List.mem_map, List.mem_range]
  constructor
  · rintro ⟨j, hj, rfl⟩
    have h0 : j = 0 := by omega
    rw [h0]
    exact ⟨by omega, rfl⟩
  · rintro ⟨hi, rfl⟩
    exact ⟨0, by omega, rfl⟩

/-- What a write leaves between the old end of the file and its offset: the prior bytes of the block that it got. -/
theorem ramfsWrite_gap (A : Proc.Allocator H) (buf : Option (Nat → U8)) (size offset : U64) (hfile : IsFile v s)
    (hsizes : (s.nodes v).size = (s.ramfs (s.nodes v).data).size) :
    IsFile v (ramfsWrite A s v buf size offset).2.2 ∧
      ∀ i, (contents v s).size ≤ i → i < offset.toNat →
        ((i < (contents v (ramfsWrite A s v buf size offset).2.2).size ↔
          (s.kmalloc A (offset + size)).1 ≠ 0 ∧ i < (offset + size).toNat) ∧
        ((s.kmalloc A (offset + size)).1 ≠ 0 → i < (offset + size).toNat →
          (contents v (ramfsWrite A s v buf size offset).2.2).byte i =
            (s.blocks (s.kmalloc A (offset + size)).1).bytes i)) := by
  by_cases hneeds : NeedsRoom v s size offset
  · by_cases hp : (s.kmalloc A (offset + size)).1 = 0
    · rw [ramfsWrite_failed hfile hneeds hp]
      refine ⟨hfile, fun i hi _ => ⟨⟨fun hc => absurd hc (Nat.not_lt.mpr hi), fun hc => absurd hp hc.1⟩, fun hc => absurd hp hc⟩⟩
    · obtain ⟨accesses, s₁, hgrow, hwrite⟩ := ramfsWrite_grown hfile hneeds hp buf
      obtain ⟨_, _, hgrow', hnode, hc⟩ := ramfsGrow_eq v hp
      cases hgrow.symm.trans hgrow'
      have hfile₁ : IsFile v s₁ := by
        rw [IsFile, hnode]
        exact hfile
      rw [hwrite]
      cases buf with
      | none =>
          refine ⟨hfile₁, fun i hi hlt => ?_⟩
          simp only [hc, hp, ne_eq, not_false_eq_true, true_and, Nat.not_lt.mpr hi, ↓reduceIte, implies_true,
            and_self]
      | some bytes =>
          refine ⟨?_, fun i hi hlt => ?_⟩
          · simp only [IsFile, ramfsPut, Function.update_self]
            exact hfile₁
          · simp only [ramfsPut_contents, hnode, hc, BitVec.lt_irrefl, hp, ne_eq, not_false_eq_true, true_and,
              Nat.not_lt.mpr hi, Nat.not_le.mpr hlt, false_and, ↓reduceIte, implies_true, and_self]
  · rw [ramfsWrite_inside A hfile hneeds]
    -- the write starts past the end, so its end is in the file
    have hsmall : ∀ i, (contents v s).size ≤ i → i < offset.toNat → ¬ i < (offset + size).toNat := by
      intro i hi hlt hc
      refine hneeds ⟨BitVec.le_def.mpr (hi.trans hlt.le), BitVec.lt_def.mpr (hi.trans_lt hc)⟩
    cases buf with
    | none =>
        refine ⟨hfile, fun i hi hlt => ⟨?_, fun _ hc => absurd hc (hsmall i hi hlt)⟩⟩
        exact ⟨fun hc => absurd hc (Nat.not_lt.mpr hi), fun hc => absurd hc.2 (hsmall i hi hlt)⟩
    | some bytes =>
        refine ⟨?_, fun i hi hlt => ⟨?_, fun _ hc => absurd hc (hsmall i hi hlt)⟩⟩
        · simp only [IsFile, ramfsPut, Function.update_self]
          exact hfile
        · refine ⟨fun hc => ?_, fun hc => absurd hc.2 (hsmall i hi hlt)⟩
          simp only [ramfsPut_contents, hsizes] at hc
          split at hc
          · exact absurd hc (Nat.not_lt.mpr hi)
          · exact absurd hc (hsmall i hi hlt)

/-- A copy leaves the file as it was exactly when it repeats its bytes and ends in it. -/
theorem sameFile_put_iff {bytes : Nat → U8} {size offset : U64} :
    SameFile v s (ramfsPut s v bytes size offset).2 ↔ Rewrites v s bytes size offset := by
  have hnew : (if offset + size < (s.nodes v).size then (s.nodes v).size else offset + size) = (s.nodes v).size ↔
      offset + size ≤ (s.nodes v).size := by
    rw [← BitVec.toNat_inj, BitVec.le_def]
    split
    · rename_i hlt
      exact ⟨fun _ => hlt.le, fun _ => rfl⟩
    · rename_i hlt
      rw [BitVec.lt_def] at hlt
      omega
  constructor
  · rintro ⟨hdata, hblock, hsize⟩
    simp only [ramfsPut, Function.update_self] at hdata hblock hsize
    rw [hsize] at hdata
    refine ⟨fun i hi => ?_, congrArg RamfsData.size hdata, hnew.mp hsize⟩
    have hbyte := congrArg (fun b => Block.bytes b (offset.toNat + i)) hblock
    simp only [copyTo, Nat.le_add_right, Nat.add_lt_add_left hi, and_self, ↓reduceIte, Nat.add_sub_cancel_left] at hbyte
    exact hbyte
  · rintro ⟨hbytes, hsizes, hle⟩
    have hsize := hnew.mpr hle
    refine ⟨?_, ?_, ?_⟩
    · simp only [ramfsPut, Function.update_self, hsize]
      rw [hsizes]
    · simp only [ramfsPut, Function.update_self, copyTo]
      congr
      funext i
      split
      · rename_i hi
        rw [hbytes (i - offset.toNat) (by omega), Nat.add_sub_cancel' hi.1]
        rfl
      · rfl
    · simp only [ramfsPut, Function.update_self, hsize]

theorem SameFile.contents_size {s' : State H} (h : SameFile v s s') (hdata : (s'.nodes v).data = (s.nodes v).data) :
    (contents v s').size = (contents v s).size := by
  simp only [contents, hdata, h.data]

/-- A file that got a larger block is longer. -/
theorem not_sameFile_grown {size offset : U64} (hfile : IsFile v s) (hroom : NeedsRoom v s size offset)
    (hp : (s.kmalloc A (offset + size)).1 ≠ 0) (buf : Option (Nat → U8)) :
    ¬ SameFile v s (ramfsWrite A s v buf size offset).2.2 := by
  obtain ⟨accesses, s₁, hgrow, hwrite⟩ := ramfsWrite_grown hfile hroom hp buf
  obtain ⟨_, _, hgrow', hnode, hc⟩ := ramfsGrow_eq v hp
  cases hgrow.symm.trans hgrow'
  have hlt : (contents v s).size < (offset + size).toNat := hroom.2
  rw [hwrite]
  intro h
  cases buf with
  | none =>
      have hsize := h.contents_size (by rw [hnode])
      rw [hc] at hsize
      exact absurd hsize hlt.ne'
  | some bytes =>
      have hsize := h.contents_size (by simp only [ramfsPut, Function.update_self, hnode])
      simp only [ramfsPut_contents, hnode, BitVec.lt_irrefl, ↓reduceIte] at hsize
      exact absurd hsize hlt.ne'

/-! ## New vnodes -/

/-- A vnode is created under a name that is not taken, when there is memory for it. -/
theorem ramfsCreate_cases {self : U64} {name : CString} {type : U32} (hres : ramfsCreate A s self name type = (v, s'))
    (hv : v ≠ 0) : ∃ mm₁ heap₁ q mm₂ heap₂ d mm₃ heap₃,
      vfsLookup (Function.update s.nodes self ((s.nodes self).setLocked false)) self name = 0 ∧
      A.kmalloc s.mm s.heap vnodeSize = (v, mm₁, heap₁) ∧
      A.kmalloc mm₁ heap₁ (BitVec.ofNat 64 (name.length + 1)) = (q, mm₂, heap₂) ∧
      A.kmalloc mm₂ heap₂ ramfsDataSize = (d, mm₃, heap₃) ∧ d ≠ 0 ∧
      s' = { s with
        mm := mm₃
        heap := heap₃
        ramfs := Function.update s.ramfs d ⟨0, 0⟩
        records := Function.update (Function.update s.records v (some .vnode)) d (some .ramfsData)
        nodes := linkChild (Function.update (Function.update s.nodes self ((s.nodes self).setLocked true)) v
          (newVnode ((s.nodes self).setLocked true) self (if q = 0 then none else some name) type d)) self v } := by
  rcases hk₁ : A.kmalloc s.mm s.heap vnodeSize with ⟨p, mm₁, heap₁⟩
  rcases hk₂ : A.kmalloc mm₁ heap₁ (BitVec.ofNat 64 (name.length + 1)) with ⟨q, mm₂, heap₂⟩
  rcases hk₃ : A.kmalloc mm₂ heap₂ ramfsDataSize with ⟨d, mm₃, heap₃⟩
  simp only [ramfsCreate, State.setNode, Function.update_self, Function.update_idem, State.kmalloc, strdup, hk₁, hk₂,
    hk₃] at hres
  split at hres
  · exact absurd (Prod.mk.inj hres).1.symm hv
  · rename_i hfree
    split at hres
    · exact absurd (Prod.mk.inj hres).1.symm hv
    · split at hres
      · exact absurd (Prod.mk.inj hres).1.symm hv
      · rename_i hd
        obtain ⟨rfl, rfl⟩ := Prod.mk.inj hres
        exact ⟨mm₁, heap₁, q, mm₂, heap₂, d, mm₃, heap₃, not_not.mp hfree, rfl, hk₂, hk₃, hd, rfl⟩

/-- Linking a child changes only links. -/
theorem linkChild_apply (nodes : U64 → Vnode) (self v p : U64) :
    ∃ child next, linkChild nodes self v p = ((nodes p).setChild child).setNext next := by
  simp only [linkChild]
  split
  · by_cases hp : p = self
    · rw [hp, Function.update_self]
      exact ⟨v, (nodes self).next, rfl⟩
    · rw [Function.update_of_ne hp]
      exact ⟨(nodes p).child, (nodes p).next, rfl⟩
  · generalize lastFrom (fun p => (nodes p).next) 0 maxCells (nodes self).child = last
    by_cases hp : p = last
    · rw [hp, Function.update_self]
      exact ⟨(nodes last).child, v, rfl⟩
    · rw [Function.update_of_ne hp]
      exact ⟨(nodes p).child, (nodes p).next, rfl⟩

namespace FileInv

/-- A new file has no block. -/
theorem create {s₀ : State H} {self : U64} {name : CString} (hres : ramfsCreate A s₀ self name vnodeFile = (v, s))
    (hv : v ≠ 0) : FileInv v s := by
  obtain ⟨_, _, q, _, _, d, _, _, _, _, _, _, hd, rfl⟩ := ramfsCreate_cases hres hv
  obtain ⟨child, next, hnode⟩ := linkChild_apply
    (Function.update (Function.update s₀.nodes self ((s₀.nodes self).setLocked true)) v
      (newVnode ((s₀.nodes self).setLocked true) self (if q = 0 then none else some name) vnodeFile d)) self v v
  rw [Function.update_self] at hnode
  refine ⟨hv, ?_, ?_, ?_, ?_⟩
  · simp only [hnode]
    rfl
  · simp only [hnode]
    exact hd
  · simp only [hnode]
    change (0 : U64) = (Function.update s₀.ramfs d ⟨0, 0⟩ d).size
    rw [Function.update_self]
  · simp only [hnode]
    change (Function.update s₀.ramfs d ⟨0, 0⟩ d).size.toNat =
      s₀.allocated (Function.update s₀.ramfs d ⟨0, 0⟩ d).data
    rw [Function.update_self]
    rfl

/-! ## Runs -/

theorem step {op : FileOp} (h : FileInv v s) (hwrap : op.NoWrap) (hfits : op.Fits v s)
    (he : FileOp.exec A v s op = some s') : FileInv v s' := by
  cases op with
  | read buf size offset =>
      cases he
      exact h
  | write bytes size offset =>
      cases Option.some.inj he
      exact (h.write bytes hwrap hfits).1

theorem inside {op : FileOp} (h : FileInv v s) (hwrap : op.NoWrap) (hfits : op.Fits v s) :
    ∀ a ∈ op.accesses A v s, a.Inside := by
  cases op with
  | read buf size offset => exact h.read_inside buf size offset
  | write bytes size offset => exact (h.write bytes hwrap hfits).2

/-- A write changes the bytes of its range and makes the file long enough for them. -/
theorem written (h : FileInv v s) (bytes : Nat → U8) {size offset : U64} (hwrap : offset.toNat + size.toNat < 2 ^ 64)
    (hfits : (FileOp.write bytes size offset).Fits v s) (hroom : (FileOp.write bytes size offset).HasRoom A v s) :
    (ramfsWrite A s v (some bytes) size offset).1 = size.setWidth 32 ∧
      (contents v s).Written (contents v (ramfsWrite A s v (some bytes) size offset).2.2) bytes size.toNat offset.toNat := by
  have hsum : (offset + size).toNat = offset.toNat + size.toNat := by
    rw [BitVec.toNat_add, Nat.mod_eq_of_lt hwrap]
  have hold : (s.nodes v).size.toNat = (contents v s).size := congrArg BitVec.toNat h.size
  by_cases hneeds : NeedsRoom v s size offset
  · obtain ⟨accesses, s₁, hgrow, hwrite⟩ := ramfsWrite_grown h.isFile hneeds (hroom hneeds.1 hneeds.2) (some bytes)
    obtain ⟨_, _, hgrow', hnode, hc⟩ := ramfsGrow_eq v (hroom hneeds.1 hneeds.2)
    cases hgrow.symm.trans hgrow'
    have hle : (contents v s).size ≤ offset.toNat := hneeds.1
    rw [hwrite, ramfsPut_contents, hnode, hc]
    refine ⟨rfl, ⟨?_, fun i hi => ?_, fun i hi hout => ?_⟩⟩
    · simp only [BitVec.lt_irrefl, ↓reduceIte, hsum]
      omega
    · simp only [Nat.le_add_right, Nat.add_lt_add_left hi, and_self, ↓reduceIte, Nat.add_sub_cancel_left]
    · simp only [if_neg hout, if_pos hi]
  · rw [ramfsWrite_inside A h.isFile hneeds, ramfsPut_contents]
    have hin : offset.toNat + size.toNat ≤ (contents v s).size := by
      rcases hfits with hle | hin
      · have hn : ¬ (s.ramfs (s.nodes v).data).size < offset + size := fun hc => hneeds ⟨hle, hc⟩
        rw [BitVec.lt_def, hsum] at hn
        exact Nat.not_lt.mp hn
      · exact hin
    refine ⟨rfl, ⟨?_, fun i hi => ?_, fun i hi hout => ?_⟩⟩
    · simp only [BitVec.lt_def, hsum, hold]
      split
      · omega
      · omega
    · simp only [Nat.le_add_right, Nat.add_lt_add_left hi, and_self, ↓reduceIte, Nat.add_sub_cancel_left]
    · simp only [if_neg hout]

theorem actsOnBytes {op : FileOp} (h : FileInv v s) (hwrap : op.NoWrap) (hshort : op.Short) (hfits : op.Fits v s)
    (hroom : op.HasRoom A v s) : op.ActsOnBytes A v s := by
  cases op with
  | read buf size offset => exact fun hbuf => ramfsRead_bytes h.isFile hbuf size offset
  | write bytes size offset =>
      obtain ⟨hstatus, hwritten⟩ := h.written (A := A) bytes hwrap hfits hroom
      have hinv := (h.write (A := A) bytes hwrap hfits).1
      have hlt : size.toNat < 2 ^ 31 := hshort
      have hint : (size.setWidth 32).toInt = size.toNat := by
        have hnat : (size.setWidth 32).toNat = size.toNat := by
          rw [BitVec.toNat_setWidth, Nat.mod_eq_of_lt (by omega)]
        rw [BitVec.toInt_eq_toNat_of_lt (by omega), hnat]
      exact ⟨(congrArg BitVec.toInt hstatus).trans hint, hwritten, congrArg BitVec.toNat hinv.size⟩

theorem fits {op : FileOp} (h : FileInv v s) (hwrap : op.NoWrap) (he : FileOp.exec A v s op = some s')
    (hb : Bounded v s') : op.Fits v s := by
  cases op with
  | read buf size offset => trivial
  | write bytes size offset =>
      cases Option.some.inj he
      by_contra hc
      exact h.write_straddles bytes hwrap hc hb

end FileInv

end ShadowOS.Fs
