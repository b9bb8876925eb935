import ShadowOS.Fs.Theorems

/-!
# Theorems about the contents of files
-/

namespace ShadowOS.Fs

open Proc (bumpAllocator)

variable {H : Type} {A : Proc.Allocator H} {s : State H} {v : U64}

/-! ## Files are arrays of bytes -/

/-- Over any reads, and writes that start at the end of the file or past it or stay inside of it, reads give the bytes of
the file and writes change those of their range. -/
theorem ramfs_acts_on_bytes {ops : List FileOp} (hfile : FileInv v s) (hwrap : ∀ op ∈ ops, op.NoWrap)
    (hshort : ∀ op ∈ ops, op.Short) (hfits : AllSteps (FileOp.exec A v) (FileOp.Fits v) s ops)
    (hroom : AllSteps (FileOp.exec A v) (FileOp.HasRoom A v) s ops) :
    AllSteps (FileOp.exec A v) (FileOp.ActsOnBytes A v) s ops := by
  have hsteps := ((allSteps_of_forall hwrap).and (allSteps_of_forall hshort)).and (hfits.and hroom)
  have hinv := hsteps.allStates (fun h hc he => FileInv.step h hc.1.1 hc.2.1 he) hfile
  exact hsteps.mono_states (fun h hc => h.actsOnBytes hc.1.1 hc.1.2 hc.2.1 hc.2.2) hinv

/-- Four bytes, four more after a gap, and two inside. -/
def sampleWrites : List FileOp :=
  [.write (fun _ => 65) 4 0, .write (fun _ => 66) 4 6, .read 0x2000 20 2, .write (fun _ => 67) 2 1, .read 0x2000 3 20]

theorem ramfs_acts_on_bytes_sample :
    AllSteps (FileOp.exec bumpAllocator sampleFile.1) (FileOp.ActsOnBytes bumpAllocator sampleFile.1) sampleFile.2
      sampleWrites := by
  have hcreate : ramfsCreate bumpAllocator sampleFs 0x800 [97] vnodeFile = (sampleFile.1, sampleFile.2) := by
    rw [Prod.mk.eta, sampleFile]
  have hv : sampleFile.1 ≠ 0 := by decide +kernel
  refine ramfs_acts_on_bytes (.create hcreate hv) ?_ ?_ ?_ ?_
  · simp [sampleWrites, FileOp.NoWrap]
  · simp [sampleWrites, FileOp.Short]
  · decide +kernel
  · decide +kernel

/-! ## Gaps -/

/-- The gap that a write leaves reads as zero exactly when the block that `kmalloc` returns held zeros there. -/
theorem sparse_gap_zero_iff {buf : Option (Nat → U8)} {size offset : U64} (hfile : IsFile v s)
    (hsizes : (s.nodes v).size = (s.ramfs (s.nodes v).data).size) : GapReadsZero A v s buf size offset ↔
      ((s.kmalloc A (offset + size)).1 ≠ 0 → ∀ i : U64, (s.ramfs (s.nodes v).data).size ≤ i → i < offset → i < offset + size →
        (s.blocks (s.kmalloc A (offset + size)).1).bytes i.toNat = 0) := by
  obtain ⟨hfile', hgap⟩ := ramfsWrite_gap A buf size offset hfile hsizes
  constructor
  · intro h hp i hi hlt hend
    obtain ⟨hread, hbyte⟩ := hgap i.toNat hi hlt
    rw [← hbyte hp hend]
    refine h 1 (by decide) i hi hlt _ ?_
    rw [(ramfsRead_bytes hfile' (by decide) 1 i).1]
    exact Contents.mem_slice_one.mpr ⟨hread.mpr ⟨hp, hend⟩, rfl⟩
  · intro h dest hdest i hi hlt b hb
    obtain ⟨hread, hbyte⟩ := hgap i.toNat hi hlt
    rw [(ramfsRead_bytes hfile' hdest 1 i).1] at hb
    obtain ⟨hin, rfl⟩ := Contents.mem_slice_one.mp hb
    obtain ⟨hp, hend⟩ := hread.mp hin
    rw [hbyte hp hend]
    exact h hp i hi hlt hend

/-- The same file system with zeros in every block of the heap. -/
def sampleCleared : State U64 := { sampleFile.2 with blocks := fun _ => ⟨0, fun _ => 0⟩ }

theorem sparse_gap_zero_iff_sample : GapReadsZero bumpAllocator sampleFile.1 sampleCleared (some fun _ => 65) 1 4 :=
  (sparse_gap_zero_iff ⟨by decide, by decide, by decide⟩ (by decide)).mpr
    fun _ _ _ _ _ => rfl

/-- One byte after a gap of four: the gap shows what the heap held before, in two file systems that differ in nothing else. -/
theorem sparse_write_leaks :
    (ramfsRead (ramfsWrite bumpAllocator sampleFile.2 sampleFile.1 (some fun _ => 65) 1 4).2.2 sampleFile.1 0x2000 5 0).2.1 =
      [0xcc, 0xcc, 0xcc, 0xcc, 65] ∧
    (ramfsRead (ramfsWrite bumpAllocator sampleCleared sampleFile.1 (some fun _ => 65) 1 4).2.2 sampleFile.1 0x2000 5 0).2.1 =
      [0, 0, 0, 0, 65] := by
  decide

/-! ## Failed writes -/

/-- A write that returns -1 leaves the file as it was exactly when it had a buffer or needed no larger block, and its size
is not -1 as an `int` or it changes no byte. -/
theorem failed_write_keeps_file_iff {buf : Option (Nat → U8)} {size offset : U64} :
    ((ramfsWrite A s v buf size offset).1 = -1 → SameFile v s (ramfsWrite A s v buf size offset).2.2) ↔
      FailsCleanly A v s buf size offset := by
  by_cases hfile : IsFile v s
  · simp only [FailsCleanly, hfile, forall_true_left]
    by_cases hneeds : NeedsRoom v s size offset
    · by_cases hp : (s.kmalloc A (offset + size)).1 = 0
      · rw [ramfsWrite_failed hfile hneeds hp]
        cases buf with
        | none => exact ⟨fun _ _ => hp, fun _ _ => ⟨rfl, rfl, rfl⟩⟩
        | some bytes => exact ⟨fun _ _ => ⟨fun _ => hp, fun hc => absurd hneeds hc⟩, fun _ _ => ⟨rfl, rfl, rfl⟩⟩
      · have hnot := not_sameFile_grown hfile hneeds hp buf
        obtain ⟨accesses, s₁, _, hwrite⟩ := ramfsWrite_grown hfile hneeds hp buf
        rw [hwrite] at hnot ⊢
        cases buf with
        | none => exact ⟨fun h => absurd (h rfl) hnot, fun h => absurd (h hneeds) hp⟩
        | some bytes => exact ⟨fun h hc => absurd (h hc) hnot, fun h hc => absurd ((h hc).1 hneeds) hp⟩
    · rw [ramfsWrite_inside A hfile hneeds]
      cases buf with
      | none => exact ⟨fun _ hc => absurd hc hneeds, fun _ _ => ⟨rfl, rfl, rfl⟩⟩
      | some bytes =>
          refine forall_congr' fun _ => sameFile_put_iff.trans ?_
          exact ⟨fun h => ⟨fun hc => absurd hc hneeds, fun _ => h⟩, fun h => h.2 hneeds⟩
  · -- the write returns before it looks at the size
    have hwrite : ramfsWrite A s v buf size offset = (-1, [], s) := by
      rw [IsFile, not_and_or, not_and_or, not_not, not_not] at hfile
      simp only [ramfsWrite]
      by_cases h0 : v = 0 ∨ (s.nodes v).type ≠ vnodeFile
      · rw [if_pos h0]
      · rw [if_neg h0, if_pos]
        tauto
    rw [hwrite]
    exact ⟨fun _ hc => absurd hc hfile, fun _ _ => ⟨rfl, rfl, rfl⟩⟩

/-- Four bytes from no buffer: the write fails, and the file has four bytes. -/
theorem failed_write_grows_file :
    (ramfsWrite bumpAllocator sampleFile.2 sampleFile.1 none 4 0).1 = -1 ∧
      (contents sampleFile.1 sampleFile.2).size = 0 ∧
      (contents sampleFile.1 (ramfsWrite bumpAllocator sampleFile.2 sampleFile.1 none 4 0).2.2).size = 4 := by
  decide

end ShadowOS.Fs
