import ShadowOS.Fs.Lemmas.Ustar
import ShadowOS.Fs.Theorems

/-!
# Theorems about the loop over an archive
-/

namespace ShadowOS.Fs

open Proc (bumpAllocator)

variable {H : Type} {A : Proc.Allocator H} {data size : U64}

/-- The offset grows in every turn exactly when no turn has a file whose size makes the 32-bit distance zero, or an offset that
leaves the 64 bits. Then the loop ends. -/
theorem ustar_progress_iff (u : Unpacking H) (mount : U64) :
    ((∀ n, AllSteps (ustarTurn A (u.fs.mounts mount).root data size) (Progress A (u.fs.mounts mount).root data size) (u, 0)
        (List.replicate n ())) ↔
      ∀ n, AllSteps (ustarTurn A (u.fs.mounts mount).root data size) (Advances A (u.fs.mounts mount).root data size) (u, 0)
        (List.replicate n ())) ∧
    ((∀ n, AllSteps (ustarTurn A (u.fs.mounts mount).root data size) (Advances A (u.fs.mounts mount).root data size) (u, 0)
        (List.replicate n ())) → ramfsInitUstar A u mount data size ≠ .error .loop) := by
  rw [progress_eq_advances]
  refine ⟨Iff.rfl, fun h => ?_⟩
  unfold ramfsInitUstar
  split
  · simp
  · rw [← progress_eq_advances] at h
    exact ustarLoop_ends (s := (u, 0)) h (by simp [maxBytes])

/-- The directory "." and, 512 bytes later, the first byte of a name. -/
def shortArchive : Mem := fun p => if p = 0x1000 then 46 else if p = 0x1200 then 97 else 0

theorem shortArchive_turn (size : U64) (hsize : 0 < size) :
    ustarTurn bumpAllocator 0x800 0x1000 size (⟨sampleFs, shortArchive, 0⟩, 0) () =
      some (⟨sampleFs, shortArchive, 0⟩, 512) := by
  have hheader : (0x1000 : U64) + 0 = 0x1000 := by decide
  have hname : (⟨sampleFs, shortArchive, 0⟩ : Unpacking U64).string 0x1000 = [46] := by decide
  have hstart : (⟨sampleFs, shortArchive, 0⟩ : Unpacking U64).name 0x1000 = 0x1000 := by decide
  have hadvance : ustarAdvance ((⟨sampleFs, shortArchive, 0⟩ : Unpacking U64).fileSize 0x1000) = 512 := by decide
  rw [ustarTurn_skip hsize (by decide), hheader, hadvance]
  · rfl
  · rw [hheader, hstart, hname]
    exact .inr rfl

/-- One entry in an archive of 512 bytes. -/
theorem ustar_progress_iff_sample :
    ramfsInitUstar bumpAllocator ⟨sampleFs, shortArchive, 0⟩ 0x400 0x1000 512 ≠ .error .loop := by
  refine (ustar_progress_iff ⟨sampleFs, shortArchive, 0⟩ 0x400).2 (fun n => ?_)
  cases n with
  | zero => trivial
  | succ n =>
      refine ⟨fun _ => by decide, fun s' hs' => ?_⟩
      cases (shortArchive_turn 512 (by decide)).symm.trans hs'
      cases n with
      | zero => trivial
      | succ n => exact ⟨fun hne => absurd rfl hne, fun s' hs' => by cases hs'⟩

/-- The directory "." with a file of 37777777000 (octal) bytes. -/
def endlessArchive : Mem := fun p =>
  if p = 0x1000 then 46
  else if p = 0x107c then 51
  else if 0x107d ≤ p ∧ p ≤ 0x1083 then 55
  else if 0x1084 ≤ p ∧ p ≤ 0x1086 then 48
  else 0

/-- The entry is met again and again. -/
theorem ustar_loops : ramfsInitUstar bumpAllocator ⟨sampleFs, endlessArchive, 0⟩ 0x400 0x1000 512 = .error .loop ∧
    ∀ fuel, ustarLoop bumpAllocator 0x800 0x1000 512 fuel ⟨sampleFs, endlessArchive, 0⟩ 0 = .error .loop := by
  have hname : (⟨sampleFs, endlessArchive, 0⟩ : Unpacking U64).string 0x1000 = [46] := by decide
  have hstart : (⟨sampleFs, endlessArchive, 0⟩ : Unpacking U64).name 0x1000 = 0x1000 := by decide
  have hsize : ustarAdvance ((⟨sampleFs, endlessArchive, 0⟩ : Unpacking U64).fileSize 0x1000) = 0 := by decide
  have hturn : ustarTurn bumpAllocator 0x800 0x1000 512 (⟨sampleFs, endlessArchive, 0⟩, 0) () =
      some (⟨sampleFs, endlessArchive, 0⟩, 0) := by
    have hheader : (0x1000 : U64) + 0 = 0x1000 := by decide
    rw [ustarTurn_skip (by decide) (by decide), hheader, hsize]
    · rfl
    · rw [hheader, hstart, hname]
      exact .inr rfl
  have hloop := ustarLoop_endless hturn
  refine ⟨?_, hloop⟩
  unfold ramfsInitUstar
  rw [if_neg (by decide)]
  exact hloop maxBytes

end ShadowOS.Fs
