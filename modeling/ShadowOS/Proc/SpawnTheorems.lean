import ShadowOS.Mm.Lemmas.Spaces
import ShadowOS.Proc.SchedulerTheorems

/-!
# The kernel's data in the pagemap of a new process
-/

namespace ShadowOS.Proc

open Mm

variable {k k' : Mm.State} {all free : List Frame} {lab : Labels} {r s : Frame}

/-! ## The addresses in the entries -/

theorem rangeFrames_aligned {dest src start size flags offset phys : U64} {fuel : Nat}
    (h : phys ∈ rangeFrames dest src start size flags fuel offset k) : phys.toNat % 4096 = 0 := by
  induction fuel generalizing offset k with
  | zero => exact absurd h List.not_mem_nil
  | succ fuel ih =>
      simp only [rangeFrames] at h
      split at h
      · split at h
        · rcases List.mem_cons.mp h with rfl | h
          · rw [virtToPhys_eq_leafEntry]
            exact and_addrMask_toNat _
          · exact ih h
        · exact ih h
      · exact absurd h List.not_mem_nil

/-- Only the address of the PCB is not looked up in the kernel's pagemap. -/
theorem spawnFrames_aligned_iff (k : Mm.State) (user : Bool) (pagemap proc procs : U64) :
    (∀ phys ∈ spawnFrames k user pagemap proc procs, phys.toNat % 4096 = 0) ↔ proc.toNat % 4096 = 0 := by
  constructor
  · exact fun h => h proc List.mem_cons_self
  · intro hproc phys hphys
    rcases List.mem_cons.mp hphys with rfl | hphys
    · exact hproc
    · rcases List.mem_append.mp hphys with h | h
      · exact rangeFrames_aligned h
      · exact rangeFrames_aligned h

/-! ## The pages -/

theorem pageNo_and_addrMask (v : U64) : pageNo (v &&& addrMask) = pageNo v := by
  have hmask : ∀ i < 36, addrMask.getLsbD (12 + i) = true := by decide
  apply BitVec.eq_of_getLsbD_eq
  intro i hi
  simp only [pageNo, BitVec.getLsbD_extractLsb', BitVec.getLsbD_and, hmask i hi, Bool.and_true]

theorem pageNo_stack_ne_zero {v : U64} (h : OnPages vmaStart 4 v) : pageNo v ≠ 0 := by
  obtain ⟨j, hj, hv⟩ := h
  have hne : ∀ j < 4, pageNo (vmaStart + BitVec.ofNat 64 j * pageSize) ≠ 0 := by decide
  rw [hv]
  exact hne j hj

theorem copied_of_stack {v : U64} (procs : U64) (h : OnPages vmaStart 4 v) : Copied procs v := by
  obtain ⟨j, hj, hv⟩ := h
  exact .inr ⟨j, by omega, hv⟩

namespace Roots

theorem shared_iff (hp : Roots k all free lab r s) (v : U64) :
    k.higherHalf r.1 = k.kernelPagemap ∨ SharesTable k (k.higherHalf r.1) k.kernelPagemap v ↔ Sees k.mem s r (ix v 39) := by
  rw [hp.kernel_eq, Owned.higherHalf_inj]
  by_cases hrs : s = r
  · simp only [hrs, true_or, Sees]
  · rw [sharesTable_iff hrs, or_iff_right (Ne.symm hrs)]

/-- Where an address ends up, read off the state before the stack is made. -/
theorem alike_iff {user : Bool} {vmaCtx stack proc procs : U64} (hp : Roots k all free lab r s)
    (hr0 : k.higherHalf r.1 ≠ 0) (hstack : Proc.spawnStack k user (k.higherHalf r.1) = some (vmaCtx, stack, k'))
    (hoom : (Proc.spawnMaps k' user (k.higherHalf r.1) proc procs).outOfMemory = false) (v : U64) :
    virtToPhys (Proc.spawnMaps k' user (k.higherHalf r.1) proc procs) (k.higherHalf r.1) v =
        virtToPhys (Proc.spawnMaps k' user (k.higherHalf r.1) proc procs)
          (Proc.spawnMaps k' user (k.higherHalf r.1) proc procs).kernelPagemap v ↔
      FoundAlike k (k.higherHalf r.1) proc procs v := by
  obtain ⟨_, free', _, hp₁, hg₁, _, hpage, T, hm₁, hT⟩ := hp.spawnStack hr0 hstack (spawnMaps_oom hoom)
  rw [← hg₁.higherHalf] at hoom ⊢
  obtain ⟨k₂, he₂, hg₂, hm₂⟩ := hp₁.spawnMaps user proc procs hoom
  have hkernel : k₂.kernelPagemap = k₂.higherHalf s.1 := by
    rw [hg₂.kernel, hp₁.kernel_eq, hg₂.higherHalf]
  have hm := hm₁.trans hm₂
  rw [he₂, hkernel, ← hg₂.higherHalf, virtToPhys_eq, virtToPhys_eq, FoundAlike, ← or_assoc, hg₂.higherHalf, hg₁.higherHalf,
    hp.shared_iff, hp.kernel_eq, virtToPhys_eq, virtToPhys_eq]
  by_cases hsees : Sees k.mem s r (ix v 39)
  · have hsame := translation_of_sees ((hm.sees _).mpr hsees)
    exact ⟨fun _ => .inl hsees, fun _ => hsame.symm⟩
  · rw [or_iff_right hsees, hm.kernel hsees, hm.own hsees, hm₁.kernel hsees, hm₁.own hsees]
    by_cases hc : Copied procs v ∧ translation k.mem s v ≠ 0
    · rw [if_pos hc]
      exact ⟨fun _ => .inl hc, fun _ => rfl⟩
    · rw [if_neg hc, or_iff_right hc]
      by_cases hst : OnPages vmaStart 4 v
      · -- a page of the stack that the kernel does not have
        have hz : translation k.mem s v = 0 := by
          by_contra hne
          exact hc ⟨copied_of_stack procs hst, hne⟩
        refine ⟨fun he => absurd (he.trans hz) ?_, fun h => absurd hst h.1⟩
        split
        · intro hmask
          rename_i hno
          have hpz := pageNo_and_addrMask proc
          rw [hmask, ← hno] at hpz
          exact pageNo_stack_ne_zero hst hpz.symm
        · obtain ⟨d, hd, hdv⟩ := hpage hst
          rw [← hm₁.own hsees, hdv]
          exact hp.owned.stack.nonzero d (hp.owned.stack.sub hd)
      · rw [hT hst]
        by_cases hno : pageNo v = pageNo proc
        · simp only [hno, ↓reduceIte, hst, not_false_eq_true, true_and, forall_const, ne_eq, not_true_eq_false,
            false_implies, and_true]
        · simp only [hno, ↓reduceIte, hst, not_false_eq_true, true_and, false_implies, ne_eq, forall_const]

end Roots

/-- A new process finds the kernel's data where the kernel has it exactly if the PCB is at the start of a page, and the
pages of the PCB and of the table of processes are all copied, or were right before. -/
theorem spawn_maps_kernel_data_iff {H : Type} {A : Allocator H} {k k' : Kernel H} {all free : List Frame} {lab : Labels}
    {r s : Frame} {user : Bool} {proc : U64} {mm : Mm.State} {heap : H} {pm entry pid : U64}
    (hkm : A.kmalloc k.mm k.heap pcbSize = (proc, mm, heap)) (hproc : proc ≠ 0) (hown : Owned mm all free lab)
    (hr : lab r = some (r, [])) (hs : lab s = some (s, [])) (hk : mm.kernelPagemap = mm.higherHalf s.1)
    (hpm : pm = mm.higherHalf r.1) (hpm0 : pm ≠ 0) (hspawn : schedulerSpawn A k user entry pm = .ok (pid, k'))
    (hoom : k'.mm.outOfMemory = false) :
    MapsKernelData A user pm k k' ↔
      proc.toNat % 4096 = 0 ∧ FoundAlike mm pm proc k.procs proc ∧
        ∀ j < 8 * procMaxProcs, FoundAlike mm pm proc k.procs (k.procs + BitVec.ofNat 64 j) := by
  rcases schedulerSpawn_cases hkm hspawn with ⟨h0, _⟩ | ⟨_, _, vmaCtx, stack, mm', pcb, hstack, _, rfl⟩
  · exact absurd h0 hproc
  · subst hpm
    have halike := Roots.alike_iff ⟨hown, hr, hs, hk⟩ hpm0 hstack hoom
    constructor
    · intro h
      refine ⟨?_, ?_, fun j hj => ?_⟩
      · have hframes := h.frames (by rw [hkm]; exact hstack)
        rw [hkm] at hframes
        exact (spawnFrames_aligned_iff _ _ _ _ _).mp hframes
      · have hpcb := h.pcb
        rw [hkm] at hpcb
        exact (halike proc).mp hpcb
      · exact (halike _).mp (h.table j hj)
    · rintro ⟨haligned, hpcb, htable⟩
      refine ⟨?_, fun j hj => (halike _).mpr (htable j hj), fun _ => ?_⟩
      · rw [hkm]
        exact (halike proc).mpr hpcb
      · rw [hkm]
        exact (spawnFrames_aligned_iff _ _ _ _ _).mpr haligned

/-- A kernel with five pages of heap, and one behind the sixteen that are copied. -/
def sampleData : Mm.State :=
  ([0x1000, 0x2000, 0x3000, 0x4000, 0x5000, 0x11000].map fun v => VmmOp.map v (0x200000 + v) 3).foldl
    (VmmOp.apply sampleRoot.kernelPagemap) sampleRoot

/-- A new pagemap, and the kernel with the first free byte of its heap. -/
def sampleSpace (heap : U64) : U64 × Kernel U64 :=
  let (pm, mm) := vmmNewPagemap sampleData
  (pm, { sampleProcs with mm := mm, heap := heap, procs := 0x1000 })

/-- The two spawns of the samples below, evaluated together. -/
theorem sampleSpace_eval :
    (sampleData.outOfMemory = false ∧ sampleData.kernelPagemap ≠ 0 ∧
      (pmmRequestPage sampleData).2.outOfMemory = false) ∧
    ((schedulerSpawn bumpAllocator (sampleSpace 0x5000).2 true 0x400000 (sampleSpace 0x5000).1).toOption.any
        (fun res => !res.2.mm.outOfMemory) = true ∧
      [0x1000, 0x2000, 0x3000, 0x4000, 0x5000].all (fun v =>
        virtToPhys (vmmNewPagemap sampleData).2 (vmmNewPagemap sampleData).2.kernelPagemap v != 0) = true ∧
      (sampleSpace 0x5000).1 ≠ 0) ∧
    (schedulerSpawn bumpAllocator (sampleSpace 0x11040).2 true 0x400000 (sampleSpace 0x11040).1).toOption.any
      (fun res => !res.2.mm.outOfMemory && virtToPhys res.2.mm (sampleSpace 0x11040).1 0x11040 == 0x11000 &&
        virtToPhys res.2.mm res.2.mm.kernelPagemap 0x11040 == 0x211000) = true := by
  decide +kernel

theorem sampleData_owned : ∃ all free lab s, Owned sampleData all free lab ∧ lab s = some (s, []) ∧
    sampleData.kernelPagemap = sampleData.higherHalf s.1 := by
  obtain ⟨all, free, lab, s, ho, hs, hk, hzero⟩ := sampleRoot_owned
  obtain ⟨⟨hoom, _⟩, _⟩ := sampleSpace_eval
  obtain ⟨free', lab', ho', hg, _⟩ := VmmOp.foldl_look ho hs hk.symm hzero hoom
  refine ⟨all, free', lab', s, ho', hg.keep hs, ?_⟩
  rw [sampleData, hg.globals.higherHalf, hg.globals.kernel, hk]

theorem spawn_maps_kernel_data_iff_sample :
    ∃ pid k', schedulerSpawn bumpAllocator (sampleSpace 0x5000).2 true 0x400000 (sampleSpace 0x5000).1 = .ok (pid, k') ∧
      MapsKernelData bumpAllocator true (sampleSpace 0x5000).1 (sampleSpace 0x5000).2 k' := by
  obtain ⟨all, free, lab, s, ho, hs, hk⟩ := sampleData_owned
  obtain ⟨⟨_, hk0, hframe⟩, ⟨hrun, hpages, hpm0⟩, _⟩ := sampleSpace_eval
  obtain ⟨mm, free', r, _, hnew, ho', hg, hr, _⟩ := ho.vmmNewPagemap hs hk hk0 (.inr hframe)
  have hsr : s ≠ r := by
    rintro rfl
    rw [hr] at hs
    cases hs
  have hspace : sampleSpace 0x5000 = (mm.higherHalf r.1, { sampleProcs with mm := mm, heap := 0x5000, procs := 0x1000 }) := by
    rw [sampleSpace, hnew]
  have hkernel : mm.kernelPagemap = mm.higherHalf s.1 := by
    rw [hg.kernel, hk, hg.higherHalf]
  rw [hspace] at hrun hpm0 ⊢
  rw [hnew] at hpages
  obtain ⟨res, hspawn, hoom⟩ := ok_of_any hrun
  rw [Bool.not_eq_true'] at hoom
  have hkm : bumpAllocator.kmalloc mm 0x5000 pcbSize = (0x5000, mm, 0x5000 + pcbSize) := rfl
  have hmapped : ∀ v ∈ [0x1000, 0x2000, 0x3000, 0x4000, 0x5000], virtToPhys mm mm.kernelPagemap v ≠ 0 := by
    simpa using hpages
  refine ⟨res.1, res.2, hspawn, (spawn_maps_kernel_data_iff hkm (by decide) ho' (by simp) (by simp [hsr, hs]) hkernel rfl hpm0
    hspawn hoom).mpr ⟨by decide, ?_, fun j hj => ?_⟩⟩
  · exact .inr (.inr (.inl ⟨.inr (by decide), hmapped _ (by simp)⟩))
  · replace hj : j < 16384 := hj
    have hj' : j / 4096 < 4 := by omega
    have hno : pageNo (0x1000 + BitVec.ofNat 64 j) = pageNo (0x1000 + BitVec.ofNat 64 (j / 4096) * pageSize) := by
      have hstart : (0x1000 : U64).toNat = 4096 := rfl
      have hpage : pageSize.toNat = 4096 := rfl
      rw [← BitVec.toNat_inj, pageNo_toNat, pageNo_toNat, BitVec.toNat_add, BitVec.toNat_add, BitVec.toNat_mul, hstart,
        hpage, BitVec.toNat_ofNat, BitVec.toNat_ofNat]
      omega
    refine .inr (.inr (.inl ⟨.inl ⟨j / 4096, hj', hno⟩, ?_⟩))
    rw [hkernel, virtToPhys_eq, translation_congr hno, ← virtToPhys_eq, ← hkernel]
    have hstarts : ∀ i < 4, 0x1000 + BitVec.ofNat 64 i * pageSize ∈ [0x1000, 0x2000, 0x3000, 0x4000, 0x5000] := by decide
    exact hmapped _ (hstarts _ hj')

/-- A PCB that begins inside a page, behind the pages that are copied: its own address is taken for that of a frame. -/
theorem spawn_misplaces_pcb :
    ∃ pid k', schedulerSpawn bumpAllocator (sampleSpace 0x11040).2 true 0x400000 (sampleSpace 0x11040).1 = .ok (pid, k') ∧
      k'.mm.outOfMemory = false ∧
      ¬ MapsKernelData bumpAllocator true (sampleSpace 0x11040).1 (sampleSpace 0x11040).2 k' := by
  obtain ⟨_, _, hrun⟩ := sampleSpace_eval
  obtain ⟨res, hspawn, hres⟩ := ok_of_any hrun
  simp only [Bool.and_eq_true, Bool.not_eq_true', beq_iff_eq] at hres
  obtain ⟨⟨hoom, hown⟩, hkernel⟩ := hres
  have hheap : (sampleSpace 0x11040).2.heap = 0x11040 := by rw [sampleSpace]
  have hbump : ∀ mm, (bumpAllocator.kmalloc mm 0x11040 pcbSize).1 = 0x11040 := fun _ => rfl
  refine ⟨res.1, res.2, hspawn, hoom, fun h => ?_⟩
  have hpcb := h.pcb
  rw [hheap, hbump, hown, hkernel] at hpcb
  exact absurd hpcb (by decide)

end ShadowOS.Proc
