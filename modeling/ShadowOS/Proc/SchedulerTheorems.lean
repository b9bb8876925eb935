import ShadowOS.Proc.Lemmas.Scheduler
import ShadowOS.Proc.Lemmas.Spawn
import ShadowOS.Proc.Theorems

/-!
# Theorems about the scheduler
-/

namespace ShadowOS.Proc

open Mm

/-! ## A machine -/

/-- A heap that goes up from an address and takes nothing back. -/
def bumpAllocator : Allocator U64 where
  kmalloc mm heap n := if heap < heap + n then (heap, mm, heap + n) else (0, mm, heap)
  kcalloc mm heap n size := if heap < heap + n * size then (heap, mm, heap + n * size) else (0, mm, heap)
  kfree mm heap _ := (mm, heap)

theorem bumpAllocator_spec : AllocatorSpec bumpAllocator (fun heap => {p | p < heap}) := by
  refine ⟨fun mm heap n h => ?_, fun mm heap n h => ?_, fun mm heap n p hp => ?_, fun _ _ _ _ hp => hp.1⟩
  · simp only [bumpAllocator] at h ⊢
    split at h
    · simp [*]
    · exact absurd rfl h
  · simp only [bumpAllocator] at h ⊢
    split at h
    · simp [*]
    · exact absurd rfl h
  · simp only [bumpAllocator]
    split
    · exact BitVec.lt_trans hp ‹_›
    · exact hp

def machineMemmap : List MemmapEntry := [⟨0x100000, 0x28000, .usable⟩]

/-- A kernel with an empty pagemap. -/
def sampleRoot : Mm.State :=
  let boot := State.boot (fun _ => 0) sampleOffset
  let (page, k) := pmmRequestPage ((pmmInit (some machineMemmap) boot).getD boot)
  { k with kernelPagemap := k.higherHalf page }

def sampleMachine : Mm.State := [(), (), ()].foldl (fun k _ => (vmmNewPagemap k).2) sampleRoot

/-- Three pagemaps, the globals of the scheduler as they are at boot, and control blocks that hold zeros. -/
def sampleProcs : Kernel U64 where
  mm := sampleMachine
  heap := 0x1000
  pcbs := fun _ => ⟨⟨fun _ => 0, 0, 0, 0, 0, 0⟩, 0, .ready, 0, 0, fun _ => 0, 0, 0, 0, 0, 0, false⟩
  procs := 0
  table := fun _ => 0
  count := 0
  currentPid := 0
  locked := false
  stdout := 0xffff800000001000

def samplePagemap (i : U64) : U64 := 0x124000 + i * pageSize + sampleOffset

def sampleSpawn (i : U64) : SchedOp := .spawn true 0x400000 (samplePagemap i)

def sampleTick : SchedOp := .tick ⟨fun _ => 0, 0, 0, 0, 0, 0⟩

/-! ## Pids -/

section Runs

variable {H : Type} {A : Allocator H} {inUse : H → Set U64} {k₀ : Kernel H} {ops : List SchedOp}

/-- No process is lost in a run that spawns only while the number of processes is not the pid of one of them. -/
theorem scheduler_keeps_processes (hA : AllocatorSpec A inUse) (hboot : k₀.Boot)
    (hinit : (schedulerInit A k₀).procs ≠ 0)
    (hfew : AllSteps (SchedOp.exec A) SchedOp.Few (schedulerInit A k₀, []) ops)
    (hnew : AllSteps (SchedOp.exec A) SchedOp.NewPid (schedulerInit A k₀, []) ops) :
    AllStates (SchedOp.exec A) NoneLost (schedulerInit A k₀, []) ops := by
  have hinv : AllStates (SchedOp.exec A) (fun s => SchedInv inUse s.1 s.2) (schedulerInit A k₀, []) ops := by
    refine (hfew.and hnew).allStates (fun h hc he => ?_) (SchedInv.init hboot hinit)
    exact h.step _ hA hc.1 hc.2 he
  exact hinv.mono fun s h => h.noneLost

/-- The runs of the samples below, evaluated together. -/
theorem sampleRuns_eval :
    let start := (schedulerInit bumpAllocator sampleProcs, ([] : List Process))
    let kept := [sampleSpawn 0, sampleTick, sampleSpawn 1, sampleTick, .exit]
    let lost := [sampleSpawn 0, sampleSpawn 1, .exit, sampleSpawn 2]
    let next := [sampleSpawn 0, sampleSpawn 1, sampleTick, sampleTick, .exit, sampleTick]
    start.1.procs ≠ 0 ∧
      ((run (SchedOp.exec bumpAllocator) start kept).isSome = true ∧
        AllSteps (SchedOp.exec bumpAllocator) SchedOp.Few start kept ∧
        AllSteps (SchedOp.exec bumpAllocator) SchedOp.NewPid start kept) ∧
      (AllSteps (SchedOp.exec bumpAllocator) SchedOp.Few start lost ∧
        ¬ AllStates (SchedOp.exec bumpAllocator) NoneLost start lost) ∧
      ((run (SchedOp.exec bumpAllocator) start next).any (fun s => s.2.length == 1) = true ∧
        AllSteps (SchedOp.exec bumpAllocator) SchedOp.LastExits start next) ∧
      (run (SchedOp.exec bumpAllocator) start [sampleSpawn 0, sampleSpawn 1, .exit]).any (fun s => s.2.length == 1 &&
        !s.1.locked && s.1.count != 0 && s.1.table s.1.currentPid.toNat == 0) = true := by
  decide +kernel

theorem scheduler_keeps_processes_sample :
    let ops := [sampleSpawn 0, sampleTick, sampleSpawn 1, sampleTick, .exit]
    (run (SchedOp.exec bumpAllocator) (schedulerInit bumpAllocator sampleProcs, []) ops).isSome = true ∧
      AllStates (SchedOp.exec bumpAllocator) NoneLost (schedulerInit bumpAllocator sampleProcs, []) ops := by
  obtain ⟨hinit, ⟨hrun, hfew, hnew⟩, _⟩ := sampleRuns_eval
  exact ⟨hrun, scheduler_keeps_processes bumpAllocator_spec ⟨rfl, rfl, rfl⟩ hinit hfew hnew⟩

/-- After the first of two processes exits, a new one gets the pid of the second. -/
theorem scheduler_loses_process :
    let ops := [sampleSpawn 0, sampleSpawn 1, .exit, sampleSpawn 2]
    AllSteps (SchedOp.exec bumpAllocator) SchedOp.Few (schedulerInit bumpAllocator sampleProcs, []) ops ∧
      ¬ AllStates (SchedOp.exec bumpAllocator) NoneLost (schedulerInit bumpAllocator sampleProcs, []) ops := by
  obtain ⟨_, _, hlost, _⟩ := sampleRuns_eval
  exact hlost

/-! ## Someone to run -/

/-- There is always a process to run if only the process with the highest pid ever exits. -/
theorem scheduler_has_next (hA : AllocatorSpec A inUse) (hboot : k₀.Boot) (hinit : (schedulerInit A k₀).procs ≠ 0)
    (hlast : AllSteps (SchedOp.exec A) SchedOp.LastExits (schedulerInit A k₀, []) ops) :
    AllStates (SchedOp.exec A) SomeoneToRun (schedulerInit A k₀, []) ops := by
  have hdense : AllStates (SchedOp.exec A) (Dense inUse) (schedulerInit A k₀, []) ops :=
    hlast.allStates (fun h hc he => h.step hA hc he) (Dense.init hboot hinit)
  exact hdense.mono fun s h => h.someoneToRun

theorem scheduler_has_next_sample :
    let ops := [sampleSpawn 0, sampleSpawn 1, sampleTick, sampleTick, .exit, sampleTick]
    (run (SchedOp.exec bumpAllocator) (schedulerInit bumpAllocator sampleProcs, []) ops).any (fun s =>
        s.2.length == 1) = true ∧
      AllStates (SchedOp.exec bumpAllocator) SomeoneToRun (schedulerInit bumpAllocator sampleProcs, []) ops := by
  obtain ⟨hinit, _, _, ⟨hrun, hlast⟩, _⟩ := sampleRuns_eval
  exact ⟨hrun, scheduler_has_next bumpAllocator_spec ⟨rfl, rfl, rfl⟩ hinit hlast⟩

/-- After the first of two processes exits, the current entry is empty and the next tick halts the machine. -/
theorem scheduler_has_no_next :
    ∃ s, run (SchedOp.exec bumpAllocator) (schedulerInit bumpAllocator sampleProcs, [])
      [sampleSpawn 0, sampleSpawn 1, .exit] = some s ∧ s.2.length = 1 ∧ ¬ SomeoneToRun s := by
  obtain ⟨_, _, _, _, hend⟩ := sampleRuns_eval
  obtain ⟨⟨k, live⟩, hs, hend⟩ := Option.any_eq_true _ _ |>.mp hend
  simp only [Bool.and_eq_true, beq_iff_eq, Bool.not_eq_true', bne_iff_ne] at hend
  obtain ⟨⟨⟨hlen, hlock⟩, hcount⟩, hcur⟩ := hend
  replace hcount : ¬ k.count = 0#64 := hcount
  refine ⟨_, hs, hlen, fun h => h.2 ⟨fun _ => 0, 0, 0, 0, 0, 0⟩ ?_⟩
  simp [schedulerTick, tickCurrent, tickNext, hlock, hcount, hcur]

end Runs

/-! ## The stack and the heap -/

/-- A spawn always maps the first page of the kernel's heap over the first page of the new stack. -/
theorem spawn_takes_stack {H : Type} {A : Allocator H} {k₀ k₁ : Mm.State} {k k' : Kernel H} {all free : List Frame}
    {lab : Labels} {s h : Frame} {image : Mem} {user : Bool} {pm start entry pid : U64} (hA : KmallocSpec A)
    (hown : Owned k₀ all free lab) (hs : lab s = some (s, [])) (hk : k₀.kernelPagemap = k₀.higherHalf s.1)
    (hk0 : k₀.kernelPagemap ≠ 0) (hheap : virtToPhys k₀ k₀.kernelPagemap vmaStart = h.1) (hheld : Held all free lab h)
    (hnew : vmmNewPagemap k₀ = (pm, k₁)) (hload : elfLoadBinary k₁ image pm = (start, k.mm)) (hstart : start ≠ 0)
    (hspawn : schedulerSpawn A k user entry pm = .ok (pid, k')) (hproc : (A.kmalloc k.mm k.heap pcbSize).1 ≠ 0)
    (hoom : k'.mm.outOfMemory = false) : ¬ KeepsMappings A image user pm k k' := by
  rcases hkm : A.kmalloc k.mm k.heap pcbSize with ⟨proc, mm, heap⟩
  rw [hkm] at hproc
  rcases schedulerSpawn_cases hkm hspawn with ⟨h0, _⟩ | ⟨_, _, vmaCtx, stack, mm', pcb, hstack, _, rfl⟩
  · exact absurd h0 hproc
  · simp only at hoom
    -- nothing ran out of frames on the way
    have hoom₄ := spawnMaps_oom hoom
    have hoom₃ : (A.kmalloc k.mm k.heap pcbSize).2.1.outOfMemory = false := by
      rw [hkm]
      exact spawnStack_oom hstack hoom₄
    have hoom₂ := hA.oom _ _ _ hoom₃
    rw [hk, virtToPhys_eq] at hheap
    obtain ⟨_, _, r, rfl, hb₁⟩ := Beside.create hown hs hk hk0 hheap hheld hnew
      (elfLoadBinary_oom hload hstart hoom₂)
    obtain ⟨_, _, hb₂, hg₂⟩ := hb₁.elfLoad hload hstart hoom₂
    obtain ⟨_, _, h', hb₃, hg₃⟩ := hA.beside hb₂ hoom₃
    rw [hkm] at hb₃ hg₃
    rw [← hg₂.higherHalf, ← hg₃.higherHalf] at hstack
    obtain ⟨rfl, _, _, hb₄, hg₄, hne⟩ := hb₃.spawnStack hstack hoom₄
    have hpm : k₁.higherHalf r.1 = mm'.higherHalf r.1 := by
      rw [hg₄.higherHalf, hg₃.higherHalf, hg₂.higherHalf]
    rw [hg₃.higherHalf, hg₂.higherHalf] at hstack
    rw [hpm] at hoom hstack
    obtain ⟨mm₅, he₅, hg₅, hl₅⟩ := hb₄.spawnMaps user proc k.procs hoom
    intro hkeep
    have hsame := hkeep.stack (by rw [hkm, hpm]; exact hstack) 0 (by decide)
    rw [hpm] at hsame
    simp only [he₅] at hsame
    rw [virtToPhys_eq, ← hg₅.higherHalf, virtToPhys_eq] at hsame
    exact hne (hsame.symm.trans hl₅)

theorem machineMemmap_boot : BootMap machineMemmap sampleOffset := by
  have hsize : arraySize machineMemmap = 0x1000 := by decide
  refine ⟨by decide, by decide, by decide, by simp [machineMemmap], ?_, ⟨_, .head _, rfl, by rw [hsize]; decide⟩, ?_⟩
  · simp [machineMemmap, MemmapEntry.Contains]
  · simp only [machineMemmap, sampleOffset, MemmapEntry.Contains, List.forall_mem_cons, List.not_mem_nil, false_implies,
      implies_true, and_true, forall_true_left]
    intro p hp
    simp only [BitVec.toNat_ofNat, BitVec.ofNat_eq_ofNat] at hp
    bv_omega

theorem sampleRoot_owned : ∃ all free lab s, Owned sampleRoot all free lab ∧ lab s = some (s, []) ∧
    sampleRoot.kernelPagemap = sampleRoot.higherHalf s.1 ∧
    ∀ v, pte.look sampleRoot.mem.word s (path v) (ix v 12) = 0 := by
  obtain ⟨k₁, _, hinit, _⟩ := machineMemmap_boot.pmmInit (k := State.boot (fun _ => 0) sampleOffset) rfl
  have hk : sampleRoot = { (pmmRequestPage k₁).2 with
      kernelPagemap := (pmmRequestPage k₁).2.higherHalf (pmmRequestPage k₁).1 } := by
    rw [sampleRoot, hinit, Option.getD_some]
  have hpage : (pmmRequestPage k₁).1 ≠ 0 := by
    have hne : (pmmRequestPage ((pmmInit (some machineMemmap) (State.boot (fun _ => 0) sampleOffset)).getD
        (State.boot (fun _ => 0) sampleOffset))).1 ≠ 0 := by decide
    rwa [hinit, Option.getD_some] at hne
  obtain ⟨all, free, s, hs, hr⟩ := machineMemmap_boot.freshRoot (k := State.boot (fun _ => 0) sampleOffset) rfl hinit
    (by decide) hpage
  have ho := hr.owned
  rw [hk, ← hs]
  exact ⟨all, free, _, s, ⟨⟨ho.stack.sub, ho.stack.nodup, ho.stack.all_nodup, ho.stack.idx, ho.stack.max, ho.stack.slot,
    ho.stack.valid, ho.stack.nonzero, ho.stack.mapped, ho.stack.array, ho.stack.fits, ho.stack.apart⟩, ho.tables, ho.small,
    ho.held⟩, by simp, rfl, hr.look_zero⟩

/-- A kernel with a heap of one page. -/
def sampleHeap : Mm.State :=
  let (ctx, k) := vmaCreateContext sampleRoot sampleRoot.kernelPagemap
  ((vmaAlloc k ctx 1 3).map Prod.snd).getD k

theorem sampleHeap_owned : ∃ all free lab s h, Owned sampleHeap all free lab ∧ lab s = some (s, []) ∧
    sampleHeap.kernelPagemap = sampleHeap.higherHalf s.1 ∧
    virtToPhys sampleHeap sampleHeap.kernelPagemap vmaStart = h.1 ∧ Held all free lab h := by
  obtain ⟨all, free, lab, s, ho, hs, hk, _⟩ := sampleRoot_owned
  obtain ⟨hk0, hoom, hsome⟩ : sampleRoot.kernelPagemap ≠ 0 ∧ sampleHeap.outOfMemory = false ∧
      (vmaAlloc (vmaCreateContext sampleRoot sampleRoot.kernelPagemap).2
        (vmaCreateContext sampleRoot sampleRoot.kernelPagemap).1 1 3).isSome = true := by decide
  rcases hcreate : vmaCreateContext sampleRoot sampleRoot.kernelPagemap with ⟨ctx, k₁⟩
  have hheap : sampleHeap = ((vmaAlloc k₁ ctx 1 3).map Prod.snd).getD k₁ := by rw [sampleHeap, hcreate]
  rw [hcreate] at hsome
  obtain ⟨⟨ptr, k₂⟩, halloc⟩ := Option.isSome_iff_exists.mp hsome
  rw [halloc] at hheap
  simp only [Option.map_some, Option.getD_some] at hheap
  rw [hheap] at hoom ⊢
  rw [hk] at hk0 hcreate
  obtain ⟨free₁, c, a, hl, hsize, hnext, hg₁, _⟩ := ho.vmaCreateContext hs hk0 hcreate (vmaAlloc_oom halloc hoom)
  rw [← hl.ctx_eq] at halloc
  obtain ⟨b, free₂, free', lab', hptr, _, _, _, ho', hg, _, _, _, _, _, hload⟩ := hl.owned.vmaAlloc hl.pm hl.pm0
    hl.ctxHeld hl.held hl.held hl.ne hl.pagemap hl.root (hl.findGap_idle hnext) halloc (.inr hoom)
  obtain ⟨h, hd, _, hheld⟩ := (hload (by decide)).page (v := vmaStart)
    ⟨0, le_rfl, by decide, by rw [hptr, hl.start, hsize, pageAt_zero]; rfl⟩
  have hk' : k₂.kernelPagemap = k₂.higherHalf s.1 := by
    rw [hg.globals.kernel, hg₁.globals.kernel, hk, hg.globals.higherHalf]
    exact (hg₁.globals.higherHalf s.1).symm
  refine ⟨all, free', lab', s, h, ho', hg.keep hs, hk', ?_, hheld⟩
  rw [hk', virtToPhys_eq, hd]

theorem bumpAllocator_kmalloc : KmallocSpec bumpAllocator := by
  have hmm : ∀ k heap n, (bumpAllocator.kmalloc k heap n).2.1 = k := by
    intro k heap n
    simp only [bumpAllocator]
    split
    · rfl
    · rfl
  refine ⟨fun k heap n hoom => ?_, fun {k heap n all free lab r s h} hb _ => ?_⟩
  · rwa [hmm] at hoom
  · rw [hmm]
    exact ⟨free, lab, h, hb, .refl k⟩

/-- A kernel with a heap that has loaded a program into a new pagemap. -/
def sampleLoaded : U64 × U64 × Kernel U64 :=
  let (pm, mm) := vmmNewPagemap sampleHeap
  let (start, mm) := elfLoadBinary mm (sampleImage 0x400000 2 16) pm
  (pm, start, { sampleProcs with mm := mm, heap := 0x1040, procs := 0x1000 })

/-- The spawn of the samples below, evaluated once: the frames last, and the first page of the stack, which had a frame of its
own, ends up with a frame of the kernel's heap. -/
theorem sampleLoaded_eval :
    let pm := sampleLoaded.1
    let k := sampleLoaded.2.2
    sampleHeap.kernelPagemap ≠ 0 ∧ sampleLoaded.2.1 ≠ 0 ∧ (bumpAllocator.kmalloc k.mm k.heap pcbSize).1 ≠ 0 ∧
    (schedulerSpawn bumpAllocator k true 0x400000 pm).toOption.any (fun res => !res.2.mm.outOfMemory) = true ∧
    (schedulerSpawn bumpAllocator k true 0x400000 pm).toOption.any (fun res =>
      !res.2.mm.outOfMemory &&
        virtToPhys res.2.mm pm 0x1000 == virtToPhys res.2.mm res.2.mm.kernelPagemap 0x1000 &&
        (spawnStack (bumpAllocator.kmalloc k.mm k.heap pcbSize).2.1 true pm).any (fun (_, stack, mm) =>
          stack == 0x1000 && virtToPhys mm pm 0x1000 != virtToPhys res.2.mm pm 0x1000)) = true := by
  decide +kernel

theorem spawn_takes_stack_sample :
    ∃ pid k', schedulerSpawn bumpAllocator sampleLoaded.2.2 true 0x400000 sampleLoaded.1 = .ok (pid, k') ∧
      ¬ KeepsMappings bumpAllocator (sampleImage 0x400000 2 16) true sampleLoaded.1 sampleLoaded.2.2 k' := by
  obtain ⟨all, free, lab, s, h, ho, hs, hk, hheap, hheld⟩ := sampleHeap_owned
  obtain ⟨hk0, hstart, hproc, hrun, _⟩ := sampleLoaded_eval
  obtain ⟨res, hspawn, hoom⟩ := ok_of_any hrun
  rw [Bool.not_eq_true'] at hoom
  exact ⟨res.1, res.2, hspawn, spawn_takes_stack bumpAllocator_kmalloc ho hs hk hk0 hheap hheld rfl rfl hstart
    hspawn hproc hoom⟩

/-- The first page of the stack, which had a frame of its own, ends up with a frame of the kernel's heap. -/
theorem spawn_stack_is_heap :
    let pm := sampleLoaded.1
    let k := sampleLoaded.2.2
    (schedulerSpawn bumpAllocator k true 0x400000 pm).toOption.any (fun res =>
      !res.2.mm.outOfMemory &&
        virtToPhys res.2.mm pm 0x1000 == virtToPhys res.2.mm res.2.mm.kernelPagemap 0x1000 &&
        (spawnStack (bumpAllocator.kmalloc k.mm k.heap pcbSize).2.1 true pm).any (fun (_, stack, mm) =>
          stack == 0x1000 && virtToPhys mm pm 0x1000 != virtToPhys res.2.mm pm 0x1000)) = true := by
  obtain ⟨_, _, _, _, htaken⟩ := sampleLoaded_eval
  exact htaken

end ShadowOS.Proc
