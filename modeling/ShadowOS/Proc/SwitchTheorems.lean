import ShadowOS.Proc.Lemmas.Switch
import ShadowOS.Proc.SchedulerTheorems

/-!
# Theorems about context switches
-/

namespace ShadowOS.Proc

open Mm

variable {H : Type} {A : Allocator H} {inUse : H → Set U64} {k₀ : Kernel H} {ops : List SwitchOp}

theorem switching_run (hA : AllocatorSpec A inUse) (hboot : k₀.Boot) (hinit : (schedulerInit A k₀).procs ≠ 0)
    (last : U64 → RegisterCtx) : AllStates (SwitchOp.exec A) (fun s => ∃ n blocks, Switching inUse n blocks s.1 s.2)
      (schedulerInit A k₀, last) ops :=
  allStates_of_invariant (fun h he => Switching.step hA h he) ⟨_, _, Switching.init hboot hinit last⟩

/-- Two processes that take turns, with a tick during a system call. -/
def sampleSwitches : List SwitchOp :=
  [.sched (sampleSpawn 0), .sched (sampleSpawn 1), .sched sampleTick, .sched (.tick ⟨fun _ => 1, 2, 3, 4, 5, 6⟩),
    .flag 0x7130 true, .sched (.tick ⟨fun _ => 7, 7, 7, 7, 7, 7⟩), .flag 0x7130 false, .sched sampleTick, .sched .exit]

/-- Whatever is spawned over and whoever exits, the entries of the table stay in order: at most the current process runs. -/
theorem scheduler_one_running (hA : AllocatorSpec A inUse) (hboot : k₀.Boot) (hinit : (schedulerInit A k₀).procs ≠ 0)
    (last : U64 → RegisterCtx) :
    AllStates (SwitchOp.exec A) (fun s => OneRunning s.1) (schedulerInit A k₀, last) ops :=
  (switching_run hA hboot hinit last).mono fun _ ⟨_, _, h⟩ => h.oneRunning

theorem scheduler_one_running_sample :
    (run (SwitchOp.exec bumpAllocator) (schedulerInit bumpAllocator sampleProcs, fun _ => ⟨fun _ => 0, 0, 0, 0, 0, 0⟩)
      sampleSwitches).any (fun s => s.1.count == 1) = true ∧
    AllStates (SwitchOp.exec bumpAllocator) (fun s => OneRunning s.1)
      (schedulerInit bumpAllocator sampleProcs, fun _ => ⟨fun _ => 0, 0, 0, 0, 0, 0⟩) sampleSwitches :=
  ⟨by decide +kernel, scheduler_one_running bumpAllocator_spec ⟨rfl, rfl, rfl⟩ (by decide +kernel) _⟩

/-- A process that gets the processor goes on where it was, on its own pagemap. -/
theorem scheduler_switches_lossless (hA : AllocatorSpec A inUse) (hboot : k₀.Boot)
    (hinit : (schedulerInit A k₀).procs ≠ 0) (last : U64 → RegisterCtx) :
    AllSteps (SwitchOp.exec A) SwitchOp.Lossless (schedulerInit A k₀, last) ops :=
  (switching_run hA hboot hinit last).allSteps Switching.lossless

theorem scheduler_switches_lossless_sample :
    (run (SwitchOp.exec bumpAllocator) (schedulerInit bumpAllocator sampleProcs, fun _ => ⟨fun _ => 0, 0, 0, 0, 0, 0⟩)
      sampleSwitches).any (fun s => s.2 0x5000 = ⟨fun _ => 1, 2, 3, 4, 5, 6⟩) = true ∧
    AllSteps (SwitchOp.exec bumpAllocator) SwitchOp.Lossless
      (schedulerInit bumpAllocator sampleProcs, fun _ => ⟨fun _ => 0, 0, 0, 0, 0, 0⟩) sampleSwitches :=
  ⟨by decide +kernel, scheduler_switches_lossless bumpAllocator_spec ⟨rfl, rfl, rfl⟩ (by decide +kernel) _⟩

end ShadowOS.Proc
