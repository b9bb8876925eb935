import ShadowOS.Mm.Vma

/-!
# The scheduler (`proc/scheduler.c`)

A table of pointers to process control blocks. The blocks and the table live on the kernel heap, and are given here as
objects beside the bytes of physical memory.
-/

namespace ShadowOS.Proc

open Mm

/-! ## Data -/

def procDefaultTime : U64 := 1
def procMaxProcs : Nat := 2048
def procMaxFds : Nat := 1024

inductive ProcessState where
  | ready
  | running
  | waiting
  | terminated
deriving DecidableEq, Repr

/-- The registers that the scheduler sets; the other 23 are only copied. -/
structure RegisterCtx where
  others : Fin 23 → U64
  rip : U64
  cs : U64
  rflags : U64
  rsp : U64
  ss : U64
deriving DecidableEq

/-- `fdTable` goes on past the end of the array with what follows it. -/
structure Pcb where
  ctx : RegisterCtx
  pid : U64
  state : ProcessState
  timeslice : U64
  pagemap : U64
  fdTable : Nat → U64
  fdCount : U64
  errno : U32
  uid : U64
  gid : U64
  vmaCtx : U64
  inSyscall : Bool

def pcbSize : U64 := 8496

/-- The heap: `kmalloc`, `kcalloc` and `kfree` with the data they keep. -/
structure Allocator (H : Type) where
  kmalloc : Mm.State → H → U64 → U64 × Mm.State × H
  kcalloc : Mm.State → H → U64 → U64 → U64 × Mm.State × H
  kfree : Mm.State → H → U64 → Mm.State × H

structure Kernel (H : Type) where
  mm : Mm.State
  heap : H
  /-- The control block at a pointer. -/
  pcbs : U64 → Pcb
  procs : U64
  /-- The entries `procs[i]`, and past the end of the table what follows it. -/
  table : Nat → U64
  count : U64
  currentPid : U64
  locked : Bool
  stdout : U64

/-- Where the machine stops: a failed assertion, a lock that is never released, or a walk that does not end. -/
inductive Stop where
  | nextProc
  | pagemap
  | node
  | lock
  | walk
deriving DecidableEq, Repr

variable {H : Type}

/-! ## Start -/

def schedulerInit (A : Allocator H) (k : Kernel H) : Kernel H :=
  let (procs, mm, heap) := A.kcalloc k.mm k.heap 8 (BitVec.ofNat 64 procMaxProcs)
  { k with
    mm := mm
    heap := heap
    procs := procs
    table := if procs = 0 then k.table else fun i => if i < procMaxProcs then 0 else k.table i }

def mapRange (dest src start size flags : U64) : Nat → U64 → Mm.State → Mm.State
  | 0, _, k => k
  | fuel + 1, offset, k =>
      if offset < size then
        let phys := virtToPhys k src (start + offset)
        let k := if phys ≠ 0 then vmmMap k dest (start + offset) phys flags else k
        mapRange dest src start size flags fuel (offset + pageSize) k
      else k

/-- An offset takes at most `2 ^ 52` values. -/
def mapRangeToPagemap (k : Mm.State) (dest src start size flags : U64) : Mm.State :=
  mapRange dest src start size flags (2 ^ 52) 0 k

def schedulerProcAddVnode (k : Kernel H) (pid node : U64) : Except Stop (U32 × Kernel H) :=
  if k.count ≤ pid ∨ k.table pid.toNat = 0 then .ok (-1, k)
  else if node = 0 then .error .node
  else
    let proc := k.table pid.toNat
    let pcb := k.pcbs proc
    if pcb.fdCount < BitVec.ofNat 64 procMaxFds then
      let pcb := { pcb with
        fdTable := Function.update pcb.fdTable pcb.fdCount.toNat node
        fdCount := pcb.fdCount + 1 }
      .ok ((pcb.fdCount - 1).setWidth 32, { k with pcbs := Function.update k.pcbs proc pcb })
    else .ok (-1, k)

/-- The loop that moves the `n` entries after `i` down by one. -/
def moveDown : Nat → Nat → (Nat → U64) → Nat → U64
  | 0, _, fdTable => fdTable
  | n + 1, i, fdTable => moveDown n (i + 1) (Function.update fdTable i (fdTable (i + 1)))

def schedulerProcRemoveVnode (k : Kernel H) (pid : U64) (fd : U32) : U32 × Kernel H :=
  if k.count ≤ pid ∨ k.table pid.toNat = 0 then (-2, k)
  else
    let proc := k.table pid.toNat
    let pcb := k.pcbs proc
    if fd.toInt < 0 ∨ (procMaxFds : Int) ≤ fd.toInt ∨ pcb.fdTable fd.toNat = 0 then (-1, k)
    else
      let last := pcb.fdCount - 1
      let fdTable := moveDown (last.toNat - fd.toNat) fd.toNat pcb.fdTable
      (0, { k with
        pcbs := Function.update k.pcbs proc { pcb with fdTable := Function.update fdTable last.toNat 0, fdCount := last } })

def mapFlags (user : Bool) : U64 :=
  let mapFlags := vmmPresent ||| vmmWrite
  if user then mapFlags ||| vmmUser else mapFlags

def stackSize : U64 := 4

/-- The context and the stack of a new process; `none` stands for a walk that does not end. -/
def spawnStack (k : Mm.State) (user : Bool) (pagemap : U64) : Option (U64 × U64 × Mm.State) := do
  let (vmaCtx, k) := vmaCreateContext k pagemap
  let (stack, k) ← vmaAlloc k vmaCtx stackSize (mapFlags user)
  return (vmaCtx, stack, k)

/-- The kernel data that a new process gets to see. -/
def spawnMaps (k : Mm.State) (user : Bool) (pagemap proc procs : U64) : Mm.State :=
  let k := vmmMap k pagemap proc proc (mapFlags user)
  let k := mapRangeToPagemap k pagemap k.kernelPagemap procs (8 * BitVec.ofNat 64 procMaxProcs) (mapFlags user)
  mapRangeToPagemap k pagemap k.kernelPagemap 0x1000 0x10000 (mapFlags user)

/-- The fields that a new process starts with. The others are what the heap block held before. -/
def newPcb (old : Pcb) (user : Bool) (pid entry pagemap vmaCtx stack : U64) : Pcb :=
  { old with
    ctx := { old.ctx with
      rip := entry
      cs := if user then 0x1B else 0x08
      ss := if user then 0x23 else 0x10
      rsp := stack + (pageSize * stackSize - 1)
      rflags := 0x202 }
    pid := pid
    state := .ready
    pagemap := pagemap
    vmaCtx := vmaCtx
    timeslice := procDefaultTime
    errno := 0
    uid := 0
    gid := 0
    inSyscall := false
    fdCount := 0
    fdTable := fun i => if i < procMaxFds then 0 else old.fdTable i }

def schedulerSpawn (A : Allocator H) (k : Kernel H) (user : Bool) (entry pagemap : U64) : Except Stop (U64 × Kernel H) :=
  let (proc, mm, heap) := A.kmalloc k.mm k.heap pcbSize
  if proc = 0 then .ok (-1, { k with mm := mm, heap := heap })
  else
    match spawnStack mm user pagemap with
    | none => .error .walk
    | some (vmaCtx, stack, mm) => do
        let pid := k.count
        let k := { k with
          mm := spawnMaps mm user pagemap proc k.procs
          heap := heap
          count := k.count + 1
          pcbs := Function.update k.pcbs proc (newPcb (k.pcbs proc) user pid entry pagemap vmaCtx stack)
          table := Function.update k.table pid.toNat proc }
        let (_, k) ← schedulerProcAddVnode k pid k.stdout
        .ok (pid, k)

/-! ## Ticks -/

/-- The part of a tick that concerns the process that was interrupted. -/
def tickCurrent (k : Kernel H) (ctx : RegisterCtx) : Kernel H :=
  let proc := k.table k.currentPid.toNat
  let pcb := k.pcbs proc
  if proc ≠ 0 ∧ pcb.state = .running ∧ pcb.inSyscall = false then
    let pcb := { pcb with ctx := ctx, timeslice := pcb.timeslice - 1 }
    if pcb.timeslice = 0 then
      { k with
        pcbs := Function.update k.pcbs proc { pcb with state := .ready, timeslice := procDefaultTime }
        currentPid := (k.currentPid + 1) % k.count }
    else { k with pcbs := Function.update k.pcbs proc pcb }
  else k

/-- The part of a tick that picks the process to run. -/
def tickNext (k : Kernel H) (ctx : RegisterCtx) : Except Stop (RegisterCtx × Kernel H) :=
  let nextProc := k.table k.currentPid.toNat
  if nextProc = 0 then .error .nextProc
  else
    let pcb := k.pcbs nextProc
    match pcb.state with
    | .ready =>
        if pcb.pagemap = 0 then .error .pagemap
        else
          .ok (pcb.ctx, { k with
            pcbs := Function.update k.pcbs nextProc { pcb with state := .running }
            mm := vmmSwitchPagemap k.mm pcb.pagemap
            locked := false })
    | .terminated =>
        let k := { k with table := Function.update k.table pcb.pid.toNat 0, count := k.count - 1 }
        -- this path returns in any case, and with the lock held unless no process is left
        .ok (ctx, if k.count = 0 then { k with locked := false } else k)
    | .running => .ok (ctx, { k with locked := false })
    | .waiting => .ok (ctx, { k with locked := false })

def schedulerTick (k : Kernel H) (ctx : RegisterCtx) : Except Stop (RegisterCtx × Kernel H) :=
  if k.locked then .error .lock
  else
    let k := { k with locked := true }
    if k.count = 0 then .ok (ctx, { k with locked := false })
    else tickNext (tickCurrent k ctx) ctx

/-! ## Exit -/

/-- The last process to exit also calls the function that was set for that, and stops. -/
def schedulerExit (A : Allocator H) (k : Kernel H) : Kernel H :=
  let proc := k.table k.currentPid.toNat
  if proc ≠ 0 then
    let pcb := k.pcbs proc
    let pcb := { pcb with
      ctx.rip := 0
      fdTable := fun i => if i < pcb.fdCount.toNat then 0 else pcb.fdTable i }
    let mm := vmmDestroyPagemap k.mm pcb.pagemap
    let (mm, heap) := A.kfree mm k.heap proc
    let count := k.count - 1
    { k with
      mm := mm
      heap := heap
      pcbs := Function.update k.pcbs proc pcb
      -- the pid is read from the block that was just freed
      table := Function.update k.table pcb.pid.toNat 0
      count := count
      currentPid := if count = 0 then 0 else (k.currentPid + 1) % count }
  else k

def schedulerGetCurrent (k : Kernel H) : U64 := if k.procs = 0 then 0 else k.table k.currentPid.toNat

end ShadowOS.Proc
