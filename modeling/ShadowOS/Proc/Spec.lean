import ShadowOS.Mm.Lemmas.PageTable
import ShadowOS.Mm.Runs
import ShadowOS.Proc.Elf
import ShadowOS.Proc.Scheduler

/-!
# What processes should see
-/

namespace ShadowOS.Proc

open Mm

/-! ## Programs -/

/-- The byte that a process with the given pagemap sees at an address. -/
def byteAt (k : State) (pagemap v : U64) : U8 := k.mem (virtToPhys k pagemap v + (v &&& (pageSize - 1)))

namespace ElfPheader

/-- The byte that a segment should have at offset `j`: from the file, then zeros. -/
def byte (image : Mem) (ph : ElfPheader) (j : Nat) : U8 :=
  if j < ph.pFilesz.toNat then image (ph.pOffset + BitVec.ofNat 64 j) else 0

/-- How many pages the loop over a segment loads. -/
def pageCount (ph : ElfPheader) : Nat := (ph.vaddrEnd.toNat - ph.vaddrStart.toNat) / 4096

/-- The addresses of the pages that are loaded for a program header. -/
def pages (ph : ElfPheader) : List U64 :=
  if ph.pType = ptLoad then (List.range ph.pageCount).map fun j => ph.vaddrStart + BitVec.ofNat 64 j * pageSize else []

/-- From its second page on, the file part of a segment repeats what comes `p_vaddr % PAGE_SIZE` bytes later, and ends in
zeros. It does when the segment starts at a page, or when its file part ends in its first page. -/
def Placed (image : Mem) (ph : ElfPheader) : Prop :=
  ∀ j < ph.pFilesz.toNat, 4096 ≤ ph.pVaddr.toNat % 4096 + j → ph.byte image j = ph.byte image (ph.pVaddr.toNat % 4096 + j)

end ElfPheader

/-- The addresses of the pages that are loaded for an image. -/
def elfPages (image : Mem) : List U64 :=
  if (elfHeader image).Valid then (elfPheaders image).flatMap ElfPheader.pages else []

/-- A page that the loader fills for a segment. -/
structure PageLoad where
  ph : ElfPheader
  vaddr : U64
deriving DecidableEq, Repr

/-- The byte at offset `b` of the page after it is filled. -/
def PageLoad.byte (image : Mem) (l : PageLoad) (b : Nat) : U8 :=
  let filePageOffset := l.ph.pOffset + (l.vaddr - l.ph.vaddrStart)
  let fileDataEnd := l.ph.pOffset + l.ph.pFilesz
  let pageDataOffset := if l.vaddr - l.ph.vaddrStart = 0 ∧ 0 < l.ph.pageOffset then l.ph.pageOffset else 0
  let copySize := pageSize - pageDataOffset
  let copySize := if fileDataEnd < filePageOffset + copySize then fileDataEnd - filePageOffset else copySize
  if filePageOffset < fileDataEnd ∧ pageDataOffset.toNat ≤ b ∧ b - pageDataOffset.toNat < copySize.toNat then
    image (filePageOffset + BitVec.ofNat 64 (b - pageDataOffset.toNat))
  else 0

/-- Of several loads of one page the last one is seen. -/
def showLoads (shown : BitVec 36 → Option PageLoad) (loads : List PageLoad) : BitVec 36 → Option PageLoad :=
  loads.foldl (fun shown l => Function.update shown (pageNo l.vaddr) (some l)) shown

namespace ElfPheader

def loads (ph : ElfPheader) : List PageLoad := ph.pages.map (PageLoad.mk ph)

/-- The entry of a page gives the program the access that the segment asks for. -/
def Permitted (ph : ElfPheader) (entry : U64) : Prop :=
  entry &&& vmmPresent ≠ 0 ∧ entry &&& vmmUser ≠ 0 ∧ (ph.pFlags &&& pfW ≠ 0 → entry &&& vmmWrite ≠ 0) ∧
    (ph.pFlags &&& pfX ≠ 0 → entry &&& vmmNx = 0)

end ElfPheader

/-- The loads that are seen after the segments were loaded in this order. -/
def shownLoads (phs : List ElfPheader) : BitVec 36 → Option PageLoad := showLoads (fun _ => none) (phs.flatMap ElfPheader.loads)

/-- In the end every byte of a segment is as it was when the segment had been loaded, with the access it asks for. -/
def SegmentsKept (image : Mem) (pagemap : U64) (k k' : State) : Prop :=
  ∀ i ph, (elfPheaders image)[i]? = some ph → ph.pType = ptLoad →
    ∀ k₁, ((elfPheaders image).take (i + 1)).foldlM (elfLoadSegment image pagemap) k = .ok k₁ →
      ∀ j < ph.pMemsz.toNat,
        byteAt k' pagemap (ph.pVaddr + BitVec.ofNat 64 j) = byteAt k₁ pagemap (ph.pVaddr + BitVec.ofNat 64 j) ∧
        ph.Permitted (leafEntry k' pagemap (ph.pVaddr + BitVec.ofNat 64 j))

/-- For every byte of a segment, the last segment that loads its page has the same byte there, and asks for all the access
that the segment asks for. It does when no page is loaded for two segments. -/
def SegmentsAgree (image : Mem) : Prop :=
  ∀ i ph, (elfPheaders image)[i]? = some ph → ph.pType = ptLoad → ∀ j < ph.pMemsz.toNat, ∃ own last,
    shownLoads ((elfPheaders image).take (i + 1)) (pageNo (ph.pVaddr + BitVec.ofNat 64 j)) = some own ∧
    shownLoads (elfPheaders image) (pageNo (ph.pVaddr + BitVec.ofNat 64 j)) = some last ∧
    last.byte image ((ph.pVaddr + BitVec.ofNat 64 j).toNat % 4096) =
      own.byte image ((ph.pVaddr + BitVec.ofNat 64 j).toNat % 4096) ∧
    (ph.pFlags &&& pfW ≠ 0 → last.ph.pFlags &&& pfW ≠ 0) ∧ (ph.pFlags &&& pfX ≠ 0 → last.ph.pFlags &&& pfX ≠ 0)

/-- What the kernel's pagemap says is the same in both states. -/
def SameKernel (k k' : State) : Prop := ∀ v, virtToPhys k' k'.kernelPagemap v = virtToPhys k k.kernelPagemap v

/-! ## Processes -/

variable {H : Type}

/-- What the heap promises: `inUse` are the blocks that were allocated and not freed, and a new block is none of them. -/
structure AllocatorSpec (A : Allocator H) (inUse : H → Set U64) : Prop where
  fresh : ∀ mm h n, (A.kmalloc mm h n).1 ≠ 0 → (A.kmalloc mm h n).1 ∉ inUse h
  used : ∀ mm h n, (A.kmalloc mm h n).1 ≠ 0 → (A.kmalloc mm h n).1 ∈ inUse (A.kmalloc mm h n).2.2
  kept : ∀ mm h n, inUse h ⊆ inUse (A.kmalloc mm h n).2.2
  freed : ∀ mm h p, inUse h \ {p} ⊆ inUse (A.kfree mm h p).2

/-- The heap with a note on whether there was memory for every request. -/
def Allocator.watch (A : Allocator H) : Allocator (H × Bool) where
  kmalloc mm h n :=
    let (p, mm, heap) := A.kmalloc mm h.1 n
    (p, mm, heap, h.2 && p ≠ 0)
  kcalloc mm h n size :=
    let (p, mm, heap) := A.kcalloc mm h.1 n size
    (p, mm, heap, h.2 && p ≠ 0)
  kfree mm h p :=
    let (mm, heap) := A.kfree mm h.1 p
    (mm, heap, h.2)

/-- A process that was spawned and has not exited: the pid that it was given and its control block. -/
structure Process where
  pid : U64
  proc : U64
deriving DecidableEq, Repr

inductive SchedOp where
  | spawn (user : Bool) (entry pagemap : U64)
  | tick (ctx : RegisterCtx)
  | exit

namespace SchedOp

/-- The kernel and the processes that are alive. A run ends where the machine stops. -/
def exec (A : Allocator H) : Kernel H × List Process → SchedOp → Option (Kernel H × List Process)
  | (k, live), .spawn user entry pagemap =>
      match schedulerSpawn A k user entry pagemap with
      | .error _ => none
      | .ok (pid, k') =>
          let proc := (A.kmalloc k.mm k.heap pcbSize).1
          some (k', if proc = 0 then live else ⟨pid, proc⟩ :: live)
  | (k, live), .tick ctx =>
      match schedulerTick k ctx with
      | .error _ => none
      | .ok (_, k') => some (k', live)
  | (k, live), .exit => some (schedulerExit A k, live.filter fun p => p.proc ≠ k.table k.currentPid.toNat)

/-- There is room for one more process. -/
def Few : Kernel H × List Process → SchedOp → Prop
  | (_, live), .spawn _ _ _ => live.length < procMaxProcs
  | _, _ => True

/-- The number of processes is not the pid of one that is alive. -/
def NewPid : Kernel H × List Process → SchedOp → Prop
  | (k, live), .spawn _ _ _ => ∀ p ∈ live, p.pid ≠ k.count
  | _, _ => True

/-- Only the process with the highest pid exits, and the table has room for every process that is spawned. -/
def LastExits : Kernel H × List Process → SchedOp → Prop
  | (k, _), .spawn _ _ _ => k.count.toNat < procMaxProcs
  | _, .tick _ => True
  | (k, _), .exit => k.table k.currentPid.toNat ≠ 0 → k.currentPid + 1 = k.count

instance : ∀ (s : Kernel H × List Process) (op : SchedOp), Decidable (Few s op)
  | (_, live), .spawn _ _ _ => inferInstanceAs (Decidable (live.length < procMaxProcs))
  | _, .tick _ => isTrue trivial
  | _, .exit => isTrue trivial

instance : ∀ (s : Kernel H × List Process) (op : SchedOp), Decidable (NewPid s op)
  | (k, live), .spawn _ _ _ => inferInstanceAs (Decidable (∀ p ∈ live, p.pid ≠ k.count))
  | _, .tick _ => isTrue trivial
  | _, .exit => isTrue trivial

instance : ∀ (s : Kernel H × List Process) (op : SchedOp), Decidable (LastExits s op)
  | (k, _), .spawn _ _ _ => inferInstanceAs (Decidable (k.count.toNat < procMaxProcs))
  | _, .tick _ => isTrue trivial
  | (k, _), .exit => inferInstanceAs (Decidable (k.table k.currentPid.toNat ≠ 0 → k.currentPid + 1 = k.count))

end SchedOp

/-- The processes have pids of their own, and every one of them has its entry in the table. -/
def NoneLost : Kernel H × List Process → Prop
  | (k, live) => (live.map Process.pid).Nodup ∧ ∀ p ∈ live, k.table p.pid.toNat = p.proc

instance (s : Kernel H × List Process) : Decidable (NoneLost s) := inferInstanceAs (Decidable (_ ∧ _))

/-- There is a process to run whenever one is alive, and a tick does not fail for the lack of one. -/
def SomeoneToRun : Kernel H × List Process → Prop
  | (k, live) => (live ≠ [] → ∃ p ∈ live, k.table k.currentPid.toNat = p.proc) ∧
      ∀ ctx, schedulerTick k ctx ≠ .error .nextProc

/-! ## Context switches -/

/-- The first half of a tick takes the processor from `proc`. -/
def Preempted (k : Kernel H) (ctx : RegisterCtx) (proc : U64) : Prop :=
  k.count ≠ 0 ∧ (k.pcbs proc).state = .running ∧ ((tickCurrent k ctx).pcbs proc).state = .ready

instance (k : Kernel H) (ctx : RegisterCtx) (proc : U64) : Decidable (Preempted k ctx proc) :=
  inferInstanceAs (Decidable (_ ∧ _ ∧ _))

/-- The second half of a tick that ends in `k'` gives the processor to `proc`. -/
def Dispatched (k : Kernel H) (ctx : RegisterCtx) (k' : Kernel H) (proc : U64) : Prop :=
  k.count ≠ 0 ∧ ((tickCurrent k ctx).pcbs proc).state = .ready ∧ (k'.pcbs proc).state = .running

/-- The calls of the scheduler, and what the handler of system calls does to the flag in a control block. -/
inductive SwitchOp where
  | sched (op : SchedOp)
  | flag (proc : U64) (inSyscall : Bool)

namespace SwitchOp

/-- The context that a process should go on with after a tick. -/
def lastCtx (k : Kernel H) (last : U64 → RegisterCtx) (ctx : RegisterCtx) (proc : U64) : RegisterCtx :=
  if Preempted k ctx proc then ctx else last proc

/-- The kernel, and for every control block the context of the latest tick that took the processor from its process, or the
context it was spawned with. -/
def exec (A : Allocator H) : Kernel H × (U64 → RegisterCtx) → SwitchOp → Option (Kernel H × (U64 → RegisterCtx))
  | (k, last), .sched (.spawn user entry pagemap) =>
      match schedulerSpawn A k user entry pagemap with
      | .error _ => none
      | .ok (_, k') =>
          let proc := (A.kmalloc k.mm k.heap pcbSize).1
          some (k', if proc = 0 then last else Function.update last proc (k'.pcbs proc).ctx)
  | (k, last), .sched (.tick ctx) =>
      match schedulerTick k ctx with
      | .error _ => none
      | .ok (_, k') => some (k', lastCtx k last ctx)
  | (k, last), .sched .exit => some (schedulerExit A k, last)
  | (k, last), .flag proc inSyscall =>
      some ({ k with pcbs := Function.update k.pcbs proc { k.pcbs proc with inSyscall := inSyscall } }, last)

/-- A process that gets the processor in a tick goes on with the context that it had when it lost it, on its own pagemap. -/
def Lossless : Kernel H × (U64 → RegisterCtx) → SwitchOp → Prop
  | (k, last), .sched (.tick ctx) => ∀ ctx' k', schedulerTick k ctx = .ok (ctx', k') → ∀ proc, Dispatched k ctx k' proc →
      ctx' = lastCtx k last ctx proc ∧ k'.mm.cr3 = k'.mm.physical (k'.pcbs proc).pagemap
  | _, _ => True

end SwitchOp

/-- The entries of the table: at most the current one runs, the others are ready, every process has the index of its entry
as pid, and what is left of its slice is not zero. -/
def OneRunning (k : Kernel H) : Prop :=
  ∀ i < procMaxProcs, k.table i ≠ 0 →
    ((k.pcbs (k.table i)).state = .running → k.currentPid.toNat = i) ∧
    ((k.pcbs (k.table i)).state = .ready ∨ (k.pcbs (k.table i)).state = .running) ∧
    (k.pcbs (k.table i)).pid.toNat = i ∧ 1 ≤ (k.pcbs (k.table i)).timeslice.toNat

/-- The descriptors of a process are the first entries of its table, and lead to vnodes. -/
structure FdInv (T : Set U64) (pcb : Pcb) : Prop where
  count : pcb.fdCount.toNat ≤ procMaxFds
  opened : ∀ i < pcb.fdCount.toNat, pcb.fdTable i ∈ T
  closed : ∀ i, pcb.fdCount.toNat ≤ i → i < procMaxFds → pcb.fdTable i = 0

/-! ## Calls on descriptor tables -/

inductive FdOp where
  | add (pid node : U64)
  | remove (pid : U64) (fd : U32)
deriving DecidableEq, Repr

/-- The open vnodes of a process. -/
def Pcb.vnodes (pcb : Pcb) : Multiset U64 := ((List.range pcb.fdCount.toNat).map pcb.fdTable : List U64)

/-- The open descriptors are the first entries of the table, and the others are null. -/
def Pcb.Compact (pcb : Pcb) : Prop := FdInv {0}ᶜ pcb

namespace FdOp

def pid : FdOp → U64
  | .add pid _ => pid
  | .remove pid _ => pid

def call (k : Kernel H) : FdOp → Except Stop (U32 × Kernel H)
  | .add pid node => schedulerProcAddVnode k pid node
  | .remove pid fd => .ok (schedulerProcRemoveVnode k pid fd)

def exec (k : Kernel H) (op : FdOp) : Option (Kernel H) :=
  match op.call k with
  | .error _ => none
  | .ok (_, k') => some k'

def NonNull : FdOp → Prop
  | .add _ node => node ≠ 0
  | .remove _ _ => True

/-- The vnode of the call is added to the open ones, or taken from them. -/
def Changes (pcb pcb' : Pcb) : FdOp → Prop
  | .add _ node => pcb'.vnodes = node ::ₘ pcb.vnodes
  | .remove _ fd => pcb.vnodes = pcb.fdTable fd.toNat ::ₘ pcb'.vnodes

/-- A call that fails, or is for another process, leaves the table alone; any other call adds or removes its vnode. -/
def Exact (proc : U64) (k : Kernel H) (op : FdOp) : Prop :=
  ∀ r k', op.call k = .ok (r, k') →
    (r.toInt < 0 ∨ k.table op.pid.toNat ≠ proc →
      (k'.pcbs proc).fdTable = (k.pcbs proc).fdTable ∧ (k'.pcbs proc).fdCount = (k.pcbs proc).fdCount) ∧
    (0 ≤ r.toInt → k.table op.pid.toNat = proc → op.Changes (k.pcbs proc) (k'.pcbs proc))

end FdOp

/-! ## Single ticks and sequences of them -/

/-- The slice of the current process ends with this tick. -/
def SliceEnds (k : Kernel H) : Prop :=
  let pcb := k.pcbs (k.table k.currentPid.toNat)
  pcb.state = .running ∧ pcb.inSyscall = false ∧ pcb.timeslice = 1

instance (k : Kernel H) : Decidable (SliceEnds k) := inferInstanceAs (Decidable (_ ∧ _ ∧ _))

/-- The process that a tick looks at. -/
def nextProc (k : Kernel H) : U64 := k.table (if SliceEnds k then (k.currentPid + 1) % k.count else k.currentPid).toNat

/-- A tick returns with the lock free, and past a process that has terminated if there are others. -/
def DropsLock (k : Kernel H) (ctx : RegisterCtx) : Prop :=
  ∃ ctx' k', schedulerTick k ctx = .ok (ctx', k') ∧ k'.locked = false ∧
    ((k.pcbs (k.table k.currentPid.toNat)).state = .terminated → 1 < k.count →
      k'.currentPid = (k.currentPid + 1) % (k.count - 1))

/-- There is no process, or the tick looks at one that has a pagemap if it is to run and is the last one if it has terminated. -/
def CanDropLock (k : Kernel H) : Prop :=
  k.count = 0 ∨
    let pcb := k.pcbs (nextProc k)
    nextProc k ≠ 0 ∧ (pcb.state = .ready ∨ SliceEnds k ∧ nextProc k = k.table k.currentPid.toNat → pcb.pagemap ≠ 0) ∧
      (pcb.state = .terminated → k.count = 1)

/-- A table with `n` processes: the one at `c` is current and runs, the others are ready, and all have a whole slice. -/
structure RoundRobin (n c : Nat) (k : Kernel H) : Prop where
  lt : c < n
  count : k.count.toNat = n
  current : k.currentPid.toNat = c
  unlocked : k.locked = false
  nonnull : ∀ i < n, k.table i ≠ 0
  distinct : ∀ i < n, ∀ j < n, k.table i = k.table j → i = j
  state : ∀ i < n, (k.pcbs (k.table i)).state = if i = c then .running else .ready
  idle : ∀ i < n, (k.pcbs (k.table i)).inSyscall = false
  slice : ∀ i < n, (k.pcbs (k.table i)).timeslice = procDefaultTime

/-- The processes of a table have pagemaps. -/
def HavePagemaps (n : Nat) (k : Kernel H) : Prop := ∀ i < n, (k.pcbs (k.table i)).pagemap ≠ 0

def tickExec (k : Kernel H) (ctx : RegisterCtx) : Option (Kernel H) :=
  match schedulerTick k ctx with
  | .error _ => none
  | .ok (_, k') => some k'

instance (k : Kernel H) (ctx : RegisterCtx) (k' : Kernel H) (proc : U64) : Decidable (Dispatched k ctx k' proc) :=
  inferInstanceAs (Decidable (_ ∧ _ ∧ _))

/-- The indices of the processes that a sequence of ticks gives the processor to, in this order. -/
def dispatchOrder (n : Nat) : Kernel H → List RegisterCtx → List Nat
  | _, [] => []
  | k, ctx :: ctxs =>
      match tickExec k ctx with
      | none => []
      | some k' => (List.range n).filter (fun i => Dispatched k ctx k' (k.table i)) ++ dispatchOrder n k' ctxs

/-! ## New processes -/

/-- The pagemap of a new process translates the pages of its program and of its stack as they were first mapped. -/
structure KeepsMappings (A : Allocator H) (image : Mem) (user : Bool) (pagemap : U64) (k k' : Kernel H) : Prop where
  program : ∀ v ∈ elfPages image, v.toNat < 2 ^ 47 → virtToPhys k'.mm pagemap v = virtToPhys k.mm pagemap v
  stack : ∀ {vmaCtx stack mm}, spawnStack (A.kmalloc k.mm k.heap pcbSize).2.1 user pagemap = some (vmaCtx, stack, mm) →
    ∀ j < 4, virtToPhys k'.mm pagemap (stack + BitVec.ofNat 64 j * pageSize) =
      virtToPhys mm pagemap (stack + BitVec.ofNat 64 j * pageSize)

/-- The frame addresses that the copy of a range passes to `vmm_map`. -/
def rangeFrames (dest src start size flags : U64) : Nat → U64 → Mm.State → List U64
  | 0, _, _ => []
  | fuel + 1, offset, k =>
      if offset < size then
        let phys := virtToPhys k src (start + offset)
        if phys ≠ 0 then
          phys :: rangeFrames dest src start size flags fuel (offset + pageSize) (vmmMap k dest (start + offset) phys flags)
        else rangeFrames dest src start size flags fuel (offset + pageSize) k
      else []

/-- The frame addresses that the mappings of the kernel's data pass to `vmm_map`. -/
def spawnFrames (k : Mm.State) (user : Bool) (pagemap proc procs : U64) : List U64 :=
  let k₁ := vmmMap k pagemap proc proc (mapFlags user)
  let size := 8 * BitVec.ofNat 64 procMaxProcs
  let k₂ := mapRangeToPagemap k₁ pagemap k₁.kernelPagemap procs size (mapFlags user)
  proc :: (rangeFrames pagemap k₁.kernelPagemap procs size (mapFlags user) (2 ^ 52) 0 k₁ ++
    rangeFrames pagemap k₂.kernelPagemap 0x1000 0x10000 (mapFlags user) (2 ^ 52) 0 k₂)

/-- The pagemap of a new process has the page of the PCB and the table of processes where the kernel has them, and the
addresses that were written into its entries for them are addresses of frames. -/
structure MapsKernelData (A : Allocator H) (user : Bool) (pagemap : U64) (k k' : Kernel H) : Prop where
  pcb : virtToPhys k'.mm pagemap (A.kmalloc k.mm k.heap pcbSize).1 =
    virtToPhys k'.mm k'.mm.kernelPagemap (A.kmalloc k.mm k.heap pcbSize).1
  table : ∀ j < 8 * procMaxProcs, virtToPhys k'.mm pagemap (k.procs + BitVec.ofNat 64 j) =
    virtToPhys k'.mm k'.mm.kernelPagemap (k.procs + BitVec.ofNat 64 j)
  frames : ∀ {vmaCtx stack mm}, spawnStack (A.kmalloc k.mm k.heap pcbSize).2.1 user pagemap = some (vmaCtx, stack, mm) →
    ∀ phys ∈ spawnFrames mm user pagemap (A.kmalloc k.mm k.heap pcbSize).1 k.procs, phys.toNat % 4096 = 0

/-- The address is on one of the `n` pages from `start` on. -/
def OnPages (start : U64) (n : Nat) (v : U64) : Prop := ∃ j < n, pageNo v = pageNo (start + BitVec.ofNat 64 j * pageSize)

instance (start : U64) (n : Nat) (v : U64) : Decidable (OnPages start n v) :=
  inferInstanceAs (Decidable (∃ j < n, _))

/-- The address is on a page that a spawn copies from the kernel: four pages from the table of processes on, sixteen from
the start of the heap on. -/
def Copied (procs v : U64) : Prop := OnPages procs 4 v ∨ OnPages vmaStart 16 v

instance (procs v : U64) : Decidable (Copied procs v) := inferInstanceAs (Decidable (_ ∨ _))

/-- What has to be so before a process gets its stack and the kernel's data, for `v` to end up where the kernel has it. The
two pagemaps share a table there; or the page is copied and the kernel has it; or the page is none of the stack's and the
kernel has it at its own address, if it is the page of the PCB, and where the process has it, if it is another. -/
def FoundAlike (k : Mm.State) (pagemap proc procs v : U64) : Prop :=
  pagemap = k.kernelPagemap ∨ SharesTable k pagemap k.kernelPagemap v ∨
    (Copied procs v ∧ virtToPhys k k.kernelPagemap v ≠ 0) ∨
    (¬ OnPages vmaStart 4 v ∧ (pageNo v = pageNo proc → proc &&& addrMask = virtToPhys k k.kernelPagemap v) ∧
      (pageNo v ≠ pageNo proc → virtToPhys k pagemap v = virtToPhys k k.kernelPagemap v))

instance (k : Mm.State) (pagemap proc procs v : U64) : Decidable (FoundAlike k pagemap proc procs v) :=
  inferInstanceAs (Decidable (_ ∨ _ ∨ _ ∨ _))

/-- The statically initialised globals of the scheduler. -/
structure Kernel.Boot (k : Kernel H) : Prop where
  count : k.count = 0
  currentPid : k.currentPid = 0
  locked : k.locked = false

end ShadowOS.Proc
