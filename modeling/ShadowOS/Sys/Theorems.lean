import ShadowOS.Fs.Theorems
import ShadowOS.Proc.SchedulerTheorems
import ShadowOS.Sys.Lemmas.Open

/-!
# Theorems about system calls
-/

namespace ShadowOS.Sys

open Mm Proc Fs

variable {H : Type} {A : Allocator H} {inUse : H → Set U64} {s₀ s s' : System H} {ops : List SysOp}

/-! ## A machine -/

/-- A user page with the path "/". -/
def sampleUser : Mm.State :=
  let (page, k) := pmmRequestPage sampleDevfs.mm
  let k := vmmMap k (samplePagemap 0) 0x400000 page (vmmPresent ||| vmmUser)
  { k with mem := Function.update k.mem page slash }

/-- The sample file system, with a process table and a first pagemap that has a user page. -/
def sampleBoot : System U64 :=
  { toVfs := sampleDevfs.toVfs
    toKernel := schedulerInit bumpAllocator { sampleProcs with mm := sampleUser, heap := sampleDevfs.heap, stdout := 0x10b7 } }

def sampleUserSpawn : SysOp := .spawn true 0x400000 (samplePagemap 0)
def sampleUserTick : SysOp := .tick ⟨fun _ => 0, 0, 0, 0, 0, 0⟩

/-- The root, the directory of devices with its data, and the standard output. -/
def sampleRole (p : U64) : Option Role :=
  if p = 0x800 ∨ p = 0x1000 ∨ p = 0x10b7 then some .vnode else if p = 0x106c then some (.data 0x1000) else none

theorem sampleBoot_tree : VnodeTree sampleBoot.nodes 0x800 {0x800, 0x1000, 0x10b7} := by
  refine ⟨by simp, by simp, fun n hn => ?_⟩
  rcases hn with rfl | rfl | rfl
  · refine ⟨[0x1000], by decide, ?_⟩
    simp only [List.mem_singleton, forall_eq]
    exact ⟨by simp, by decide, by decide⟩
  · refine ⟨[0x10b7], by decide, ?_⟩
    simp only [List.mem_singleton, forall_eq]
    exact ⟨by simp, by decide, by decide⟩
  · exact ⟨[], by decide, by simp⟩

theorem sampleBoot_fs : FsInv (fun heap => {p | p < heap}) sampleRole {0x800, 0x1000, 0x10b7} sampleBoot.fs := by
  have hall : ∀ {P : U64 → Prop}, P 0x800 ∧ P 0x1000 ∧ P 0x10b7 → ∀ v ∈ ({0x800, 0x1000, 0x10b7} : Set U64), P v := by
    rintro P ⟨h₁, h₂, h₃⟩ v (rfl | rfl | rfl)
    · exact h₁
    · exact h₂
    · exact h₃
  refine ⟨?_, by decide, by decide, ⟨[0x107c], by decide, ?_⟩, hall (by decide),
    hall (by decide), hall (by decide), hall (by decide), hall (by decide),
    hall (by decide), ?_⟩
  · exact sampleBoot_tree
  · simp only [List.mem_singleton, forall_eq]
    exact .inr (.inr (.inl (by decide)))
  · intro p hp
    have hheap : sampleBoot.heap = 0x5146 := by decide
    change p < sampleBoot.heap
    rw [hheap]
    simp only [sampleRole] at hp
    split at hp
    · rename_i h
      rcases h with rfl | rfl | rfl <;> decide
    · split at hp
      · rename_i h
        rw [h]
        decide
      · exact absurd rfl hp

theorem sampleBoot_booted : Booted (fun heap => {p | p < heap}) sampleBoot where
  fs := by
    refine ⟨sampleRole, _, sampleBoot_fs, .inr (.inr rfl), fun p hp => ?_⟩
    simp only [sampleRole] at hp
    split at hp
    · cases hp
    · split at hp
      · cases hp
      · cases hp
  procs := by decide
  table i hi := by
    change (if sampleBoot.procs = 0 then fun _ => 0 else fun i => if i < procMaxProcs then 0 else 0) i = 0
    split
    · rfl
    · exact if_pos hi
  count := rfl
  currentPid := rfl

/-- A process that has opened the root directory. -/
def sampleOps : List SysOp := [sampleUserSpawn, sampleUserTick, .syscall ⟨1, 0x400000, 0, 0⟩]

/-- What stopped the kernel. -/
def stopOf {α : Type} : Except Stop α → Option Stop
  | .error why => some why
  | .ok _ => none

theorem error_of_stopOf {α : Type} {x : Except Stop α} {why : Stop} (h : stopOf x = some why) : x = .error why := by
  cases x with
  | error e => rw [Option.some.inj h]
  | ok a => cases h

/-- The run of the samples below and the calls they make at its end, evaluated together. -/
theorem sampleOps_eval : AllSteps (SysOp.exec bumpAllocator) SysOp.Few sampleBoot sampleOps ∧
    (run (SysOp.exec bumpAllocator) sampleBoot sampleOps).any (fun s =>
      (s.current != 0 && decide (Memory bumpAllocator s.fs [97]) && decide (Opened s 0) && decide (Opened s 1)) &&
      (follow s.nodes (s.mounts s.rootMount).root [[97]] == 0 &&
        (sysOpen bumpAllocator s (some [47, 97, 47, 98]) oCreate 2).toOption.any fun res =>
          decide (0 ≤ res.1.toInt) && found res.2 [47, 98] == vnodeOf res.2 res.1) &&
      ((sysClose s 1).toOption.any (fun res => res.1 == 0) &&
        (sysClose s 0).toOption.any fun res => res.1 == 0 && vnodeOf res.2 1 != vnodeOf s 1) &&
      (stopOf (syscallHandler bumpAllocator s ⟨3, 0, 0x400000, 0⟩) == some .assertion &&
        stopOf (syscallHandler bumpAllocator s ⟨4, 0, 0, 8⟩) == some .assertion &&
        stopOf (syscallHandler bumpAllocator s ⟨1, 0x400001, 1, 0⟩) == some (.fs .null))) = true := by
  decide +kernel

theorem sampleOps_few : AllSteps (SysOp.exec bumpAllocator) SysOp.Few sampleBoot sampleOps := sampleOps_eval.1

theorem sampleOps_state : ∃ s, run (SysOp.exec bumpAllocator) sampleBoot sampleOps = some s ∧
    (s.current ≠ 0 ∧ Memory bumpAllocator s.fs [97] ∧ Opened s 0 ∧ Opened s 1) ∧
    (follow s.nodes (s.mounts s.rootMount).root [[97]] = 0 ∧
      (sysOpen bumpAllocator s (some [47, 97, 47, 98]) oCreate 2).toOption.any (fun res =>
        decide (0 ≤ res.1.toInt) && found res.2 [47, 98] == vnodeOf res.2 res.1) = true) ∧
    ((sysClose s 1).toOption.any (fun res => res.1 == 0) = true ∧
      (sysClose s 0).toOption.any (fun res => res.1 == 0 && vnodeOf res.2 1 != vnodeOf s 1) = true) ∧
    syscallHandler bumpAllocator s ⟨3, 0, 0x400000, 0⟩ = .error .assertion ∧
    syscallHandler bumpAllocator s ⟨4, 0, 0, 8⟩ = .error .assertion ∧
    syscallHandler bumpAllocator s ⟨1, 0x400001, 1, 0⟩ = .error (.fs .null) := by
  obtain ⟨s, hs, hend⟩ := (Option.any_eq_true _ _).mp sampleOps_eval.2
  rw [Bool.and_eq_true, Bool.and_eq_true, Bool.and_eq_true] at hend
  obtain ⟨⟨⟨hstate, hopen⟩, hclose⟩, hstops⟩ := hend
  simp only [Bool.and_eq_true, bne_iff_ne, decide_eq_true_iff] at hstate
  obtain ⟨⟨⟨hcur, hmem⟩, hzero⟩, hone⟩ := hstate
  rw [Bool.and_eq_true, beq_iff_eq] at hopen
  rw [Bool.and_eq_true] at hclose
  simp only [Bool.and_eq_true, beq_iff_eq] at hstops
  obtain ⟨⟨hwrite, hread⟩, hpath⟩ := hstops
  exact ⟨s, hs, ⟨hcur, hmem, hzero, hone⟩, hopen, hclose, error_of_stopOf hwrite, error_of_stopOf hread,
    error_of_stopOf hpath⟩

/-! ## Open -/

/-- `open` creates at the path, or not at all, if the ways to walk the path agree. If the names of the parents are not cut
it does so only then. -/
theorem open_creates_at_path_iff {role : U64 → Option Role} {T : Set U64} {live : List U64} {path : CString}
    (hA : AllocatorSpec A inUse) (h : SysInv inUse role T live s) (hcur : s.current ≠ 0) (hpath : path.head? = some slash)
    (hmem : Memory A s.fs (filenameFromPath path)) (kind : U8) :
    (WalksAgree s path → CreatesAtPath A s T path kind) ∧
      ((∀ c ∈ (components path).dropLast, c.length ≤ 255) → CreatesAtPath A s T path kind → WalksAgree s path) := by
  obtain ⟨fd, s', hres, hout⟩ := h.open_outcome hA hcur hpath hmem kind
  constructor
  · intro hagree
    refine ⟨fd, s', hres, ?_⟩
    cases hout with
    | opened hfound hsame hroom hfull =>
        exact ⟨fun hc => absurd hc hfound, fun hparents => ⟨hfull ((hagree.2 hparents).2 hfound), hsame⟩⟩
    | refused hfound hallows hfd hsame =>
        exact ⟨fun _ hc => absurd hfd (not_lt.mpr hc), fun _ => ⟨hfd, hsame⟩⟩
    | created hfound hallows hcreated hname hlookup hsame hroom hfull =>
        have hparents : ParentsExist s.nodes (s.mounts s.rootMount).root path := by
          by_contra hparents
          exact (hagree.2 hparents).1 hfound hallows
        refine ⟨fun _ hfd => ?_, fun hc => absurd hparents hc⟩
        have hr : HasRoom s := by
          by_contra hr
          exact absurd (hfull hr) (not_lt.mpr hfd)
        obtain hc | hc | hc | ⟨hslash, hshort⟩ := hagree.1 hparents
        · exact absurd hfound hc
        · exact absurd hallows hc
        · exact absurd hr hc
        · rw [hlookup, (hroom hr).2]
          exact h.found_created hpath hparents hslash hshort hfound hcreated hname
  · rintro hnames ⟨fd₁, s₁, hres₁, hlands, hfails⟩
    cases hres.symm.trans hres₁
    cases hout with
    | opened hfound hsame hroom hfull =>
        refine ⟨fun _ => .inl hfound, fun hparents => ⟨fun hc => absurd hc hfound, fun _ hr => ?_⟩⟩
        exact absurd (hfails hparents).1 (not_lt.mpr (hroom hr))
    | refused hfound hallows hfd hsame =>
        exact ⟨fun _ => .inr (.inl hallows), fun _ => ⟨fun _ => hallows, fun hc => absurd hfound hc⟩⟩
    | created hfound hallows hcreated hname hlookup hsame hroom hfull =>
        refine ⟨fun hparents => ?_, fun hparents => ⟨fun _ _ => ?_, fun hc => absurd hfound hc⟩⟩
        · by_cases hr : HasRoom s
          · refine .inr (.inr (.inr ?_))
            by_contra hbad
            have hland := hlands hfound (hroom hr).1
            rw [hlookup, (hroom hr).2,
              h.found_elsewhere hpath hfound hcreated hname (filename_notMem_pieces hpath hnames hbad)] at hland
            exact hcreated.vnode.1 hland.symm
          · exact .inr (.inr (.inl hr))
        · refine h.fs.not_same_created (h.fs.last_mem hpath) hcreated hname hallows.2.2 fun v hv => ?_
          exact (hsame v hv).symm.trans ((hfails hparents).2 v hv)

/-- The file "/a". -/
theorem open_creates_at_path_iff_sample : ∃ s T, run (SysOp.exec bumpAllocator) sampleBoot sampleOps = some s ∧
    CreatesAtPath bumpAllocator s T [47, 97] 2 := by
  obtain ⟨s, hs, ⟨hcur, hmem, _⟩, _⟩ := sampleOps_state
  obtain ⟨role, T, live, h⟩ := SysInv.run bumpAllocator_spec sampleBoot_booted sampleOps_few hs
  have hparents : ParentsExist s.nodes (s.mounts s.rootMount).root [47, 97] := fun i hi hlen =>
    absurd (show i < 1 from hlen) (by omega)
  have hagree : WalksAgree s [47, 97] :=
    ⟨fun _ => .inr (.inr (.inr ⟨by decide, by decide⟩)), fun hc => absurd hparents hc⟩
  have hname : filenameFromPath [47, 97] = [97] := by decide
  rw [← hname] at hmem
  exact ⟨s, T, hs, (open_creates_at_path_iff bumpAllocator_spec h hcur rfl hmem 2).1 hagree⟩

/-- To create "/a/b" without the directory "/a" creates "/b". -/
theorem open_creates_elsewhere : ∃ s fd s', run (SysOp.exec bumpAllocator) sampleBoot sampleOps = some s ∧
    sysOpen bumpAllocator s (some [47, 97, 47, 98]) oCreate 2 = .ok (fd, s') ∧ found s' [47, 98] = vnodeOf s' fd ∧
    ∀ T, ¬ CreatesAtPath bumpAllocator s T [47, 97, 47, 98] 2 := by
  obtain ⟨s, hs, _, ⟨hnone, hend⟩, _⟩ := sampleOps_state
  obtain ⟨⟨fd, s'⟩, hopen, hres⟩ := ok_of_any hend
  rw [Bool.and_eq_true, beq_iff_eq, decide_eq_true_iff] at hres
  have hparents : ¬ ParentsExist s.nodes (s.mounts s.rootMount).root [47, 97, 47, 98] := by
    intro hc
    have hfirst : (components [47, 97, 47, 98]).take 1 = [[97]] := by decide
    have hdir := (hc 1 (by decide) (by decide)).1
    rw [hfirst] at hdir
    exact hdir hnone
  refine ⟨s, fd, s', hs, hopen, hres.2, ?_⟩
  rintro T ⟨fd₁, s₁, hopen₁, _, hfails⟩
  obtain ⟨rfl, rfl⟩ := Prod.mk.inj (Except.ok.inj (hopen.symm.trans hopen₁))
  exact absurd (hfails hparents).1 (not_lt.mpr hres.1)

/-! ## Close -/

/-- After a close, a descriptor refers to the same vnode exactly if it is below the one that was closed, or if the next one
refers to that vnode as well. -/
theorem close_keeps_descriptor_iff {a b : U32} (hA : AllocatorSpec A inUse) (hboot : Booted inUse s₀)
    (hfew : AllSteps (SysOp.exec A) SysOp.Few s₀ ops) (hrun : run (SysOp.exec A) s₀ ops = some s) (hb : Opened s b)
    (hclose : sysClose s a = .ok (0, s')) :
    vnodeOf s' b = vnodeOf s b ↔ b.toNat < a.toNat ∨ Opened s (b + 1) ∧ vnodeOf s (b + 1) = vnodeOf s b := by
  obtain ⟨role, T, live, h⟩ := SysInv.run hA hboot hfew hrun
  have hlt : b.toNat < (s.pcbs s.current).fdCount.toNat := by
    have hlt := hb.2
    rw [toInt_eq_toNat hb.1] at hlt
    exact Int.ofNat_lt.mp hlt
  obtain ⟨hcur, hvnode⟩ := h.vnodeOf_close hclose hlt
  have hfds := (h.current hcur).2.fds
  have hcount := hfds.count
  rw [procMaxFds] at hcount
  have hsucc : (b + 1).toNat = b.toNat + 1 := by
    rw [BitVec.toNat_add]
    exact Nat.mod_eq_of_lt (by simp; omega)
  have hnext : Opened s (b + 1) ↔ b.toNat + 1 < (s.pcbs s.current).fdCount.toNat := by
    rw [Opened, BitVec.toInt_eq_toNat_cond, hsucc, if_pos (by omega)]
    omega
  have h0 : vnodeOf s b ≠ 0 := fun hc => h.fs.tree.nonnull (hc ▸ hfds.opened _ hlt)
  rw [hvnode, hnext, vnodeOf, vnodeOf, hsucc]
  by_cases hba : b.toNat < a.toNat
  · simp only [hba, ↓reduceIte, true_or]
  · by_cases hin : b.toNat + 1 < (s.pcbs s.current).fdCount.toNat
    · simp only [hba, hin, ↓reduceIte, false_or, true_and]
    · simp only [hba, hin, ↓reduceIte, false_or, false_and, iff_false]
      exact fun hc => h0 hc.symm

theorem close_keeps_descriptor_iff_sample : ∃ s s', run (SysOp.exec bumpAllocator) sampleBoot sampleOps = some s ∧
    Opened s 0 ∧ sysClose s 1 = .ok (0, s') ∧ vnodeOf s' 0 = vnodeOf s 0 := by
  obtain ⟨s, hs, ⟨_, _, hzero, _⟩, _, ⟨hend, _⟩, _⟩ := sampleOps_state
  obtain ⟨⟨status, s'⟩, hclose, hstatus⟩ := ok_of_any hend
  rw [beq_iff_eq] at hstatus
  dsimp only at hstatus
  subst hstatus
  exact ⟨s, s', hs, hzero, hclose, (close_keeps_descriptor_iff bumpAllocator_spec sampleBoot_booted sampleOps_few hs
    hzero hclose).mpr (.inl (by decide))⟩

/-- After the first of two descriptors is closed, the second one refers to no vnode. -/
theorem close_loses_descriptor : ∃ s s', run (SysOp.exec bumpAllocator) sampleBoot sampleOps = some s ∧
    Opened s 0 ∧ Opened s 1 ∧ sysClose s 0 = .ok (0, s') ∧ vnodeOf s' 1 ≠ vnodeOf s 1 := by
  obtain ⟨s, hs, ⟨_, _, hzero, hone⟩, _, ⟨_, hend⟩, _⟩ := sampleOps_state
  obtain ⟨⟨status, s'⟩, hclose, hstatus⟩ := ok_of_any hend
  simp only [Bool.and_eq_true, beq_iff_eq, bne_iff_ne] at hstatus
  obtain ⟨rfl, hne⟩ := hstatus
  exact ⟨s, s', hs, hzero, hone, hclose, hne⟩

/-! ## Calls with a descriptor -/

theorem descriptor_checked_iff {fd : U32} (hA : AllocatorSpec A inUse) (hboot : Booted inUse s₀)
    (hfew : AllSteps (SysOp.exec A) SysOp.Few s₀ ops) (hrun : run (SysOp.exec A) s₀ ops = some s) (hcur : s.current ≠ 0)
    (call : FdCall) : call.Checked A s fd ↔ call.InTable s fd := by
  obtain ⟨role, T, live, h⟩ := SysInv.run hA hboot hfew hrun
  exact h.checked_iff hcur call

theorem descriptor_checked_iff_sample : ∃ s, run (SysOp.exec bumpAllocator) sampleBoot sampleOps = some s ∧
    (FdCall.read 0x1000 8).Checked bumpAllocator s 5 := by
  obtain ⟨s, hs, ⟨hcur, _⟩, _⟩ := sampleOps_state
  exact ⟨s, hs, (descriptor_checked_iff bumpAllocator_spec sampleBoot_booted sampleOps_few hs hcur
    _).mpr (show InRange 5 by decide)⟩

/-- The first index after the table, and one before it. -/
theorem descriptor_leaves_table : ∃ s, run (SysOp.exec bumpAllocator) sampleBoot sampleOps = some s ∧
    sysWrite bumpAllocator s 1024 0x1000 8 = .error .index ∧ sysRead s (-1) 0x1000 8 = .error .index := by
  obtain ⟨s, hs, ⟨hcur, _⟩, _⟩ := sampleOps_state
  exact ⟨s, hs, withVnode_index hcur (by decide), withVnode_index hcur (by decide)⟩

/-! ## Arguments -/

end ShadowOS.Sys
