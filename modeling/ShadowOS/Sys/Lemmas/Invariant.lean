import ShadowOS.Fs.Lemmas.Calls
import ShadowOS.Fs.Lemmas.Lookup
import ShadowOS.Proc.Lemmas.Scheduler
import ShadowOS.Sys.Spec

/-!
# What holds between two steps of the kernel
-/

namespace ShadowOS.Sys

open Mm Proc Fs

variable {H : Type} {A : Allocator H} {inUse : H → Set U64} {role role' : U64 → Option Role} {T T' : Set U64}
  {live : List U64} {s s' : System H} {k : Kernel H} {pcb pcb' : Pcb} {proc node : U64}

/-! ## The invariant -/

/-- The control block of a process with the pid `i`. -/
structure ProcInv (T : Set U64) (i : Nat) (pcb : Pcb) : Prop where
  pid : pcb.pid.toNat = i
  state : pcb.state ≠ .terminated
  fds : FdInv T pcb

/-- Every process has a control block of its own, with descriptors for vnodes. `live` are the control blocks of the
processes that were spawned and have not exited. -/
structure SysInv (inUse : H → Set U64) (role : U64 → Option Role) (T : Set U64) (live : List U64) (s : System H) :
    Prop where
  fs : FsInv inUse role T s.fs
  stdout : s.stdout ∈ T
  procs : s.procs ≠ 0
  nodup : live.Nodup
  length : live.length = s.count.toNat
  pcbs : ∀ p ∈ live, p ≠ 0 ∧ role p = some .pcb
  table : ∀ i < procMaxProcs, s.table i ≠ 0 → s.table i ∈ live ∧ ProcInv T i (s.pcbs (s.table i))
  count : s.count.toNat ≤ procMaxProcs
  currentPid : s.currentPid.toNat < procMaxProcs

namespace SysInv

theorem current_eq (h : SysInv inUse role T live s) : s.current = s.table s.currentPid.toNat := if_neg h.procs

/-- The control block of the process that runs. -/
theorem current (h : SysInv inUse role T live s) (hc : s.current ≠ 0) :
    s.current ∈ live ∧ ProcInv T s.currentPid.toNat (s.pcbs s.current) := by
  rw [h.current_eq] at hc ⊢
  exact h.table _ h.currentPid hc

theorem table_pid (h : SysInv inUse role T live s) (hc : s.current ≠ 0) :
    s.table (s.pcbs s.current).pid.toNat = s.current := by
  rw [(h.current hc).2.pid, h.current_eq]

/-- A change of the file system. -/
theorem setFs {fs : Fs.State H} (h : SysInv inUse role T live s) (hfs : FsInv inUse role' T' fs) (hT : T ⊆ T')
    (hrole : KeepsPcbs role role') : SysInv inUse role' T' live (s.setFs fs) where
  fs := hfs
  stdout := hT h.stdout
  procs := h.procs
  nodup := h.nodup
  length := h.length
  pcbs p hp := ⟨(h.pcbs p hp).1, hrole p (h.pcbs p hp).1 (h.pcbs p hp).2⟩
  table i hi h0 := ⟨(h.table i hi h0).1, (h.table i hi h0).2.pid, (h.table i hi h0).2.state, (h.table i hi h0).2.fds.mono hT⟩
  count := h.count
  currentPid := h.currentPid

/-- A control block is replaced by one that is as good for the same process. -/
theorem update {currentPid : U64} (h : SysInv inUse role T live s) (mm : Mm.State) (locked : Bool)
    (hpcb : ∀ {i}, ProcInv T i (s.pcbs proc) → ProcInv T i pcb) (hcur : currentPid.toNat < procMaxProcs) :
    SysInv inUse role T live (s.setKernel { s.toKernel with
      mm := mm, pcbs := Function.update s.pcbs proc pcb, currentPid := currentPid, locked := locked }) where
  fs := h.fs.congr (fun _ _ => .refl _) (fun _ _ _ _ => rfl) rfl rfl h.fs.used
  stdout := h.stdout
  procs := h.procs
  nodup := h.nodup
  length := h.length
  pcbs := h.pcbs
  table i hi h0 := by
    obtain ⟨hlive, hproc⟩ := h.table i hi h0
    refine ⟨hlive, ?_⟩
    change ProcInv T i (Function.update s.pcbs proc pcb (s.table i))
    by_cases hp : s.table i = proc
    · rw [hp, Function.update_self]
      exact hpcb (hp ▸ hproc)
    · rw [Function.update_of_ne hp]
      exact hproc
  count := h.count
  currentPid := hcur

theorem setPcb (h : SysInv inUse role T live s) (hpcb : ∀ {i}, ProcInv T i (s.pcbs proc) → ProcInv T i pcb) :
    SysInv inUse role T live (s.setPcb proc pcb) := h.update s.mm s.locked hpcb h.currentPid

/-- The memory and the lock of the scheduler do not matter. -/
theorem setMm (h : SysInv inUse role T live s) (mm : Mm.State) (locked : Bool) :
    SysInv inUse role T live { s with mm := mm, locked := locked } := by
  have hsame : SysInv inUse role T live (s.setKernel { s.toKernel with
      mm := mm, pcbs := Function.update s.pcbs 0 (s.pcbs 0), currentPid := s.currentPid, locked := locked }) :=
    h.update mm locked (fun hp => hp) h.currentPid
  rw [Function.update_eq_self] at hsame
  exact hsame

/-! ## Ticks -/

theorem tickCurrent (h : SysInv inUse role T live s) (h0 : s.count ≠ 0) (ctx : RegisterCtx) :
    SysInv inUse role T live (s.setKernel (tickCurrent s.toKernel ctx)) := by
  simp only [Proc.tickCurrent]
  split
  · have hlt := umod_lt (s.currentPid + 1) h0
    have hcount := h.count
    split
    · exact h.update _ _ (fun hp => ⟨hp.pid, by simp, hp.fds.congr rfl rfl⟩) (by omega)
    · exact h.update _ _ (fun hp => ⟨hp.pid, hp.state, hp.fds.congr rfl rfl⟩) h.currentPid
  · exact h

theorem tickNext {ctx ctx' : RegisterCtx} (h : SysInv inUse role T live s)
    (hres : tickNext s.toKernel ctx = .ok (ctx', k)) : SysInv inUse role T live (s.setKernel k) := by
  simp only [Proc.tickNext] at hres
  split at hres
  · cases hres
  · rename_i hne
    obtain ⟨_, hproc⟩ := h.table _ h.currentPid hne
    split at hres
    · split at hres
      · cases hres
      · rw [← (Prod.mk.inj (Except.ok.inj hres)).2]
        exact h.update _ _ (fun hp => ⟨hp.pid, by simp, hp.fds.congr rfl rfl⟩) h.currentPid
    · rename_i hs
      exact absurd hs hproc.state
    · rw [← (Prod.mk.inj (Except.ok.inj hres)).2]
      exact h.setMm _ _
    · rw [← (Prod.mk.inj (Except.ok.inj hres)).2]
      exact h.setMm _ _

theorem tick {ctx ctx' : RegisterCtx} (h : SysInv inUse role T live s)
    (hres : schedulerTick s.toKernel ctx = .ok (ctx', k)) : SysInv inUse role T live (s.setKernel k) := by
  simp only [schedulerTick] at hres
  split at hres
  · cases hres
  · split at hres
    · rw [← (Prod.mk.inj (Except.ok.inj hres)).2]
      exact h.setMm _ _
    · rename_i h0
      exact ((h.setMm s.mm true).tickCurrent h0 ctx).tickNext hres

/-! ## Exit and spawn -/

/-- A process that exits takes its entry and its block with it. -/
theorem exit (h : SysInv inUse role T live s) (hA : AllocatorSpec A inUse) :
    ∃ role' live', SysInv inUse role' T live' (s.setKernel (schedulerExit A s.toKernel)) ∧
      ∀ p ∈ live, p ≠ s.current → p ∈ live' := by
  by_cases hne : s.table s.currentPid.toNat = 0
  · refine ⟨role, live, ?_, fun p hp _ => hp⟩
    simp only [schedulerExit, hne, ne_eq, not_true_eq_false, ↓reduceIte]
    exact h
  · obtain ⟨hlive, hproc⟩ := h.table _ h.currentPid hne
    generalize hq : s.table s.currentPid.toNat = q at hne hlive hproc
    obtain ⟨hq0, hrole⟩ := h.pcbs q hlive
    have hlen := List.length_erase_of_mem hlive
    have hpos := List.length_pos_of_mem hlive
    have hlength := h.length
    have hcount := h.count
    have hdec : (s.count - 1).toNat = s.count.toNat - 1 :=
      BitVec.toNat_sub_of_le (by rw [BitVec.le_def]; simp; omega)
    -- the blocks of the file system have other roles
    have hother : ∀ p r, role p = some r → r ≠ .pcb → Function.update role q none p = some r := by
      intro p r hp hr
      rw [Function.update_of_ne, hp]
      rintro rfl
      rw [hrole] at hp
      exact hr (Option.some.inj hp).symm
    refine ⟨Function.update role q none, live.erase q, ?_, fun p hp hpc => h.nodup.mem_erase_iff.mpr ⟨?_, hp⟩⟩
    swap
    · rwa [h.current_eq, hq] at hpc
    simp only [schedulerExit, hq, ne_eq, hne, not_false_eq_true, ↓reduceIte]
    refine ⟨?_, h.stdout, h.procs, h.nodup.erase q, ?_, ?_, ?_, ?_, ?_⟩
    · refine h.fs.replace (fun _ _ => .refl _) rfl rfl ?_ ?_ ?_ ?_
      · exact fun v hv => hother v _ (h.fs.vnodes v hv) (by simp)
      · exact fun v hv hops h0 => hother _ _ (h.fs.data v hv hops h0) (by simp)
      · exact fun v hv hops h0 hb => hother _ _ (h.fs.bytes v hv hops h0 hb) (by simp)
      · intro p hp
        have hpq : p ≠ q := by
          rintro rfl
          simp at hp
        rw [Function.update_of_ne hpq] at hp
        exact hA.freed _ _ _ ⟨h.fs.used p hp, hpq⟩
    · change (live.erase q).length = (s.count - 1).toNat
      omega
    · intro p hp
      obtain ⟨hpq, hp⟩ := h.nodup.mem_erase_iff.mp hp
      exact ⟨(h.pcbs p hp).1, by rw [Function.update_of_ne hpq]; exact (h.pcbs p hp).2⟩
    · intro i hi hi0
      have hicur : i ≠ s.currentPid.toNat := by
        rintro rfl
        refine hi0 ?_
        change Function.update s.table (s.pcbs q).pid.toNat 0 s.currentPid.toNat = 0
        rw [hproc.pid, Function.update_self]
      have hentry : (s.setKernel (schedulerExit A s.toKernel)).table i = s.table i := by
        simp only [schedulerExit, hq, ne_eq, hne, not_false_eq_true, ↓reduceIte]
        change Function.update s.table (s.pcbs q).pid.toNat 0 i = s.table i
        rw [hproc.pid, Function.update_of_ne hicur]
      simp only [schedulerExit, hq, ne_eq, hne, not_false_eq_true, ↓reduceIte] at hentry
      rw [hentry] at hi0 ⊢
      obtain ⟨hlive', hproc'⟩ := h.table i hi hi0
      have hiq : s.table i ≠ q := by
        intro hc
        rw [hc] at hproc'
        exact hicur (hproc'.pid.symm.trans hproc.pid)
      refine ⟨h.nodup.mem_erase_iff.mpr ⟨hiq, hlive'⟩, ?_⟩
      change ProcInv T i (Function.update s.pcbs q _ (s.table i))
      rw [Function.update_of_ne hiq]
      exact hproc'
    · change (s.count - 1).toNat ≤ procMaxProcs
      omega
    · change (if s.count - 1 = 0 then (0 : U64) else (s.currentPid + 1) % (s.count - 1)).toNat < procMaxProcs
      split
      · simp [procMaxProcs]
      · rename_i hc
        have hlt := umod_lt (s.currentPid + 1) hc
        omega

/-- A new process gets a block that was not in use. -/
theorem spawn {user : Bool} {entry pagemap pid : U64} (h : SysInv inUse role T live s) (hA : AllocatorSpec A inUse)
    (hfew : s.count.toNat < procMaxProcs) (hres : schedulerSpawn A s.toKernel user entry pagemap = .ok (pid, k)) :
    ∃ role' live', SysInv inUse role' T live' (s.setKernel k) ∧ live ⊆ live' ∧ ∀ p ∈ live, k.pcbs p = s.pcbs p := by
  rcases hkm : A.kmalloc s.mm s.heap pcbSize with ⟨p, mm, heap⟩
  have hheap : inUse s.heap ⊆ inUse heap := by simpa only [hkm] using hA.kept s.mm s.heap pcbSize
  rcases schedulerSpawn_cases hkm hres with ⟨h0, rfl⟩ | ⟨h0, rfl, _, _, mm', pcb, _, hpcb, rfl⟩
  · refine ⟨role, live, ⟨?_, h.stdout, h.procs, h.nodup, h.length, h.pcbs, h.table, h.count, h.currentPid⟩,
      List.Subset.refl live, fun _ _ => rfl⟩
    exact h.fs.congr (fun _ _ => .refl _) (fun _ _ _ _ => rfl) rfl rfl fun q hq => hheap (h.fs.used q hq)
  · have hfresh : p ∉ inUse s.heap := by simpa only [hkm] using hA.fresh s.mm s.heap pcbSize (by rw [hkm]; exact h0)
    have hused : p ∈ inUse heap := by simpa only [hkm] using hA.used s.mm s.heap pcbSize (by rw [hkm]; exact h0)
    have hne : ∀ q, role q ≠ none → q ≠ p := fun q hq hc => hfresh (hc ▸ h.fs.used q hq)
    have hrole : ∀ q r, role q = some r → Function.update role p (some .pcb) q = some r := by
      intro q r hq
      rw [Function.update_of_ne (hne q (by rw [hq]; simp)), hq]
    have hnew : p ∉ live := fun hc => hne p (by rw [(h.pcbs p hc).2]; simp) rfl
    have hsucc : (s.count + 1).toNat = s.count.toNat + 1 := by
      simp only [procMaxProcs] at hfew
      rw [BitVec.toNat_add]
      exact Nat.mod_eq_of_lt (by simp; omega)
    refine ⟨Function.update role p (some .pcb), p :: live, ⟨?_, h.stdout, h.procs, List.nodup_cons.mpr ⟨hnew, h.nodup⟩, ?_, ?_,
      ?_, ?_, h.currentPid⟩, List.subset_cons_self p live, fun q hq => ?_⟩
    · refine h.fs.replace (fun _ _ => .refl _) rfl rfl ?_ ?_ ?_ ?_
      · exact fun v hv => hrole v _ (h.fs.vnodes v hv)
      · exact fun v hv hops hd => hrole _ _ (h.fs.data v hv hops hd)
      · exact fun v hv hops hd hb => hrole _ _ (h.fs.bytes v hv hops hd hb)
      · intro q hq
        change q ∈ inUse heap
        by_cases hqp : q = p
        · rw [hqp]
          exact hused
        · rw [Function.update_of_ne hqp] at hq
          exact hheap (h.fs.used q hq)
    · change live.length + 1 = (s.count + 1).toNat
      rw [hsucc, h.length]
    · refine List.forall_mem_cons.mpr ⟨⟨h0, Function.update_self _ _ _⟩, fun q hq => ⟨(h.pcbs q hq).1, ?_⟩⟩
      exact hrole q _ (h.pcbs q hq).2
    · intro i hi hi0
      change Function.update s.table s.count.toNat p i ≠ 0 at hi0
      change Function.update s.table s.count.toNat p i ∈ p :: live ∧
        ProcInv T i (Function.update s.pcbs p pcb (Function.update s.table s.count.toNat p i))
      by_cases hic : i = s.count.toNat
      · rw [hic, Function.update_self, Function.update_self]
        exact ⟨List.mem_cons_self, by rw [hpcb.pid], by rw [hpcb.state]; simp, hpcb.fds T h.stdout⟩
      · rw [Function.update_of_ne hic] at hi0 ⊢
        obtain ⟨hlive, hproc⟩ := h.table i hi hi0
        have hip : s.table i ≠ p := fun hc => hnew (hc ▸ hlive)
        rw [Function.update_of_ne hip]
        exact ⟨List.mem_cons_of_mem _ hlive, hproc⟩
    · change (s.count + 1).toNat ≤ procMaxProcs
      omega
    · have hqp : q ≠ p := by
        rintro rfl
        exact hnew hq
      exact Function.update_of_ne hqp _ _

end SysInv

end ShadowOS.Sys
