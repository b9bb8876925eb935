import ShadowOS.Fs.Lemmas.Boot
import ShadowOS.Fs.Theorems
import ShadowOS.Sys.Lemmas.Status
import ShadowOS.Sys.Spec

/-!
# Theorems about the tree of vnodes
-/

namespace ShadowOS.Sys

open Mm Proc Fs

variable {H : Type} {A : Allocator H} {inUse : H → Set U64} {role : U64 → Option Role} {later : List U64}

/-! ## Steps -/

namespace Grown

variable {s s' : System (H × Bool)} {status : U32} {path : Option CString} {flags : U64} {kind : U8}

theorem openVnode {node : U64} {fs : Fs.State (H × Bool)} (h : Fs.Grown inUse role later s.fs) (hA : AllocatorSpec A inUse)
    (hres : openVnode A.watch s path flags kind = .ok (node, fs)) :
    (∃ role' later', Fs.Grown inUse role' later' fs) ∧ (node = 0 ∨ node ∈ fs.vnodes) := by
  have hmount : (s.nodes (s.mounts s.rootMount).root).mount = s.rootMount := h.fs.mount
  simp only [Sys.openVnode, hmount] at hres
  split at hres
  · cases path with
    | none => cases hres
    | some p =>
        by_cases habs : p.head? = some slash
        · have hlast : vfsLazyLookupLast s.toVfs s.rootMount (some p) ∈ s.fs.vnodes := h.fs.last_mem habs
          obtain ⟨n, fs', role', hcreate, h', _, _, _, hnew⟩ :=
            h.vfsCreateVnode hA hlast (filenameFromPath p) (kind.setWidth 32)
          simp only [hcreate] at hres
          cases hres
          refine ⟨⟨role', later, h'⟩, ?_⟩
          by_cases h0 : node = 0
          · exact .inl h0
          · exact .inr (hnew h0).1
        · have hlast : vfsLazyLookupLast s.toVfs s.rootMount (some p) = 0 := by
            rw [vfsLazyLookupLast, if_pos (.inr habs)]
          simp only [hlast] at hres
          cases hres
  · cases hres
    exact ⟨⟨role, later, h⟩, h.fs.lookup_mem path⟩

theorem accessVnode {node : U64} {fs : Fs.State (H × Bool)} (h : Fs.Grown inUse role later fs) (hnode : node ∈ fs.vnodes) :
    Fs.Grown inUse role later (accessVnode fs node) := by
  refine h.touch hnode ?_ rfl rfl rfl rfl rfl rfl rfl
  exact ⟨rfl, rfl, rfl, rfl, rfl, rfl, rfl, rfl, rfl⟩

theorem sysOpen (h : Fs.Grown inUse role later s.fs) (hA : AllocatorSpec A inUse)
    (hres : sysOpen A.watch s path flags kind = .ok (status, s')) : ∃ role' later', Fs.Grown inUse role' later' s'.fs := by
  by_cases hcur : s.current = 0
  · rw [Sys.sysOpen, if_pos hcur] at hres
    cases hres
    exact ⟨role, later, h⟩
  · obtain ⟨node, fs, hopen, ⟨_, _, rfl⟩ | ⟨h0, k, hadd, rfl⟩⟩ := sysOpen_cases hcur hres
    · exact (openVnode h hA hopen).1
    · obtain ⟨⟨role', later', h'⟩, hnode⟩ := openVnode h hA hopen
      have haccess := accessVnode h' (hnode.resolve_left h0)
      -- the new descriptor is nothing to the file system
      rcases schedulerProcAddVnode_cases hadd with ⟨_, rfl⟩ | ⟨_, pcb, _, _, _, _, _, rfl⟩
      · exact ⟨role', later', haccess⟩
      · exact ⟨role', later', haccess⟩

end Grown

theorem TreeOp.grown {s s' : Fs.State (H × Bool)} {op : TreeOp H} (hA : AllocatorSpec A inUse)
    (h : Fs.Grown inUse role later s) (hres : op.exec A s = some s') : s'.heap.2 = true ∧
      ∃ role' later', Fs.Grown inUse role' later' s' := by
  rw [exec, Option.filter_eq_some_iff] at hres
  obtain ⟨hcall, hmem⟩ := hres
  refine ⟨hmem, ?_⟩
  cases op with
  | create parent name type =>
      simp only [call] at hcall
      split at hcall
      · rename_i hparent
        obtain ⟨n, fs', role', hcreate, h', _⟩ := h.vfsCreateVnode hA hparent name type
        rw [hcreate] at hcall
        cases hcall
        exact ⟨role', later, h'⟩
      · cases hcall
  | «open» k path flags kind =>
      simp only [call] at hcall
      cases hopen : sysOpen A.watch ⟨{ k with mm := s.mm, heap := s.heap }, s.toVfs⟩ path flags kind with
      | error why =>
          rw [hopen] at hcall
          cases hcall
      | ok r =>
          rw [hopen] at hcall
          cases hcall
          exact Grown.sysOpen (s := ⟨{ k with mm := s.mm, heap := s.heap }, s.toVfs⟩) h hA hopen
  | devfsInit =>
      simp only [call] at hcall
      cases hinit : Fs.devfsInit A.watch s with
      | error why =>
          rw [hinit] at hcall
          cases hcall
      | ok r =>
          rw [hinit] at hcall
          cases hcall
          exact h.devfsInit hA hinit
  | addDev name dev =>
      simp only [call] at hcall
      split at hcall
      · cases hcall
      · rename_i h0
        cases hadd : devfsAddDev A.watch s name dev with
        | error why =>
            rw [hadd] at hcall
            cases hcall
        | ok r =>
            rw [hadd] at hcall
            cases hcall
            obtain ⟨role', h'⟩ := h.devfsAddDev hA h0 hadd hmem
            exact ⟨role', later, h'⟩

theorem startTree_grown {s s' : Fs.State (H × Bool)} {archive : Mem} {last data size : U64} {type : U32}
    (hA : AllocatorSpec A inUse) (hrecords : s.records = fun _ => none) (hdevfs : s.devfsRoot = 0)
    (hres : startTree A s archive last type data size = some s') : s'.heap.2 = true ∧
      ∃ role later, Fs.Grown inUse role later s' := by
  rw [startTree, Option.bind_eq_some_iff] at hres
  obtain ⟨t, ht, hres⟩ := hres
  rw [Option.filter_eq_some_iff] at ht hres
  obtain ⟨ht, hmem⟩ := ht
  cases ht
  obtain ⟨hramfs, hmem'⟩ := hres
  refine ⟨hmem', ?_⟩
  obtain ⟨⟨role, h⟩, h0⟩ := Fs.Grown.vfsInit hA hrecords hdevfs hmem
  cases hinit : ramfsInit A.watch ⟨vfsInit A.watch s, archive, last⟩ (vfsInit A.watch s).rootMount type data size with
  | error why =>
      rw [hinit] at hramfs
      cases hramfs
  | ok r =>
      rw [hinit] at hramfs
      cases hramfs
      exact Fs.Grown.ramfsInit (u := ⟨vfsInit A.watch s, archive, last⟩) h hA h0 hinit

/-! ## The tree -/

theorem Grown.wellFormed {s : Fs.State (H × Bool)} (h : Fs.Grown inUse role later s) (hmem : s.heap.2 = true) :
    WellFormed s.toVfs := by
  have hlist : ∀ p ∈ s.vnodes, ∀ ks, ChildList s.toVfs p ks → ∀ k ∈ ks, k ∈ s.vnodes ∧ (s.nodes k).parent = p ∧
      k ≠ (s.mounts s.rootMount).root := by
    intro p hp ks hks
    obtain ⟨js, hjs, hmem⟩ := h.shape.children p hp
    rw [hks.unique hjs]
    exact hmem
  refine ⟨h.shape.reached, fun p hp => ?_, fun v hv hvr => ?_, h.shape.siblings hmem, fun p hp ks hks hne => ?_, h.data⟩
  · obtain ⟨ks, hks, hks'⟩ := h.shape.children p hp
    exact ⟨ks, hks, fun k hk => ⟨(hks' k hk).1, (hks' k hk).2.2⟩⟩
  · obtain ⟨d, hd⟩ := h.shape.reached v hv
    cases hd with
    | root => exact absurd rfl hvr
    | child hq hjs hvj =>
        rename_i q js
        have hqT := h.shape.atDepth_mem hq
        have hparent := (hlist q hqT js hjs v hvj).2.1
        rw [hparent]
        refine ⟨hqT, fun p hp ks hks => ?_⟩
        split
        · rename_i hpq
          subst hpq
          rw [hks.unique hjs]
          exact List.count_eq_one_of_mem hjs.nodup hvj
        · rename_i hpq
          refine List.count_eq_zero_of_not_mem fun hc => hpq ?_
          rw [← (hlist p hp ks hks v hc).2.1, hparent]
  · refine h.shape.dirs p hp fun h0 => hne ?_
    have hnil : Chain (fun n => (s.nodes n).next) 0 (s.nodes p).child [] := h0
    exact hks.unique hnil

/-- Whatever calls create vnodes after the start of the file system, the vnodes are a well-formed tree. -/
theorem vnodes_wellFormed {s t t' : Fs.State (H × Bool)} {archive : Mem} {last data size : U64} {type : U32}
    {ops : List (TreeOp H)} (hA : AllocatorSpec A inUse) (hrecords : s.records = fun _ => none) (hdevfs : s.devfsRoot = 0)
    (hstart : startTree A s archive last type data size = some t) (hrun : run (TreeOp.exec A) t ops = some t') :
    WellFormed t'.toVfs := by
  obtain ⟨hmem, role, later, h⟩ := run_invariant
    (I := fun s => s.heap.2 = true ∧ ∃ role later, Fs.Grown inUse role later s)
    (fun hs hres => (by obtain ⟨_, role, later, h⟩ := hs; exact TreeOp.grown hA h hres))
    (startTree_grown hA hrecords hdevfs hstart) hrun
  exact Grown.wellFormed h hmem

/-- The sample file system before its start. -/
def sampleStart : Fs.State (U64 × Bool) :=
  { toVfs := { sampleFs.toVfs with records := fun _ => none }, mm := sampleFs.mm, heap := (0x1000, true) }

/-- A process that opens files. -/
def sampleOpener : Kernel (U64 × Bool) where
  mm := sampleMachine
  heap := (0, true)
  pcbs := sampleProcs.pcbs
  procs := 0x8000
  table := fun _ => 0x9000
  count := 1
  currentPid := 0
  locked := false
  stdout := 0

/-- The devices, a file "/a" that a process creates, and a directory of the root. -/
def sampleTreeOps : List (TreeOp U64) :=
  [.devfsInit, .addDev stdoutName .stdout, .open sampleOpener (some [slash, 97]) oCreate 2, .create 0x1030 [98] vnodeDir]

def sampleGrown : Option (Fs.State (U64 × Bool)) :=
  (startTree bumpAllocator sampleStart (fun _ => 0) 0 0 0 0).bind fun t => run (TreeOp.exec bumpAllocator) t sampleTreeOps

theorem sampleGrown_eval :
    sampleGrown.any (fun s => s.devfsRoot ≠ 0 ∧ vfsLazyLookup s.toVfs s.rootMount (some [slash, 98]) ≠ 0) = true := by
  decide +kernel

theorem vnodes_wellFormed_sample : sampleGrown.isSome = true ∧ ∃ t, sampleGrown = some t ∧ WellFormed t.toVfs := by
  obtain ⟨t', ht', _⟩ := (Option.any_eq_true _ _).mp sampleGrown_eval
  refine ⟨by rw [ht']; rfl, t', ht', ?_⟩
  obtain ⟨t, ht, hrun⟩ := Option.bind_eq_some_iff.mp ht'
  exact vnodes_wellFormed bumpAllocator_spec rfl rfl ht hrun

end ShadowOS.Sys
