import ShadowOS.Fs.Devfs
import ShadowOS.Fs.Lemmas.FullPath
import ShadowOS.Fs.Lemmas.Ramfs
import ShadowOS.Proc.Lemmas.Allocator
import ShadowOS.Proc.SchedulerTheorems

/-!
# Theorems about the file system
-/

namespace ShadowOS.Fs

open Proc (bumpAllocator sampleMachine)

/-! ## Files stay in their blocks -/

/-- Over any reads and writes of a new file, the file stays no longer than its block and every access stays inside of
it exactly when no write starts in the file and ends past it. -/
theorem ramfs_stays_in_block_iff {H : Type} {A : Proc.Allocator H} {s₀ s : State H} {self v : U64} {name : CString}
    {ops : List FileOp} (hcreate : ramfsCreate A s₀ self name vnodeFile = (v, s)) (hv : v ≠ 0)
    (hwrap : ∀ op ∈ ops, op.NoWrap) :
    AllStates (FileOp.exec A v) (Bounded v) s ops ∧
        AllSteps (FileOp.exec A v) (fun s op => ∀ a ∈ op.accesses A v s, a.Inside) s ops ↔
      AllSteps (FileOp.exec A v) (FileOp.Fits v) s ops := by
  have hstart : FileInv v s := .create hcreate hv
  have hD : AllSteps (FileOp.exec A v) (fun _ op => op.NoWrap) s ops := allSteps_of_forall hwrap
  have hrun : run (FileOp.exec A v) s ops ≠ none := run_ne_none (fun s op => by cases op <;> simp [FileOp.exec])
  have hiff := allStates_iff_allSteps (P := Bounded v) (C := FileOp.Fits v) FileInv.bounded
    (fun h hd hc he => h.step hd hc he) (fun h hd he hp => h.fits hd he hp) hstart hD hrun
  refine ⟨fun h => hiff.mp h.1, fun hfits => ⟨hiff.mpr hfits, ?_⟩⟩
  have hinv := (hD.and hfits).allStates (fun h hc he => h.step hc.1 hc.2 he) hstart
  exact (hD.and hfits).mono_states (fun h hc => h.inside hc.1 hc.2) hinv

/-- A root directory without children. -/
def sampleRootNode : Vnode :=
  { Vnode.zero with parent := 0x800, mount := 0x400, type := vnodeDir, name := some [47], ops := some .ramfs }

/-- A file system with one mount and an empty root. -/
def sampleFs : State U64 where
  nodes := Function.update (fun _ => Vnode.zero) 0x800 sampleRootNode
  mounts := fun _ => ⟨0x800, 0, 0, [], 0, 0⟩
  rootMount := 0x400
  devfsRoot := 0
  ramfs := fun _ => ⟨0, 0⟩
  blocks := fun _ => ⟨0, fun _ => 0xcc⟩
  devs := fun _ => .stdout
  records := Function.update (fun _ => none) 0x800 (some .vnode)
  scancode := none
  clock := fun i => BitVec.ofNat 32 i
  reads := 0
  mm := Proc.sampleMachine
  heap := 0x1000

/-- A new file of the sample file system. -/
def sampleFile : U64 × State U64 := ramfsCreate bumpAllocator sampleFs 0x800 [97] vnodeFile

theorem ramfs_stays_in_block_iff_sample :
    AllStates (FileOp.exec bumpAllocator sampleFile.1) (Bounded sampleFile.1) sampleFile.2
      [.write (fun _ => 65) 4 0, .write (fun _ => 66) 4 4, .read 0x2000 8 2] := by
  have hcreate : ramfsCreate bumpAllocator sampleFs 0x800 [97] vnodeFile = (sampleFile.1, sampleFile.2) := by
    rw [Prod.mk.eta, sampleFile]
  have hv : sampleFile.1 ≠ 0 := by decide
  refine ((ramfs_stays_in_block_iff hcreate hv ?_).mpr ?_).1
  · simp [FileOp.NoWrap]
  · decide

/-- Four bytes, and then four more from the third on: the file ends two bytes past its block. -/
theorem ramfs_leaves_block :
    ¬ AllStates (FileOp.exec bumpAllocator sampleFile.1) (Bounded sampleFile.1) sampleFile.2
      [.write (fun _ => 65) 4 0, .write (fun _ => 66) 4 2] := by
  decide +kernel

/-! ## Lookups -/

/-- In a single mount, what a lookup returns is reached by every component of the path exactly when no vnode on the way
is other than a directory, and no component is too long for the buffer unless its pieces lead nowhere. -/
theorem lazy_lookup_sound_iff {s : Vfs} {mount : U64} {path : CString} {T : Set U64} (hm : mount ≠ 0)
    (hnext : (s.mounts mount).next = 0) (htree : VnodeTree s.nodes (s.mounts mount).root T)
    (hpath : path.head? = some slash) :
    (∀ n, vfsLazyLookup s mount (some path) = n → n ≠ 0 →
        follow s.nodes (s.mounts mount).root (components path) = n) ↔
      ThroughDirs s.nodes (s.mounts mount).root path ∧
        (follow s.nodes (s.mounts mount).root (pieces path) ≠ 0 → ∀ c ∈ components path, c.length ≤ 255) := by
  have hr := htree.root_ne
  rw [vfsLazyLookup_single hm hpath hr hnext]
  constructor
  · intro h
    have hdirs : ThroughDirs s.nodes (s.mounts mount).root path := by
      intro i hi hlen hne
      by_contra hdir
      obtain ⟨j, _, hjlen, hjne, hl⟩ := lazyNames_of_not_dir hi hlen hne hdir
      have hsame := htree.follow_inj hjne (h _ (by rw [hl, Option.getD_some]) hjne).symm
      -- the components are pieces, so none was cut
      have hshort : ∀ c ∈ components path, c.length ≤ 255 := by
        rw [← hsame]
        exact fun c hc => pieces_length_le path c (List.mem_of_mem_take hc)
      rw [← pieces_eq_components hpath hshort] at hsame
      have hlength := congrArg List.length hsame
      rw [List.length_take] at hlength
      omega
    refine ⟨hdirs, fun hne => ?_⟩
    have hl := lazyNames_of_dirs hr hdirs
    rw [if_neg hne] at hl
    rw [← htree.follow_inj hne (h _ (by rw [hl, Option.getD_some]) hne).symm]
    exact pieces_length_le path
  · rintro ⟨hdirs, hshort⟩ n hn hne
    rw [lazyNames_of_dirs hr hdirs] at hn
    split at hn
    · exact absurd hn.symm hne
    · rename_i h0
      rw [← pieces_eq_components hpath (hshort h0)]
      exact hn

theorem sampleFile_tree : VnodeTree sampleFile.2.nodes 0x800 {0x800, 0x1000} := by
  refine ⟨by simp, by simp, fun n hn => ?_⟩
  rcases hn with rfl | rfl
  · refine ⟨[0x1000], by decide, ?_⟩
    simp only [List.mem_singleton, forall_eq]
    exact ⟨by simp, by decide, by decide⟩
  · exact ⟨[], by decide, by simp⟩

theorem lazy_lookup_sound_iff_sample :
    follow sampleFile.2.nodes 0x800 (components [47, 97]) = 0x1000 ∧
      vfsLazyLookup sampleFile.2.toVfs 0x400 (some [47, 97]) = 0x1000 := by
  have hlookup : vfsLazyLookup sampleFile.2.toVfs 0x400 (some [47, 97]) = 0x1000 := by decide
  have htree : VnodeTree sampleFile.2.nodes (sampleFile.2.mounts 0x400).root {0x800, 0x1000} := sampleFile_tree
  have hdirs : ThroughDirs sampleFile.2.nodes (sampleFile.2.mounts 0x400).root [47, 97] := by
    intro i hi hlen
    have hlength : (pieces [47, 97]).length = 1 := by decide
    omega
  have hshort : ∀ c ∈ components [47, 97], c.length ≤ 255 := by decide
  exact ⟨(lazy_lookup_sound_iff (by decide) rfl htree rfl).mpr ⟨hdirs, fun _ => hshort⟩ _ hlookup (by decide), hlookup⟩

/-- "/a/b" gives the file at "/a", although it has no child. -/
theorem lazy_lookup_stops_early :
    vfsLazyLookup sampleFile.2.toVfs 0x400 (some [47, 97, 47, 98]) = 0x1000 ∧
      follow sampleFile.2.nodes 0x800 (components [47, 97, 47, 98]) = 0 := by
  decide

/-- In a single mount where only directories have children, both walks give the same vnode, and when the lookup finds none, the
other one gives the vnode of the longest part of the path that leads somewhere. -/
theorem lookups_agree {s : Vfs} {mount : U64} {path : CString} {T : Set U64} (hm : mount ≠ 0)
    (hnext : (s.mounts mount).next = 0) (htree : VnodeTree s.nodes (s.mounts mount).root T)
    (hdirs : ∀ n ∈ T, (s.nodes n).child ≠ 0 → (s.nodes n).type = vnodeDir) (hpath : path.head? = some slash) :
    (vfsLazyLookup s mount (some path) ≠ 0 → vfsLazyLookupLast s mount (some path) = vfsLazyLookup s mount (some path)) ∧
      (vfsLazyLookup s mount (some path) = 0 → ∃ i ≤ (pieces path).length,
        vfsLazyLookupLast s mount (some path) = follow s.nodes (s.mounts mount).root ((pieces path).take i) ∧
        follow s.nodes (s.mounts mount).root ((pieces path).take i) ≠ 0 ∧
        ∀ j ≤ (pieces path).length, follow s.nodes (s.mounts mount).root ((pieces path).take j) ≠ 0 → j ≤ i) := by
  have hr := htree.root_ne
  rw [vfsLazyLookup_single hm hpath hr hnext, vfsLazyLookupLast_eq hm hpath hr]
  constructor
  · intro hne
    cases hl : lazyNames s.nodes (s.mounts mount).root (pieces path) with
    | none =>
        rw [hl] at hne
        exact absurd rfl hne
    | some n => exact lastNames_of_lazyNames htree hdirs htree.root_mem hl
  · intro _
    obtain ⟨i, hi, hne, hlast, hmax⟩ := lastNames_longest s.nodes (pieces path) hr
    exact ⟨i, hi, hlast, hne, hmax⟩

theorem lookups_agree_sample :
    vfsLazyLookupLast sampleFile.2.toVfs 0x400 (some [47, 97, 47, 98]) =
      vfsLazyLookup sampleFile.2.toVfs 0x400 (some [47, 97, 47, 98]) := by
  have htree : VnodeTree sampleFile.2.nodes (sampleFile.2.mounts 0x400).root {0x800, 0x1000} := sampleFile_tree
  have hdirs : ∀ n ∈ ({0x800, 0x1000} : Set U64), (sampleFile.2.nodes n).child ≠ 0 → (sampleFile.2.nodes n).type = vnodeDir := by
    rintro n (rfl | rfl)
    · decide
    · decide
  exact (lookups_agree (by decide) rfl htree hdirs rfl).1 (by decide)

/-! ## Mounts -/

/-- A path is routed to the right mount when the root mount resolves it or no other one does, and for short components
and paths through directories only then. -/
theorem mount_routing_iff {s : Vfs} {path : CString} {later : List U64} (hpath : path.head? = some slash)
    (hlist : Chain (fun m => (s.mounts m).next) 0 s.rootMount (s.rootMount :: later))
    (hroot : (s.mounts s.rootMount).root ≠ 0)
    (hpoint : ∀ M ∈ later, (s.mounts M).mountpoint.head? = some slash)
    (htree : ∀ M ∈ later, (s.mounts M).root ≠ 0 → ∃ T, VnodeTree s.nodes (s.mounts M).root T) :
    ((resolve s s.rootMount path ≠ none ∨ NoneResolves s path later) →
      ∀ M n, FallsBack s later path M n → Routed s path M n) ∧
    ((∀ c ∈ components path, c.length ≤ 255) → (∀ M ∈ later, ThroughDirs s.nodes (s.mounts M).root path) →
      (∀ M n, FallsBack s later path M n → Routed s path M n) →
      resolve s s.rootMount path ≠ none ∨ NoneResolves s path later) := by
  constructor
  · rintro hcond M n ⟨_, _, hnone, before, after, rfl, hbefore, hM, hn⟩
    rcases hcond with hres | hres
    · exact absurd hnone hres
    · rw [hres.resolve_eq_none (fun m hm => (hbefore m hm).1) hM] at hn
      cases hn
  · intro hshort hdirs hrouted
    by_contra hc
    rw [not_or, not_not] at hc
    obtain ⟨hnone, hc⟩ := hc
    obtain ⟨before, M, after, n, rfl, hbefore, hM, hn⟩ := not_noneResolves hc
    have hmem : M ∈ before ++ M :: after := by simp
    obtain ⟨T, htree⟩ := htree M hmem hM
    have hn0 : n ≠ 0 := lazyNames_ne_zero hM (by rw [← resolve_eq]; exact hn)
    have hfuel : (s.rootMount :: before).length < maxCells := by
      have hlen := length_le_maxCells hlist.nodup
      simp only [List.length_cons, List.length_append] at hlen ⊢
      omega
    have hlist' : Chain (fun m => (s.mounts m).next) 0 s.rootMount ((s.rootMount :: before) ++ M :: after) := hlist
    have hlookup : vfsLazyLookup s s.rootMount (some path) = n :=
      lazyLookupFrom_eq hlist' hfuel hpath (List.forall_mem_cons.mpr ⟨⟨hroot, hnone⟩, hbefore⟩) hM hn
    obtain ⟨rest, hrest, habs, hfollow⟩ := hrouted M n ⟨hlookup, hn0, hnone, before, after, rfl, hbefore, hM, hn⟩
    -- the whole path and the rest of it would lead to the same vnode
    rw [resolve_eq, lazyNames_of_dirs hM (hdirs M hmem), pieces_eq_components hpath hshort] at hn
    split at hn
    · cases hn
    · rename_i h0
      have hsame := htree.follow_inj h0 ((Option.some.inj hn).trans hfollow.symm)
      rw [hrest] at hsame hpath hshort hnone
      have hnil := components_append_ne (hpoint M hmem) habs hsame
      rw [resolve_eq, pieces_eq_components hpath hshort, hnil] at hnone
      cases hnone

/-- The bytes of "stdout". -/
def stdoutName : CString := [115, 116, 100, 111, 117, 116]

/-- The sample file system with devices. -/
def sampleDevfs : State U64 :=
  match devfsInit bumpAllocator sampleFs with
  | .ok (some s) => ((devfsAddDev bumpAllocator s stdoutName .stdout).toOption.map Prod.snd).getD s
  | _ => sampleFs

theorem sampleDevfs_tree : VnodeTree sampleDevfs.nodes 0x1000 {0x1000, 0x10b7} := by
  refine ⟨by simp, by simp, fun n hn => ?_⟩
  rcases hn with rfl | rfl
  · refine ⟨[0x10b7], by decide, ?_⟩
    simp only [List.mem_singleton, forall_eq]
    exact ⟨by simp, by decide, by decide⟩
  · exact ⟨[], by decide, by simp⟩

theorem mount_routing_iff_sample :
    resolve sampleDevfs.toVfs sampleDevfs.rootMount (devPath ++ slash :: stdoutName) ≠ none ∧
    ∀ M n, FallsBack sampleDevfs.toVfs [sampleDevfs.devfsRoot] (devPath ++ slash :: stdoutName) M n →
      Routed sampleDevfs.toVfs (devPath ++ slash :: stdoutName) M n := by
  have htree : VnodeTree sampleDevfs.nodes (sampleDevfs.mounts sampleDevfs.devfsRoot).root {0x1000, 0x10b7} := by
    have hroot : (sampleDevfs.mounts sampleDevfs.devfsRoot).root = 0x1000 := by decide +kernel
    rw [hroot]
    exact sampleDevfs_tree
  have hfound : resolve sampleDevfs.toVfs sampleDevfs.rootMount (devPath ++ slash :: stdoutName) ≠ none := by
    decide +kernel
  refine ⟨hfound, (mount_routing_iff rfl (by decide +kernel) (by decide +kernel) ?_ ?_).1 (.inl hfound)⟩
  · simp only [List.mem_singleton, forall_eq]
    decide +kernel
  · simp only [List.mem_singleton, forall_eq]
    exact fun _ => ⟨_, htree⟩

/-- "/stdout" gives the device at "/dev/stdout". -/
theorem mount_misrouted :
    FallsBack sampleDevfs.toVfs [sampleDevfs.devfsRoot] (slash :: stdoutName) sampleDevfs.devfsRoot
        (vfsLazyLookup sampleDevfs.toVfs sampleDevfs.rootMount (some (devPath ++ slash :: stdoutName))) ∧
      ¬ Routed sampleDevfs.toVfs (slash :: stdoutName) sampleDevfs.devfsRoot
        (vfsLazyLookup sampleDevfs.toVfs sampleDevfs.rootMount (some (devPath ++ slash :: stdoutName))) := by
  refine ⟨⟨by decide +kernel, by decide +kernel, by decide +kernel, [], [], rfl, by simp, by decide +kernel,
    by decide +kernel⟩, ?_⟩
  have hpoint : (sampleDevfs.mounts sampleDevfs.devfsRoot).mountpoint = devPath := by decide
  rintro ⟨rest, hrest, _⟩
  rw [hpoint] at hrest
  simp [devPath, devName, stdoutName] at hrest

/-! ## Full paths -/

/-- In a mount whose root is its own parent, the full path of a vnode leads to this vnode. -/
theorem full_path_lookup {H : Type} {A : Proc.Allocator H} {s : State (H × Bool)} {mount n : U64} {T : Set U64} {d : Nat}
    (hm : mount ≠ 0) (htree : NamedTree s.nodes (s.mounts mount).root T)
    (hroot : (s.nodes (s.mounts mount).root).parent = (s.mounts mount).root)
    (hn : AtDepth s.nodes (s.mounts mount).root d n) (hd : d ≤ 1000) :
    ∃ r s', vfsGetFullPath A.watch s n = .ok (r, s') ∧
      (s'.heap.2 = true → ∃ path, r = some path ∧ vfsLazyLookup s'.toVfs mount (some path) = n) := by
  have hfuel : maxCells = (2 ^ 64 - 1) + 1 := rfl
  obtain ⟨cs, hlen, hleads, hclimbs⟩ := htree.ways hroot hn
  have hfound : ∀ path, path.head? = some slash → pieces path = cs → vfsLazyLookup s.toVfs mount (some path) = n := by
    intro path hpath hpieces
    rw [vfsLazyLookup, hfuel, lazyLookupFrom_succ s.toVfs hm hpath htree.root_ne, hpieces,
      hleads.lazyNames htree (htree.atDepth_mem hn)]
  by_cases hne : cs = []
  · have hn' : n = (s.mounts mount).root := by
      rw [← hleads.follow, hne]
      rfl
    rcases hk : A.watch.kmalloc s.mm s.heap 2 with ⟨p, mm, heap⟩
    refine ⟨if p = 0 then none else some [slash], { s with mm := mm, heap := heap }, ?_, fun hheap => ?_⟩
    · have hn0 : n ≠ 0 := by
        rw [hn']
        exact htree.root_ne
      have hself : (s.nodes n).parent = n := by rw [hn', hroot]
      simp only [vfsGetFullPath, if_neg hn0, if_pos hself, State.kmalloc, hk]
      rfl
    · refine ⟨[slash], if_neg (Proc.Allocator.watch_ne_zero hk hheap), hfound [slash] rfl ?_⟩
      rw [hne]
      rfl
  · obtain ⟨size, p, mm, heap, hk, hres⟩ := hclimbs.vfsGetFullPath A.watch hne hleads.names (by omega)
    refine ⟨_, _, hres, fun hheap => ⟨joinPath cs, if_neg (Proc.Allocator.watch_ne_zero hk hheap), ?_⟩⟩
    exact hfound _ (joinPath_head hne) (pieces_joinPath hne hleads.names)

theorem sampleFile_named : NamedTree sampleFile.2.watched.nodes 0x800 {0x800, 0x1000} where
  toVnodeTree := sampleFile_tree
  names n hn hroot := by
    rcases hn with rfl | rfl
    · exact absurd rfl hroot
    · exact ⟨[97], by decide, by decide, by decide, by decide, by decide⟩
  siblings n hn ks hks a ha b hb _ := by
    rcases hn with rfl | rfl
    · have hlist : ks = [0x1000] := hks.unique (by decide)
      rw [hlist, List.mem_singleton] at ha hb
      rw [ha, hb]
    · have hlist : ks = [] := hks.unique (by decide)
      rw [hlist] at ha
      cases ha
  dirs n hn hchild := by
    rcases hn with rfl | rfl
    · decide
    · exact absurd (by decide) hchild

theorem full_path_lookup_sample :
    AtDepth sampleFile.2.watched.nodes 0x800 1 0x1000 ∧
      ∃ r s', vfsGetFullPath bumpAllocator.watch sampleFile.2.watched 0x1000 = .ok (r, s') ∧
        (s'.heap.2 = true → ∃ path, r = some path ∧ vfsLazyLookup s'.toVfs 0x400 (some path) = 0x1000) := by
  have hks : Chain (fun p => (sampleFile.2.watched.nodes p).next) 0 (sampleFile.2.watched.nodes 0x800).child [0x1000] := by
    decide
  have hn : AtDepth sampleFile.2.watched.nodes 0x800 1 0x1000 := .child .root hks (by simp)
  exact ⟨hn, full_path_lookup (by decide) sampleFile_named (by decide) hn (by decide)⟩

/-- The root of the devices is below the root of the kernel: its path is "/dev", but its own mount has nothing there. -/
theorem full_path_not_in_mount :
    NamedTree sampleDevfs.nodes (sampleDevfs.mounts sampleDevfs.devfsRoot).root {0x1000, 0x10b7} ∧
      AtDepth sampleDevfs.nodes (sampleDevfs.mounts sampleDevfs.devfsRoot).root 0 0x1000 ∧
      (vfsGetFullPath bumpAllocator sampleDevfs 0x1000).toOption.map Prod.fst = some (some devPath) ∧
      vfsLazyLookup sampleDevfs.toVfs sampleDevfs.devfsRoot (some devPath) ≠ 0x1000 := by
  have hroot : (sampleDevfs.mounts sampleDevfs.devfsRoot).root = 0x1000 := by decide
  rw [hroot]
  refine ⟨⟨sampleDevfs_tree, ?_, ?_, ?_⟩, .root, by decide +kernel, by decide +kernel⟩
  · rintro n (rfl | rfl) hne
    · exact absurd rfl hne
    · exact ⟨stdoutName, by decide, by decide, by decide, by decide, by decide⟩
  · rintro n (rfl | rfl) ks hks a ha b hb _
    · have hlist : ks = [0x10b7] := hks.unique (by decide)
      rw [hlist, List.mem_singleton] at ha hb
      rw [ha, hb]
    · have hlist : ks = [] := hks.unique (by decide)
      rw [hlist] at ha
      cases ha
  · rintro n (rfl | rfl) hchild
    · decide
    · exact absurd (by decide) hchild

end ShadowOS.Fs
