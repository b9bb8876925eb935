import ShadowOS.Sys.Lemmas.Status

/-!
# Open with creation
-/

namespace ShadowOS.Sys

open Mm Proc Fs

variable {H : Type} {A : Allocator H} {inUse : H → Set U64} {role : U64 → Option Role} {T : Set U64} {live : List U64}
  {s s' : System H} {fd : U32} {path : CString} {node : U64}

/-! ## The descriptor -/

theorem addVnode_room (hcur : s.current ≠ 0) (htable : s.table (s.pcbs s.current).pid.toNat = s.current) (h0 : node ≠ 0)
    (hroom : HasRoom s) : ∃ fd k, schedulerProcAddVnode s.toKernel (s.pcbs s.current).pid node = .ok (fd, k) ∧
      0 ≤ fd.toInt ∧ vnodeOf (s.setKernel k) fd = node := by
  have hfew := hroom.2
  have hentry : ¬ (s.count ≤ (s.pcbs s.current).pid ∨ s.current = 0) := by
    rw [not_or, BitVec.not_le]
    exact ⟨hroom.1, hcur⟩
  have hlt : (s.pcbs s.current).fdCount.toNat < 1024 := by
    rw [BitVec.lt_def] at hfew
    simpa [procMaxFds] using hfew
  have hfd : ((s.pcbs s.current).fdCount.setWidth 32).toNat = (s.pcbs s.current).fdCount.toNat :=
    setWidth_toNat (by omega)
  have hpos : 0 ≤ ((s.pcbs s.current).fdCount.setWidth 32).toInt := by
    rw [BitVec.toInt_eq_toNat_cond, hfd, if_pos (by omega)]
    exact Int.natCast_nonneg _
  refine ⟨(s.pcbs s.current).fdCount.setWidth 32, ?_⟩
  simp only [schedulerProcAddVnode, if_neg hentry, if_neg h0, htable, if_pos hfew, BitVec.add_sub_cancel]
  refine ⟨_, rfl, hpos, ?_⟩
  change (Function.update s.pcbs s.current _ s.current).fdTable _ = node
  rw [Function.update_self, hfd]
  exact Function.update_self _ _ _

theorem addVnode_full (htable : s.table (s.pcbs s.current).pid.toNat = s.current) (h0 : node ≠ 0) (hroom : ¬ HasRoom s) :
    schedulerProcAddVnode s.toKernel (s.pcbs s.current).pid node = .ok (-1, s.toKernel) := by
  rw [schedulerProcAddVnode]
  split
  · rfl
  · rename_i hentry
    rw [not_or, BitVec.not_le] at hentry
    have hfull : ¬ (s.pcbs s.current).fdCount < BitVec.ofNat 64 procMaxFds := fun hfew => hroom ⟨hentry.1, hfew⟩
    simp only [htable, if_neg hfull]

/-- A vnode that is there gets a descriptor, if there is one left. -/
theorem sysOpen_node {flags : U64} {kind : U8} {fs : Fs.State H} (hcur : s.current ≠ 0)
    (htable : s.table (s.pcbs s.current).pid.toNat = s.current)
    (hres : openVnode A s (some path) flags kind = .ok (node, fs)) (h0 : node ≠ 0) :
    ∃ fd s', sysOpen A s (some path) flags kind = .ok (fd, s') ∧ s'.toVfs = (accessVnode fs node).toVfs ∧
      (HasRoom s → 0 ≤ fd.toInt ∧ vnodeOf s' fd = node) ∧ (¬ HasRoom s → fd.toInt < 0) := by
  by_cases hroom : HasRoom s
  · obtain ⟨fd, k, hadd, hfd, hnode⟩ :=
      addVnode_room (s := s.setFs (accessVnode fs node)) hcur htable h0 hroom
    exact ⟨fd, _, sysOpen_vnode hcur hres h0 hadd, rfl, fun _ => ⟨hfd, hnode⟩, fun hc => absurd hroom hc⟩
  · have hadd := addVnode_full (s := s.setFs (accessVnode fs node)) htable h0 hroom
    exact ⟨-1, _, sysOpen_vnode hcur hres h0 hadd, rfl, fun hc => absurd hc hroom, fun _ => by decide⟩

/-! ## The vnode -/

namespace SysInv

theorem openVnode_found (h : SysInv inUse role T live s) (hfound : found s path ≠ 0) (kind : U8) :
    Sys.openVnode A s (some path) oCreate kind = .ok (found s path, s.fs) := by
  have hmount : (s.nodes (s.mounts s.rootMount).root).mount = s.rootMount := h.fs.mount
  simp only [Sys.openVnode, hmount]
  rw [if_neg fun hc => hfound hc.2]
  rfl

theorem openVnode_create {kind : U8} (h : SysInv inUse role T live s) (hnone : found s path = 0) :
    Sys.openVnode A s (some path) oCreate kind = liftFs (vfsCreateVnode A s.fs
      (vfsLazyLookupLast s.toVfs s.rootMount (some path)) (filenameFromPath path) (kind.setWidth 32)) := by
  have hmount : (s.nodes (s.mounts s.rootMount).root).mount = s.rootMount := h.fs.mount
  simp only [Sys.openVnode, hmount]
  rw [if_pos ⟨by decide, hnone⟩]

end SysInv

theorem sameVnode_access {fs : Fs.State H} (node : U64) (v : U64) :
    SameVnode ((accessVnode fs node).nodes v) (fs.nodes v) :=
  FsInv.sameVnode_update fs.nodes (FsInv.sameVnode_touch _ _ _ _) v

theorem lookup_access {fs : Fs.State H} (h : FsInv inUse role T fs) (node : U64) (path : CString) :
    vfsLazyLookup (accessVnode fs node).toVfs (accessVnode fs node).rootMount (some path) =
      vfsLazyLookup fs.toVfs fs.rootMount (some path) := by
  have hmounts : (accessVnode fs node).mounts = fs.mounts := rfl
  have hroot : (accessVnode fs node).rootMount = fs.rootMount := rfl
  exact h.lookup_same hmounts hroot (fun v _ => sameVnode_access node v) path

/-- What `open` can do with a path. -/
inductive Outcome (inUse : H → Set U64) (T : Set U64) (s : System H) (path : CString) (fd : U32) (s' : System H) : Prop where
  | opened (hfound : found s path ≠ 0) (hsame : ∀ v ∈ T, SameVnode (s'.nodes v) (s.nodes v))
      (hroom : HasRoom s → 0 ≤ fd.toInt) (hfull : ¬ HasRoom s → fd.toInt < 0)
  | refused (hfound : found s path = 0) (hallows : ¬ Allows s path) (hfd : fd.toInt < 0)
      (hsame : ∀ v ∈ T, SameVnode (s'.nodes v) (s.nodes v))
  | created (hfound : found s path = 0) (hallows : Allows s path) {fs : Fs.State H} {n d : U64} {new : Vnode}
      (hcreated : Created inUse s.fs fs (vfsLazyLookupLast s.toVfs s.rootMount (some path)) n d new)
      (hname : new.name = some (filenameFromPath path)) (hlookup : found s' path = vfsLazyLookup fs.toVfs fs.rootMount (some path))
      (hsame : ∀ v ∈ T, SameVnode (s'.nodes v) (fs.nodes v))
      (hroom : HasRoom s → 0 ≤ fd.toInt ∧ vnodeOf s' fd = n) (hfull : ¬ HasRoom s → fd.toInt < 0)

theorem SysInv.open_outcome (h : SysInv inUse role T live s) (hA : AllocatorSpec A inUse) (hcur : s.current ≠ 0)
    (hpath : path.head? = some slash) (hmem : Memory A s.fs (filenameFromPath path)) (kind : U8) :
    ∃ fd s', Sys.sysOpen A s (some path) oCreate kind = .ok (fd, s') ∧ Outcome inUse T s path fd s' := by
  have htable := h.table_pid hcur
  by_cases hfound : found s path = 0
  · have hlast := h.fs.last_mem hpath
    obtain ⟨n, fs, hres, hcases⟩ := vfsCreateVnode_cases (filenameFromPath path) (kind.setWidth 32) hA
      (h.fs.ne_zero hlast) (h.fs.mem_inUse hlast) (h.fs.unlocked _ hlast) (h.fs.dirs _ hlast)
    have hopen : Sys.openVnode A s (some path) oCreate kind = .ok (n, fs) := by
      rw [h.openVnode_create hfound]
      exact congrArg liftFs hres
    rcases hcases with ⟨rfl, hsame, hno, _⟩ | ⟨d, new, hcreated, hcan, _, _, hname, _⟩
    · refine ⟨_, _, sysOpen_null hcur hopen, .refused hfound (hno hmem) (by decide) fun v hv => ?_⟩
      change SameVnode (fs.nodes v) (s.nodes v)
      rw [hsame.nodes v (h.fs.mem_inUse hv)]
      exact .refl _
    · rw [if_pos hmem] at hname
      obtain ⟨fd, s', hres', hvfs, hroom, hfull⟩ := sysOpen_node hcur htable hopen hcreated.vnode.1
      have hnodes : s'.nodes = (accessVnode fs n).nodes := congrArg Vfs.nodes hvfs
      refine ⟨fd, s', hres', .created hfound hcan hcreated hname ?_ (fun v _ => ?_) hroom hfull⟩
      · rw [found, hvfs]
        exact lookup_access (h.fs.created hlast hcreated) n path
      · rw [hnodes]
        exact sameVnode_access n v
  · obtain ⟨fd, s', hres, hvfs, hroom, hfull⟩ := sysOpen_node hcur htable (h.openVnode_found (A := A) hfound kind) hfound
    have hnodes : s'.nodes = (accessVnode s.fs (found s path)).nodes := congrArg Vfs.nodes hvfs
    refine ⟨fd, s', hres, .opened hfound (fun v _ => ?_) (fun hr => (hroom hr).1) hfull⟩
    rw [hnodes]
    exact sameVnode_access _ v

/-! ## The path -/

/-- With parents that are directories, a short name and no slash after it, the path leads to what was created. -/
theorem SysInv.found_created {fs : Fs.State H} {n d : U64} {new : Vnode} (h : SysInv inUse role T live s)
    (hpath : path.head? = some slash) (hparents : ParentsExist s.nodes (s.mounts s.rootMount).root path)
    (hslash : path.getLast? ≠ some slash) (hshort : ∀ c ∈ components path, c.length ≤ 255) (hnone : found s path = 0)
    (hs : Created inUse s.fs fs (vfsLazyLookupLast s.toVfs s.rootMount (some path)) n d new)
    (hname : new.name = some (filenameFromPath path)) : vfsLazyLookup fs.toVfs fs.rootMount (some path) = n := by
  obtain ⟨hlast, _⟩ | ⟨_, ps, hcomps⟩ := filenameFromPath_cases hpath
  · exact absurd hlast hslash
  · refine h.fs.lookup_created hpath ((pieces_eq_components hpath hshort).trans hcomps) (fun i hi hlen => ?_) hnone hs hname
    have hdir := hparents i hi (by rw [hcomps, List.length_append, List.length_singleton]; omega)
    rwa [hcomps, List.take_append_of_le_length hlen] at hdir

/-- A name that ends with a slash, or that is too long, is none that a walk looks for. -/
theorem filename_notMem_pieces (hpath : path.head? = some slash)
    (hshort : ∀ c ∈ (components path).dropLast, c.length ≤ 255)
    (hbad : ¬ (path.getLast? ≠ some slash ∧ ∀ c ∈ components path, c.length ≤ 255)) :
    filenameFromPath path ∉ pieces path := by
  intro hmem
  obtain ⟨_, hslash⟩ | ⟨hlast, ps, hcomps⟩ := filenameFromPath_cases hpath
  · exact piecesFrom_slash _ hmem hslash
  · refine hbad ⟨hlast, fun c hc => ?_⟩
    rw [hcomps] at hc hshort
    rcases List.mem_append.mp hc with hc | hc
    · exact hshort c (by rwa [List.dropLast_concat])
    · rw [List.mem_singleton.mp hc]
      exact pieces_length_le path _ hmem

theorem SysInv.found_elsewhere {fs : Fs.State H} {n d : U64} {new : Vnode} (h : SysInv inUse role T live s)
    (hpath : path.head? = some slash) (hnone : found s path = 0)
    (hs : Created inUse s.fs fs (vfsLazyLookupLast s.toVfs s.rootMount (some path)) n d new)
    (hname : new.name = some (filenameFromPath path)) (hpieces : filenameFromPath path ∉ pieces path) :
    vfsLazyLookup fs.toVfs fs.rootMount (some path) = 0 := by
  rw [h.fs.lookup_created_of_ne (h.fs.last_mem hpath) hs]
  · exact hnone
  · intro c hc hcname
    rw [hname] at hcname
    exact hpieces (Option.some.inj hcname ▸ hc)

end ShadowOS.Sys
