import ShadowOS.Fs.Lemmas.Grow

/-!
# The start of the file system: its root, an archive and the devices
-/

namespace ShadowOS.Fs

open Proc (watchUse)

variable {H : Type} {A : Proc.Allocator H} {inUse : H → Set U64} {s s' : State (H × Bool)} {role : U64 → Option Role}
  {later : List U64} {path : CString} {n v M mp ty : U64}

namespace Grown

/-! ## Archives -/

/-- A record that is no vnode is set up where there was none. -/
theorem vnodes_record {s s' : Vfs} {p : U64} {r : Record} (hrecords : s'.records = Function.update s.records p (some r))
    (hnone : s.records p = none) (hr : r ≠ .vnode) : s'.vnodes = s.vnodes := by
  ext q
  show s'.records q = some .vnode ↔ s.records q = some .vnode
  rw [hrecords]
  by_cases hq : q = p
  · rw [hq, Function.update_self, hnone]
    simp [hr]
  · rw [Function.update_of_ne hq]

/-- A file gets its bytes. -/
theorem filled {data bytes : U64} {fileSize : U32} {s₁ s₂ : State (H × Bool)} (h : Grown inUse role later s)
    (hA : Proc.AllocatorSpec A inUse) (hn : n ∈ s.vnodes) (hk₁ : s.kmalloc A.watch ramfsDataSize = (data, s₁)) (hd : data ≠ 0)
    (hk₂ : s₁.kmallocBlock A.watch (fileSize.setWidth 64) = (bytes, s₂)) (hb : bytes ≠ 0) (u : Unpacking (H × Bool))
    (header : U64) : (∃ role', Grown inUse role' later (u.fill header fileSize n data bytes s₂)) ∧
      (u.fill header fileSize n data bytes s₂).vnodes = s.vnodes := by
  obtain ⟨hvfs₁, hreq₁⟩ := kmalloc_requested hA.watch hk₁
  have hreq₂ := kmallocBlock_requested hA.watch hk₂
  obtain ⟨hd₀, hd₁⟩ := hreq₁.block hd
  obtain ⟨hb₁, hb₂⟩ := hreq₂.block hb
  have hheap : watchUse inUse s.heap ⊆ watchUse inUse s₂.heap := fun p hp => hreq₂.heap (hreq₁.heap hp)
  obtain ⟨hnodes, _, hmounts, hroot⟩ := kmallocBlock_nodes hk₂
  obtain ⟨hrecords, hdevfs⟩ := kmallocBlock_records hk₂
  rw [hvfs₁] at hnodes hmounts hroot hrecords hdevfs
  replace hnodes : (u.fill header fileSize n data bytes s₂).nodes =
      Function.update s.nodes n (u.fileNode header fileSize data (s.nodes n)) := by
    simp only [Unpacking.fill, hnodes]
  replace hrecords : (u.fill header fileSize n data bytes s₂).records = Function.update s.records data (some .ramfsData) := by
    simp only [Unpacking.fill, hrecords]
  replace hmounts : (u.fill header fileSize n data bytes s₂).mounts = s.mounts := hmounts
  replace hroot : (u.fill header fileSize n data bytes s₂).rootMount = s.rootMount := hroot
  replace hdevfs : (u.fill header fileSize n data bytes s₂).devfsRoot = s.devfsRoot := hdevfs
  have hnone : s.records data = none := by
    by_contra hc
    exact hd₀ (h.recorded data hc)
  have hkept : ∀ p r, s.records p = some r → (u.fill header fileSize n data bytes s₂).records p = some r := by
    intro p r hr
    have hpd : p ≠ data := by
      rintro rfl
      rw [hnone] at hr
      cases hr
    rw [hrecords, Function.update_of_ne hpd, hr]
  have hvnodes : (u.fill header fileSize n data bytes s₂).vnodes = s.vnodes := vnodes_record hrecords hnone (by decide)
  refine ⟨⟨_, h.replace hvnodes (fun p _ => ?_) (by rw [hmounts, hroot]) hheap
    (h.fs.filled hA.watch hn hk₁ hd hk₂ hb u header) (fun v hv => ?_) (fun p hp => ?_)
    (h.mounted.keep hmounts hroot hheap fun p hp => ?_) ?_⟩, hvnodes⟩
  · rw [hnodes]
    by_cases hpn : p = n
    · rw [hpn, Function.update_self]
      exact ⟨rfl, rfl, rfl, rfl, rfl⟩
    · rw [Function.update_of_ne hpn]
      exact .refl _
  · by_cases hvn : v = n
    · unfold HasData
      rw [hvn, hnodes, hrecords, Function.update_self]
      exact .inr (Function.update_self _ _ _)
    · refine (h.data v hv).congr ?_ ?_ hkept
      · rw [hnodes, Function.update_of_ne hvn]
      · rw [hnodes, Function.update_of_ne hvn]
  · rw [hrecords] at hp
    by_cases hpd : p = data
    · rw [hpd]
      exact hreq₂.heap hd₁
    · rw [Function.update_of_ne hpd] at hp
      exact hheap (h.recorded p hp)
  · have hpd : p ≠ data := fun hc => hd₀ (hc ▸ hp)
    have hpb : p ≠ bytes := fun hc => hb₁ (hreq₁.heap (hc ▸ hp))
    rw [Function.update_of_ne hpb, Function.update_of_ne hpd]
  · rw [hdevfs, hmounts]
    exact h.devfs

theorem overArchives (hA : Proc.AllocatorSpec A inUse) :
    OverArchives A.watch fun (s : State (H × Bool)) T => T = s.vnodes ∧ ∃ role later, Grown inUse role later s where
  lookup := by
    rintro s T p c ⟨rfl, role, later, h⟩ hp hfound
    exact (h.fs.tree.lookup hp hfound).1
  dir := by
    rintro u T p header c ⟨rfl, role, later, h⟩ hp
    obtain ⟨n, fs', role', hres, h', hsub, _, _, hnew⟩ := h.vfsCreateVnode hA hp c vnodeDir
    simp only [ustarDir, hres]
    split
    · exact ⟨_, hsub, rfl, role', later, h'⟩
    · rename_i hn0
      obtain ⟨hn, _, _, hops⟩ := hnew hn0
      refine ⟨_, hsub, rfl, role', later, h'.touch hn ?_ rfl rfl rfl rfl rfl rfl rfl⟩
      exact ⟨rfl, rfl, rfl, rfl, rfl, rfl, rfl, hops.symm, rfl⟩
  file := by
    rintro u T p header c fileSize ⟨rfl, role, later, h⟩ hp
    obtain ⟨n, fs', role', hres, h', hsub, _, _, hnew⟩ := h.vfsCreateVnode hA hp c vnodeFile
    rcases hk₁ : fs'.kmalloc A.watch ramfsDataSize with ⟨data, fs₁⟩
    rcases hk₂ : fs₁.kmallocBlock A.watch (fileSize.setWidth 64) with ⟨bytes, fs₂⟩
    obtain ⟨hvfs₁, hreq₁⟩ := kmalloc_requested hA.watch hk₁
    have hreq₂ := kmallocBlock_requested hA.watch hk₂
    simp only [ustarFile, hres, hk₁, hk₂]
    split
    · exact ⟨_, hsub, rfl, role', later, h'⟩
    · rename_i hn0
      split
      · refine ⟨_, ?_, rfl, role', later, h'.same ⟨hvfs₁, hreq₁.heap⟩⟩
        rw [hvfs₁]
        exact hsub
      · rename_i hd
        split
        · rename_i hb
          have hvfs₂ : fs₂.toVfs = fs₁.toVfs := (kmallocBlock_cases hk₂).elim And.right fun hc => absurd hb hc.1
          have hsame : SameVfs (watchUse inUse) fs' (fs₂.kfree A.watch data) := by
            refine ⟨hvfs₂.trans hvfs₁, fun q hq => ?_⟩
            exact hA.watch.freed _ _ _ ⟨hreq₂.heap (hreq₁.heap hq), fun hc => (hreq₁.block hd).1 (hc ▸ hq)⟩
          refine ⟨_, ?_, rfl, role', later, h'.same hsame⟩
          rw [hsame.vfs]
          exact hsub
        · rename_i hb
          obtain ⟨⟨role'', h''⟩, hvnodes⟩ := h'.filled hA (hnew hn0).1 hk₁ hd hk₂ hb u header
          exact ⟨_, hsub.trans hvnodes.ge, rfl, role'', later, h''⟩

/-! ## Mounts -/

theorem newMount (h : Grown inUse role later s) (hs : NewMount (watchUse inUse) s s' path M mp ty) :
    Grown inUse role (later ++ [M]) s' := by
  have hold := h.mounted.root_old hs
  have hroot : s'.rootMount = s.rootMount := by rw [hs.vfs]
  refine h.replace ?_ (fun p _ => ?_) ?_ hs.heap (h.fs.newMount h.mounted hs) (fun v hv => ?_) (fun p hp => ?_)
    (h.mounted.push h.fs.used hs) fun h0 => ?_
  · rw [hs.vfs]
    rfl
  · rw [hs.vfs]
    exact .refl _
  · rw [hroot]
    exact hold _ List.mem_cons_self
  · rw [hs.vfs]
    exact (h.data v hv).congr rfl rfl fun _ _ hr => hr
  · rw [hs.vfs] at hp
    exact hs.heap (h.recorded p hp)
  · have hdevfs : s'.devfsRoot = s.devfsRoot := by rw [hs.vfs]
    rw [hdevfs] at h0 ⊢
    obtain ⟨hmem, hT⟩ := h.devfs h0
    rw [hold _ (List.mem_cons_of_mem _ hmem)]
    exact ⟨List.mem_append_left _ hmem, hT⟩

/-- The root of the devices is set, and knows its mount. -/
theorem setDevfs (h : Grown inUse role later s) (hM : M ∈ later) (hv : v ∈ s.vnodes) (hvr : v ≠ (s.mounts s.rootMount).root) :
    Grown inUse role later ({ s with
      devfsRoot := M
      mounts := Function.update s.mounts M { s.mounts M with root := v } }.setNode v { s.nodes v with mount := M }) := by
  have hMr : M ≠ s.rootMount := by
    rintro rfl
    exact (List.nodup_cons.mp h.mounted.chain.nodup).1 hM
  have hroot : (Function.update s.mounts M { s.mounts M with root := v } s.rootMount).root = (s.mounts s.rootMount).root := by
    rw [Function.update_of_ne hMr.symm]
  have hmounted : Mounted (watchUse inUse) role later { s with
      devfsRoot := M
      mounts := Function.update s.mounts M { s.mounts M with root := v } } := h.mounted.setRoot rfl rfl rfl
  have hfs : FsInv (watchUse inUse) role s.vnodes { s with
      devfsRoot := M
      mounts := Function.update s.mounts M { s.mounts M with root := v } } := by
    refine h.fs.setMounts rfl rfl rfl rfl hroot hmounted.chain (fun X hX => ?_) subset_rfl
    show (Function.update s.mounts M { s.mounts M with root := v } X).root = 0 ∨
      (Function.update s.mounts M { s.mounts M with root := v } X).root ∈ s.vnodes
    by_cases hXM : X = M
    · rw [hXM, Function.update_self]
      exact .inr hv
    · rw [Function.update_of_ne hXM]
      exact h.fs.later_mem h.mounted X hX
  have hcases : ∀ p, SamePlace (Function.update s.nodes v { s.nodes v with mount := M } p) (s.nodes p) ∧
      (Function.update s.nodes v { s.nodes v with mount := M } p).ops = (s.nodes p).ops ∧
      (Function.update s.nodes v { s.nodes v with mount := M } p).data = (s.nodes p).data := by
    intro p
    by_cases hpv : p = v
    · rw [hpv, Function.update_self]
      exact ⟨⟨rfl, rfl, rfl, rfl, rfl⟩, rfl, rfl⟩
    · rw [Function.update_of_ne hpv]
      exact ⟨.refl _, rfl, rfl⟩
  refine h.replace rfl (fun p _ => (hcases p).1) hroot subset_rfl ?_ (fun p hp => ?_) h.recorded
    (hmounted.keep rfl rfl subset_rfl fun _ _ => rfl) fun _ => ⟨hM, ?_⟩
  · refine hfs.retag hv ?_ rfl rfl rfl rfl subset_rfl
    refine ⟨⟨rfl, rfl, rfl, rfl, rfl⟩, h.fs.unlocked v hv, fun hc => absurd (hc.trans hroot) hvr, h.fs.dirs v hv,
      h.fs.devs v hv, fun hops _ => ⟨hops, rfl⟩⟩
  · exact (h.data p hp).congr (hcases p).2.1 (hcases p).2.2 fun _ _ hr => hr
  · show (Function.update s.mounts M { s.mounts M with root := v } M).root ∈ s.vnodes
    rw [Function.update_self]
    exact hv

/-! ## Devices -/

theorem devfsInit (h : Grown inUse role later s) (hA : Proc.AllocatorSpec A inUse)
    (hres : devfsInit A.watch s = .ok (some s')) : ∃ role' later', Grown inUse role' later' s' := by
  obtain ⟨n, s₁, role₁, hcreate, h₁, hsub, hmounts₁, hroot₁, hnew⟩ :=
    h.vfsCreateVnode hA h.fs.tree.root_mem devName vnodeDir
  simp only [Fs.devfsInit, hcreate, bind, Except.bind] at hres
  split at hres
  · cases hres
  · rename_i hn0
    obtain ⟨hn, hn', _, _⟩ := hnew hn0
    have hnr : n ≠ (s.mounts s.rootMount).root := fun hc => hn' (hc ▸ h.fs.tree.root_mem)
    have h₂ : Grown inUse role₁ later (s₁.setNode n { s₁.nodes n with flags := vnodeFlagMountpoint }) := by
      refine h₁.touch hn ?_ rfl rfl rfl rfl rfl rfl rfl
      exact ⟨rfl, rfl, rfl, rfl, rfl, rfl, rfl, rfl, rfl⟩
    generalize hs₂ : s₁.setNode n { s₁.nodes n with flags := vnodeFlagMountpoint } = s₂ at h₂ hres
    have hn₂ : n ∈ s₂.vnodes := by
      rw [← hs₂]
      exact hn
    have hroot₂ : (s₂.mounts s₂.rootMount).root = (s.mounts s.rootMount).root := by
      rw [← hs₂]
      show (s₁.mounts s₁.rootMount).root = _
      rw [hmounts₁, hroot₁]
    rcases hmount : vfsMount A.watch s₂ devPath 5 with ⟨M, s₃⟩
    simp only [hmount] at hres
    rcases vfsMount_cases hA.watch devPath 5 hmount with ⟨rfl, hsame, _⟩ | ⟨_, mp, ty, hs⟩
    · simp only [↓reduceIte] at hres
      cases hres
      exact ⟨role₁, later, h₂.same hsame⟩
    · have hM0 := (hs.fresh M List.mem_cons_self).1
      rw [if_neg hM0] at hres
      cases hres
      have h₃ := h₂.newMount hs
      have hn₃ : n ∈ s₃.vnodes := by
        rw [hs.vfs]
        exact hn₂
      refine ⟨role₁, later ++ [M], h₃.setDevfs (by simp) hn₃ fun hc => hnr ?_⟩
      have hroot₃ : s₃.rootMount = s₂.rootMount := by rw [hs.vfs]
      rw [hc, hroot₃, h₂.mounted.root_old hs _ List.mem_cons_self, hroot₂]

theorem devfsAddDev {name : CString} {dev : Device} {status : U32} (h : Grown inUse role later s)
    (hA : Proc.AllocatorSpec A inUse) (h0 : s.devfsRoot ≠ 0) (hres : devfsAddDev A.watch s name dev = .ok (status, s'))
    (hmem : s'.heap.2 = true) : ∃ role', Grown inUse role' later s' := by
  obtain ⟨n, s₁, role₁, hcreate, h₁, _, _, _, hnew⟩ := h.vfsCreateVnode hA (h.devfs h0).2 name vnodeDev
  rcases hk : A.watch.kmalloc s₁.mm s₁.heap devSize with ⟨device, mm, heap⟩
  simp only [Fs.devfsAddDev, hcreate, bind, Except.bind, State.kmalloc, State.setNode, hk] at hres
  split at hres
  · cases hres
    exact ⟨role₁, h₁⟩
  · rename_i hn0
    obtain ⟨hn, _, htype, _⟩ := hnew hn0
    split at hres
    · rename_i hd
      have hflag : s'.heap.2 = heap.2 := by
        cases hres
        split
        · rfl
        · rfl
      exact absurd hd (Proc.Allocator.watch_ne_zero hk (hflag ▸ hmem))
    · rename_i hd
      obtain ⟨hd₁, hd₂⟩ := hA.watch.fresh_of hk hd
      have hheap := hA.watch.kept_of hk
      have hnone : s₁.records device = none := by
        by_contra hc
        exact hd₁ (h₁.recorded device hc)
      simp only [Function.update_self, Function.update_idem] at hres
      cases hres
      refine ⟨role₁, h₁.retag hn ?_ rfl rfl rfl rfl rfl (vnodes_record rfl hnone (by decide)) (fun p r hr => ?_)
        (fun p hp => ?_) hheap ?_⟩
      · refine ⟨⟨rfl, rfl, rfl, rfl, rfl⟩, h₁.fs.unlocked n hn, fun _ => rfl, ?_, fun _ => hd, fun hc => (by cases hc)⟩
        intro hc
        exact absurd (htype.symm.trans hc) (by decide)
      · have hpd : p ≠ device := by
          rintro rfl
          rw [hnone] at hr
          cases hr
        show Function.update s₁.records device (some .dev) p = some r
        rw [Function.update_of_ne hpd, hr]
      · by_cases hpd : p = device
        · rw [hpd]
          exact hd₂
        · refine hheap (h₁.recorded p ?_)
          intro hc
          exact hp ((Function.update_of_ne hpd _ _).trans hc)
      · simp only [HasData, Function.update_self]

end Grown

/-! ## The root -/

/-- What `vfs_init` sets up when there is memory: the root mount and the root vnode, in two blocks. -/
structure Initialized (use : Set U64) (s s' : Vfs) (mount root : U64) (m : Mount) : Prop where
  vfs : s' = { s with
    nodes := Function.update s.nodes root (rootVnode (s.nodes root) root mount)
    mounts := Function.update s.mounts mount m
    rootMount := mount
    records := Function.update s.records root (some .vnode) }
  alone : m.root = root ∧ m.next = 0 ∧ m.prev = 0
  blocks : mount ≠ 0 ∧ root ≠ 0 ∧ mount ≠ root ∧ mount ∈ use ∧ root ∈ use

theorem vfsInit_initialized (hA : Proc.AllocatorSpec A inUse) (hmem : (vfsInit A.watch s).heap.2 = true) :
    ∃ mount root m, Initialized (watchUse inUse (vfsInit A.watch s).heap) s.toVfs (vfsInit A.watch s).toVfs mount root m := by
  rcases hk₁ : A.watch.kmalloc s.mm s.heap mountSize with ⟨mount, mm₁, heap₁⟩
  rcases hk₂ : A.watch.kmalloc mm₁ heap₁ vnodeSize with ⟨root, mm₂, heap₂⟩
  rcases hk₃ : A.watch.kmalloc mm₂ heap₂ 2 with ⟨name, mm₃, heap₃⟩
  rcases hk₄ : A.watch.kmalloc mm₃ heap₃ 1 with ⟨mountpoint, mm₄, heap₄⟩
  rcases hk₅ : A.watch.kmalloc mm₄ heap₄ 7 with ⟨type, mm₅, heap₅⟩
  have hfree : ∀ mm h p, (A.watch.kfree mm h p).2.2 = h.2 := fun _ _ _ => rfl
  simp only [vfsInit, State.kmalloc, State.kfree, State.setNode, hk₁, hk₂, hk₃, hk₄, hk₅] at hmem ⊢
  split at hmem
  · rename_i h0
    exact absurd h0 (Proc.Allocator.watch_ne_zero hk₁ hmem)
  · rename_i hmount
    split at hmem
    · rename_i h0
      exact absurd h0 (Proc.Allocator.watch_ne_zero hk₂ hmem)
    · rename_i hroot
      split at hmem
      · rename_i h0
        exact absurd h0 (Proc.Allocator.watch_ne_zero hk₃ hmem)
      · rename_i hname
        split at hmem
        · rename_i h0
          exact absurd h0 (Proc.Allocator.watch_ne_zero hk₄ hmem)
        · rename_i hmp
          split at hmem
          · rename_i h0
            exact absurd h0 (Proc.Allocator.watch_ne_zero hk₅ hmem)
          · rename_i hty
            obtain ⟨_, hmount₁⟩ := hA.watch.fresh_of hk₁ hmount
            obtain ⟨hroot₁, hroot₂⟩ := hA.watch.fresh_of hk₂ hroot
            have hheap : watchUse inUse heap₂ ⊆ watchUse inUse heap₅ := fun p hp =>
              hA.watch.kept_of hk₅ (hA.watch.kept_of hk₄ (hA.watch.kept_of hk₃ hp))
            simp only [hmount, hroot, hname, hmp, hty, ↓reduceIte, Function.update_self, Function.update_idem]
            exact ⟨mount, root, _, rfl, ⟨rfl, rfl, rfl⟩, hmount, hroot, fun hc => hroot₁ (hc ▸ hmount₁),
              hheap (hA.watch.kept_of hk₂ hmount₁), hheap hroot₂⟩

theorem Grown.vfsInit (hA : Proc.AllocatorSpec A inUse) (hrecords : s.records = fun _ => none) (hdevfs : s.devfsRoot = 0)
    (hmem : (vfsInit A.watch s).heap.2 = true) : (∃ role, Grown inUse role [] (vfsInit A.watch s)) ∧
      ((vfsInit A.watch s).nodes ((vfsInit A.watch s).mounts (vfsInit A.watch s).rootMount).root).data = 0 := by
  obtain ⟨mount, root, m, hinit⟩ := vfsInit_initialized hA hmem
  generalize Fs.vfsInit A.watch s = s' at hmem hinit ⊢
  obtain ⟨hmount0, hroot0, hne, hmount, hroot⟩ := hinit.blocks
  have hvfs := hinit.vfs
  have hrootMount : s'.rootMount = mount := by rw [hvfs]
  have hm : s'.mounts mount = m := by
    rw [hvfs]
    exact Function.update_self _ _ _
  have hnode : s'.nodes root = rootVnode (s.nodes root) root mount := by
    rw [hvfs]
    exact Function.update_self _ _ _
  have hdevfs' : s'.devfsRoot = 0 := by
    rw [hvfs]
    exact hdevfs
  have hrecords' : ∀ p, s'.records p = if p = root then some .vnode else none := by
    intro p
    rw [hvfs]
    show Function.update s.records root (some .vnode) p = _
    rw [hrecords, Function.update_apply]
  have hvnodes : s'.vnodes = {root} := by
    ext p
    show s'.records p = some .vnode ↔ p = root
    rw [hrecords']
    simp
  have hroot' : (s'.mounts s'.rootMount).root = root := by rw [hrootMount, hm, hinit.alone.1]
  have hnil : Chain (fun p => (s'.nodes p).next) 0 (s'.nodes root).child [] := by
    rw [hnode]
    rfl
  have hchain : Chain (fun X => (s'.mounts X).next) 0 s'.rootMount [s'.rootMount] := by
    have hnext : (s'.mounts mount).next = 0 := by rw [hm, hinit.alone.2.1]
    rw [hrootMount]
    exact ⟨rfl, hmount0, hnext⟩
  have htree : VnodeTree s'.nodes root {root} := by
    refine ⟨rfl, fun hc => hroot0 hc.symm, ?_⟩
    rintro p rfl
    exact ⟨[], hnil, by simp⟩
  refine ⟨⟨Function.update (fun _ => none) root (some .vnode), ?_, ?_, ?_, fun p hp => ?_, ?_, fun h0 => absurd hdevfs' h0⟩, ?_⟩
  · rw [hvnodes]
    refine ⟨by rw [hroot']; exact htree, by rw [hrootMount]; exact hmount0, ?_, ⟨[], hchain, by simp⟩, ?_, ?_, ?_, ?_, ?_, ?_, ?_⟩
    · rw [hroot', hnode, hrootMount]
      rfl
    · rintro p rfl
      rw [hnode]
      rfl
    · rintro p rfl
      rw [hnode]
      exact fun _ hc => by cases hc
    · rintro p rfl hc
      rw [hnode] at hc
      cases hc
    · rintro p rfl
      exact Function.update_self _ _ _
    · rintro p rfl hc
      rw [hnode] at hc
      cases hc
    · rintro p rfl hc
      rw [hnode] at hc
      cases hc
    · intro p hp
      by_cases hpr : p = root
      · rw [hpr]
        exact hroot
      · rw [Function.update_of_ne hpr] at hp
        exact absurd rfl hp
  · rw [hvnodes, hroot']
    refine ⟨htree, ?_, ?_, ?_⟩
    · rintro p rfl
      exact ⟨0, .root⟩
    · rintro _ p rfl ks hks
      exact ⟨[], by rw [hks.unique hnil]; rfl, List.nodup_nil⟩
    · rintro p rfl hc
      rw [hnode] at hc
      exact absurd rfl hc
  · rw [hvnodes]
    rintro p rfl
    unfold HasData
    rw [hnode]
    trivial
  · rw [hrecords'] at hp
    split at hp
    · rename_i hpr
      rw [hpr]
      exact hroot
    · exact absurd rfl hp
  · have hblocks : mountBlocks s'.toVfs [] = [mount] := by rw [mountBlocks, hrootMount]; rfl
    refine ⟨hchain, ⟨?_, trivial⟩, by rw [hblocks]; simp, fun p hp => ?_⟩
    · show (s'.mounts s'.rootMount).prev = 0
      rw [hrootMount, hm, hinit.alone.2.2]
    · rw [hblocks, List.mem_singleton] at hp
      rw [hp]
      exact ⟨hmount0, hmount, Function.update_of_ne hne _ _⟩
  · rw [hroot', hnode]
    rfl

/-- The root gets its operations, and an archive is unpacked below it. -/
theorem Grown.ramfsInit {u : Unpacking (H × Bool)} {type : U32} {data size : U64} {fs : State (H × Bool)}
    (h : Grown inUse role later u.fs) (hA : Proc.AllocatorSpec A inUse)
    (h0 : (u.fs.nodes (u.fs.mounts u.fs.rootMount).root).data = 0)
    (hres : ramfsInit A.watch u u.fs.rootMount type data size = .ok fs) : ∃ role' later', Grown inUse role' later' fs := by
  have hroot := h.fs.tree.root_mem
  simp only [Fs.ramfsInit, if_neg h.fs.rootMount, if_neg h.fs.tree.root_ne] at hres
  have h' : Grown inUse role later (u.fs.setNode (u.fs.mounts u.fs.rootMount).root
      { u.fs.nodes (u.fs.mounts u.fs.rootMount).root with ops := some .ramfs }) := by
    refine h.retag hroot ?_ rfl rfl rfl rfl rfl rfl (fun _ _ hr => hr) h.recorded subset_rfl ?_
    · refine ⟨⟨rfl, rfl, rfl, rfl, rfl⟩, h.fs.unlocked _ hroot, fun _ => rfl, fun _ hc => (by cases hc), fun hc => (by cases hc),
        fun _ hc => absurd h0 hc⟩
    · simp only [HasData, State.setNode, Function.update_self]
      exact .inl h0
  split at hres
  · simp only [ramfsInitUstar] at hres
    split at hres
    · cases hres
    · obtain ⟨_, _, _, role', later', hfs⟩ := (Grown.overArchives hA).loop (u := ⟨_, u.archive, u.last⟩)
        ⟨rfl, role, later, h'⟩ h'.fs.tree.root_mem hres
      exact ⟨role', later', hfs⟩
  · cases hres
    exact ⟨role, later, h'⟩

end ShadowOS.Fs
