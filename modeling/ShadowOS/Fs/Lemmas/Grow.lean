import ShadowOS.Fs.Lemmas.Mounts
import ShadowOS.Fs.Lemmas.Unpack

/-!
# The tree of vnodes as it grows
-/

namespace ShadowOS.Fs

open Proc (watchUse)

variable {H : Type} {nodes nodes' : U64 → Vnode} {root self n m : U64} {T : Set U64} {named named' : Prop} {new : Vnode}

/-! ## The shape of the tree -/

/-- The place of a vnode in the tree is the same. -/
structure SamePlace (a b : Vnode) : Prop where
  parent : a.parent = b.parent
  next : a.next = b.next
  child : a.child = b.child
  name : a.name = b.name
  type : a.type = b.type

theorem SamePlace.refl (a : Vnode) : SamePlace a a := ⟨rfl, rfl, rfl, rfl, rfl⟩

theorem SameVnode.place {a b : Vnode} (h : SameVnode a b) : SamePlace a b := ⟨h.parent, h.next, h.child, h.name, h.type⟩

/-- Every vnode is reached from the root, and only directories have children. As long as there was memory for the names,
those of siblings differ. -/
structure Shaped (nodes : U64 → Vnode) (root : U64) (T : Set U64) (named : Prop) : Prop extends VnodeTree nodes root T where
  reached : ∀ n ∈ T, ∃ d, AtDepth nodes root d n
  siblings : named → ∀ n ∈ T, ∀ ks, Chain (fun p => (nodes p).next) 0 (nodes n).child ks →
    ∃ names : List CString, ks.map (fun k => (nodes k).name) = names.map some ∧ names.Nodup
  dirs : ∀ n ∈ T, (nodes n).child ≠ 0 → (nodes n).type = vnodeDir

namespace Shaped

theorem congr (h : Shaped nodes root T named) (hsame : ∀ p ∈ T, SamePlace (nodes' p) (nodes p)) (hnamed : named' → named) :
    Shaped nodes' root T named' := by
  have hlinks : ∀ p ∈ T, (nodes' p).next = (nodes p).next ∧ (nodes' p).child = (nodes p).child ∧
      (nodes' p).parent = (nodes p).parent := fun p hp => ⟨(hsame p hp).next, (hsame p hp).child, (hsame p hp).parent⟩
  have hlist : ∀ p ∈ T, ∀ {ks}, Chain (fun q => (nodes q).next) 0 (nodes p).child ks →
      Chain (fun q => (nodes' q).next) 0 (nodes' p).child ks ∧ ∀ k ∈ ks, k ∈ T := by
    intro p hp ks hks
    obtain ⟨js, hjs, hmem⟩ := h.children p hp
    rw [← hks.unique hjs] at hmem
    rw [(hsame p hp).child]
    exact ⟨hks.congr fun k hk => (hsame k (hmem k hk).1).next, fun k hk => (hmem k hk).1⟩
  refine ⟨h.toVnodeTree.congr hlinks, fun n hn => ?_, fun hn' n hn ks hks => ?_, fun n hn => ?_⟩
  · obtain ⟨d, hd⟩ := h.reached n hn
    refine ⟨d, ?_⟩
    clear hn
    induction hd with
    | root => exact .root
    | child hp hks hm ih => exact .child ih (hlist _ (h.atDepth_mem hp) hks).1 hm
  · obtain ⟨js, hjs, _⟩ := h.children n hn
    obtain ⟨hjs', hmem⟩ := hlist n hn hjs
    obtain ⟨names, hnames, hnodup⟩ := h.siblings (hnamed hn') n hn js hjs
    rw [hks.unique hjs']
    refine ⟨names, ?_, hnodup⟩
    rw [← hnames]
    exact List.map_congr_left fun k hk => (hsame k (hmem k hk)).name
  · rw [(hsame n hn).child, (hsame n hn).type]
    exact h.dirs n hn

section Link

variable (h : Shaped nodes root T named) (hself : self ∈ T) (hn : n ∉ T) (hn0 : n ≠ 0) (hnew : Unlinked new self)
include h hself hn hn0 hnew

/-- The children after a vnode was linked, and those before. -/
theorem link_list (hm : m ∈ T) : ∃ ks, Chain (fun p => (nodes p).next) 0 (nodes m).child ks ∧ (∀ k ∈ ks, k ∈ T) ∧
    Chain (fun p => (linkChild (Function.update nodes n new) self n p).next) 0
      (linkChild (Function.update nodes n new) self n m).child (if m = self then ks ++ [n] else ks) := by
  obtain ⟨ks, hks, hmem⟩ := h.children m hm
  exact ⟨ks, hks, fun k hk => (hmem k hk).1, h.link_children hself hn hn0 hnew hm hks hmem⟩

theorem link_atDepth {d : Nat} (hm : AtDepth nodes root d m) :
    AtDepth (linkChild (Function.update nodes n new) self n) root d m := by
  induction hm with
  | root => exact .root
  | child hp hks hm ih =>
      obtain ⟨js, hjs, _, hjs'⟩ := h.link_list hself hn hn0 hnew (h.atDepth_mem hp)
      rw [hks.unique hjs] at hm
      refine .child ih hjs' ?_
      split
      · exact List.mem_append_left _ hm
      · exact hm

/-- The new vnode has a name that no sibling has. -/
theorem link {c : CString} (hdir : (nodes self).type = vnodeDir) (hfree : vfsLookup nodes self c = 0)
    (hname : named' → named ∧ new.name = some c) :
    Shaped (linkChild (Function.update nodes n new) self n) root (insert n T) named' := by
  have hnode := h.link_new hself hn hnew
  have hold : ∀ p ∈ T, (linkChild (Function.update nodes n new) self n p).name = (nodes p).name ∧
      (linkChild (Function.update nodes n new) self n p).type = (nodes p).type := by
    intro p hp
    obtain ⟨child, next, hp'⟩ := VnodeTree.link_old nodes new self hn hp
    rw [hp']
    exact ⟨rfl, rfl⟩
  refine ⟨h.toVnodeTree.link hself hn hn0 hnew, ?_, fun hnamed => ?_, ?_⟩
  · rintro m (rfl | hm)
    · obtain ⟨d, hd⟩ := h.reached self hself
      obtain ⟨ks, _, _, hks⟩ := h.link_list hself hn hn0 hnew hself
      rw [if_pos rfl] at hks
      exact ⟨d + 1, .child (h.link_atDepth hself hn hn0 hnew hd) hks (by simp)⟩
    · obtain ⟨d, hd⟩ := h.reached m hm
      exact ⟨d, h.link_atDepth hself hn hn0 hnew hd⟩
  · obtain ⟨hnamed, hname⟩ := hname hnamed
    rintro m (rfl | hm) ks hks
    · rw [hnode, hnew.child] at hks
      exact ⟨[], by rw [hks.null_eq]; rfl, List.nodup_nil⟩
    · obtain ⟨js, hjs, hjT, hjs'⟩ := h.link_list hself hn hn0 hnew hm
      obtain ⟨names, hnames, hnodup⟩ := h.siblings hnamed m hm js hjs
      have hkeep : js.map (fun k => (linkChild (Function.update nodes n new) self n k).name) = names.map some := by
        rw [← hnames]
        exact List.map_congr_left fun k hk => (hold k (hjT k hk)).1
      rw [hks.unique hjs']
      split
      · rename_i hms
        subst hms
        refine ⟨names ++ [c], ?_, ?_⟩
        · rw [List.map_append, List.map_append, hkeep, List.map_singleton, List.map_singleton, hnode, hname]
        · -- a sibling of that name would have been found
          rw [← List.concat_eq_append]
          refine hnodup.concat fun hc => ?_
          have hmem : some c ∈ js.map fun k => (nodes k).name := by
            rw [hnames]
            exact List.mem_map_of_mem hc
          obtain ⟨k, hk, hkc⟩ := List.mem_map.mp hmem
          obtain ⟨is, his, _, hl⟩ := h.vfsLookup_eq hm
          rw [hl, his.unique hjs] at hfree
          cases hf : js.find? fun p => decide ((nodes p).name = some c) with
          | none => exact List.find?_eq_none.mp hf k hk (decide_eq_true hkc)
          | some k' =>
              rw [hf] at hfree
              exact hjs.ne_null k' (List.mem_of_find?_eq_some hf) hfree
      · exact ⟨names, hkeep, hnodup⟩
  · rintro m (rfl | hm) hchild
    · rw [hnode, hnew.child] at hchild
      exact absurd rfl hchild
    · rw [(hold m hm).2]
      by_cases hms : m = self
      · rw [hms]
        exact hdir
      · obtain ⟨ks, hks, _, hks'⟩ := h.link_list hself hn hn0 hnew hm
        rw [if_neg hms] at hks'
        refine h.dirs m hm fun h0 => hchild ?_
        rw [h0] at hks
        rw [hks.null_eq] at hks'
        exact hks'

end Link

end Shaped

/-! ## One vnode changes -/

/-- A vnode may become `node`: it keeps its place, and its data unless it has none. -/
structure Retag (s : Vfs) (v : U64) (node : Vnode) : Prop where
  place : SamePlace node (s.nodes v)
  unlocked : node.locked = false
  mount : v = (s.mounts s.rootMount).root → node.mount = (s.nodes v).mount
  dir : node.type = vnodeDir → node.ops ≠ some .devfs
  dev : node.ops = some .devfs → node.data ≠ 0
  ramfs : node.ops = some .ramfs → node.data ≠ 0 → (s.nodes v).ops = some .ramfs ∧ node.data = (s.nodes v).data

theorem FsInv.retag {K : Type} {use : K → Set U64} {role : U64 → Option Role} {s s' : State K} {v : U64} {node : Vnode}
    (h : FsInv use role T s) (hv : v ∈ T) (hnode : Retag s.toVfs v node) (hnodes : s'.nodes = Function.update s.nodes v node)
    (hramfs : s'.ramfs = s.ramfs) (hmounts : s'.mounts = s.mounts) (hroot : s'.rootMount = s.rootMount)
    (hheap : use s.heap ⊆ use s'.heap) : FsInv use role T s' := by
  have hcases : ∀ u, u = v ∧ s'.nodes u = node ∨ s'.nodes u = s.nodes u := by
    intro u
    rw [hnodes]
    by_cases hu : u = v
    · rw [hu, Function.update_self]
      exact .inl ⟨rfl, rfl⟩
    · rw [Function.update_of_ne hu]
      exact .inr rfl
  have hplace : ∀ u, SamePlace (s'.nodes u) (s.nodes u) := by
    intro u
    rcases hcases u with ⟨rfl, hu⟩ | hu
    · rw [hu]
      exact hnode.place
    · rw [hu]
      exact .refl _
  refine ⟨?_, ?_, ?_, ?_, fun u hu => ?_, fun u hu => ?_, fun u hu => ?_, h.vnodes, fun u hu => ?_, fun u hu => ?_,
    fun p hp => hheap (h.used p hp)⟩
  · rw [hmounts, hroot]
    exact h.tree.congr fun p _ => ⟨(hplace p).next, (hplace p).child, (hplace p).parent⟩
  · rw [hroot]
    exact h.rootMount
  · rw [hmounts, hroot]
    rcases hcases (s.mounts s.rootMount).root with ⟨hu, hu'⟩ | hu
    · rw [hu', hnode.mount hu.symm, ← hu]
      exact h.mount
    · rw [hu]
      exact h.mount
  · rw [hmounts, hroot]
    exact h.mounts
  · rcases hcases u with ⟨rfl, hu'⟩ | hu'
    · rw [hu']
      exact hnode.unlocked
    · rw [hu']
      exact h.unlocked u hu
  · rcases hcases u with ⟨rfl, hu'⟩ | hu'
    · rw [hu']
      exact hnode.dir
    · rw [hu']
      exact h.dirs u hu
  · rcases hcases u with ⟨rfl, hu'⟩ | hu'
    · rw [hu']
      exact hnode.dev
    · rw [hu']
      exact h.devs u hu
  · rcases hcases u with ⟨rfl, hu'⟩ | hu'
    · rw [hu']
      intro hops h0
      obtain ⟨hops', hdata⟩ := hnode.ramfs hops h0
      rw [hdata] at h0 ⊢
      exact h.data u hu hops' h0
    · rw [hu']
      exact h.data u hu
  · rw [hramfs]
    rcases hcases u with ⟨rfl, hu'⟩ | hu'
    · rw [hu']
      intro hops h0
      obtain ⟨hops', hdata⟩ := hnode.ramfs hops h0
      rw [hdata] at h0 ⊢
      exact h.bytes u hu hops' h0
    · rw [hu']
      exact h.bytes u hu

theorem HasData.congr {s s' : Vfs} {v : U64} (h : HasData s v) (hops : (s'.nodes v).ops = (s.nodes v).ops)
    (hdata : (s'.nodes v).data = (s.nodes v).data) (hkept : ∀ p r, s.records p = some r → s'.records p = some r) :
    HasData s' v := by
  unfold HasData at h ⊢
  rw [hops, hdata]
  cases hops' : (s.nodes v).ops with
  | none => trivial
  | some ops =>
      rw [hops'] at h
      cases ops with
      | ramfs => exact h.imp_right (hkept _ _)
      | devfs => exact hkept _ _ h

/-! ## The invariant -/

/-- The file system from its start on: the vnodes that were set up are the tree, and their records are not overwritten as
they are in use. -/
structure Grown (inUse : H → Set U64) (role : U64 → Option Role) (later : List U64) (s : State (H × Bool)) : Prop where
  fs : FsInv (watchUse inUse) role s.vnodes s
  shape : Shaped s.nodes (s.mounts s.rootMount).root s.vnodes (s.heap.2 = true)
  data : ∀ v ∈ s.vnodes, HasData s.toVfs v
  recorded : ∀ p, s.records p ≠ none → p ∈ watchUse inUse s.heap
  mounted : Mounted (watchUse inUse) role later s
  devfs : s.devfsRoot ≠ 0 → s.devfsRoot ∈ later ∧ (s.mounts s.devfsRoot).root ∈ s.vnodes

namespace Grown

variable {A : Proc.Allocator H} {inUse : H → Set U64} {s s' : State (H × Bool)} {role role' : U64 → Option Role}
  {later later' : List U64} {v d : U64} {node : Vnode}

/-- The vnodes keep their places. -/
theorem replace (h : Grown inUse role later s) (hvnodes : s'.vnodes = s.vnodes)
    (hplace : ∀ p ∈ s.vnodes, SamePlace (s'.nodes p) (s.nodes p))
    (hroot : (s'.mounts s'.rootMount).root = (s.mounts s.rootMount).root)
    (hheap : watchUse inUse s.heap ⊆ watchUse inUse s'.heap) (hfs : FsInv (watchUse inUse) role' s.vnodes s')
    (hdata : ∀ v ∈ s.vnodes, HasData s'.toVfs v) (hrecorded : ∀ p, s'.records p ≠ none → p ∈ watchUse inUse s'.heap)
    (hmounted : Mounted (watchUse inUse) role' later' s')
    (hdevfs : s'.devfsRoot ≠ 0 → s'.devfsRoot ∈ later' ∧ (s'.mounts s'.devfsRoot).root ∈ s.vnodes) :
    Grown inUse role' later' s' := by
  refine ⟨?_, ?_, ?_, hrecorded, hmounted, ?_⟩
  · rw [hvnodes]
    exact hfs
  · rw [hvnodes, hroot]
    exact h.shape.congr hplace (Proc.watched_of_subset hheap)
  · rw [hvnodes]
    exact hdata
  · rw [hvnodes]
    exact hdevfs

theorem untouched (h : Grown inUse role later s) (hs : Untouched (watchUse inUse) s s') : Grown inUse role later s' := by
  have hnode : ∀ p ∈ s.vnodes, s'.nodes p = s.nodes p := fun p hp => hs.nodes p (h.fs.mem_inUse hp)
  refine h.replace ?_ (fun p hp => ?_) ?_ hs.heap (h.fs.untouched hs) (fun v hv => ?_) (fun p hp => ?_)
    (h.mounted.keep hs.mounts hs.rootMount hs.heap fun _ _ => rfl) ?_
  · simp only [Vfs.vnodes, hs.records]
  · rw [hnode p hp]
    exact .refl _
  · rw [hs.mounts, hs.rootMount]
  · refine (h.data v hv).congr ?_ ?_ fun p r hr => ?_
    · rw [hnode v hv]
    · rw [hnode v hv]
    · rw [hs.records]
      exact hr
  · rw [hs.records] at hp
    exact hs.heap (h.recorded p hp)
  · rw [hs.devfsRoot, hs.mounts]
    exact h.devfs

theorem same (h : Grown inUse role later s) (hs : SameVfs (watchUse inUse) s s') : Grown inUse role later s' := by
  refine h.untouched ⟨fun p _ => ?_, fun p _ => ?_, ?_, ?_, ?_, ?_, hs.heap⟩
  all_goals rw [hs.vfs]

/-- One vnode changes, and its data may be a new record. -/
theorem retag (h : Grown inUse role later s) (hv : v ∈ s.vnodes) (hnode : Retag s.toVfs v node)
    (hnodes : s'.nodes = Function.update s.nodes v node) (hramfs : s'.ramfs = s.ramfs) (hmounts : s'.mounts = s.mounts)
    (hroot : s'.rootMount = s.rootMount) (hdevfs : s'.devfsRoot = s.devfsRoot) (hvnodes : s'.vnodes = s.vnodes)
    (hkept : ∀ p r, s.records p = some r → s'.records p = some r)
    (hrecorded : ∀ p, s'.records p ≠ none → p ∈ watchUse inUse s'.heap)
    (hheap : watchUse inUse s.heap ⊆ watchUse inUse s'.heap) (hdata : HasData s'.toVfs v) : Grown inUse role later s' := by
  refine h.replace hvnodes (fun p hp => ?_) ?_ hheap (h.fs.retag hv hnode hnodes hramfs hmounts hroot hheap)
    (fun p hp => ?_) hrecorded (h.mounted.keep hmounts hroot hheap fun _ _ => rfl) ?_
  · rw [hnodes]
    by_cases hpv : p = v
    · rw [hpv, Function.update_self]
      exact hnode.place
    · rw [Function.update_of_ne hpv]
      exact .refl _
  · rw [hmounts, hroot]
  · by_cases hpv : p = v
    · rw [hpv]
      exact hdata
    · refine (h.data p hp).congr ?_ ?_ hkept
      · rw [hnodes, Function.update_of_ne hpv]
      · rw [hnodes, Function.update_of_ne hpv]
  · rw [hdevfs, hmounts]
    exact h.devfs

/-- Fields that the tree does not depend on change in one vnode. -/
theorem touch (h : Grown inUse role later s) (hv : v ∈ s.vnodes) (hsame : SameVnode node (s.nodes v))
    (hnodes : s'.nodes = Function.update s.nodes v node) (hramfs : s'.ramfs = s.ramfs) (hmounts : s'.mounts = s.mounts)
    (hroot : s'.rootMount = s.rootMount) (hdevfs : s'.devfsRoot = s.devfsRoot) (hrecords : s'.records = s.records)
    (hheap : s'.heap = s.heap) : Grown inUse role later s' := by
  have hnode : s'.nodes v = node := by rw [hnodes, Function.update_self]
  refine h.retag hv ⟨hsame.place, ?_, fun _ => hsame.mount, ?_, ?_, fun hops _ => ?_⟩ hnodes hramfs hmounts hroot hdevfs
    ?_ (fun p r hr => ?_) (fun p hp => ?_) ?_ ?_
  · rw [hsame.locked]
    exact h.fs.unlocked v hv
  · rw [hsame.type, hsame.ops]
    exact h.fs.dirs v hv
  · rw [hsame.ops, hsame.data]
    exact h.fs.devs v hv
  · rw [hsame.ops] at hops
    exact ⟨hops, hsame.data⟩
  · simp only [Vfs.vnodes, hrecords]
  · rw [hrecords]
    exact hr
  · rw [hrecords] at hp
    rw [hheap]
    exact h.recorded p hp
  · rw [hheap]
  · refine (h.data v hv).congr ?_ ?_ fun p r hr => ?_
    · rw [hnode, hsame.ops]
    · rw [hnode, hsame.data]
    · rw [hrecords]
      exact hr

/-! ## New vnodes -/

theorem vnodes_created {dir : U64} {new : Vnode} (h : Grown inUse role later s) (hs : Created (watchUse inUse) s s' dir n d new) :
    s'.vnodes = insert n s.vnodes := by
  ext p
  simp only [Vfs.vnodes, Set.mem_insert_iff, Set.mem_setOf_eq, hs.records]
  by_cases hpd : p = d
  · rw [hpd, Function.update_self]
    have hnone : s.records d = none := by
      by_contra hc
      exact hs.data.2.1 (h.recorded d hc)
    simp [hnone, hs.data.2.2]
  · rw [Function.update_of_ne hpd]
    by_cases hpn : p = n
    · simp [hpn]
    · simp [Function.update_of_ne hpn, hpn]

theorem records_created {dir : U64} {new : Vnode} (h : Grown inUse role later s)
    (hs : Created (watchUse inUse) s s' dir n d new) : ∀ p r, s.records p = some r → s'.records p = some r := by
  intro p r hr
  have hp := h.recorded p (by rw [hr]; simp)
  have hpd : p ≠ d := fun hc => hs.data.2.1 (hc ▸ hp)
  have hpn : p ≠ n := fun hc => hs.vnode.2 (hc ▸ hp)
  rw [hs.records, Function.update_of_ne hpd, Function.update_of_ne hpn, hr]

theorem created {dir : U64} {new : Vnode} {c : CString} (h : Grown inUse role later s) (hdir : dir ∈ s.vnodes)
    (hs : Created (watchUse inUse) s s' dir n d new) (hcan : CanCreate s.nodes dir c)
    (hname : s'.heap.2 = true → new.name = some c) : Grown inUse (FsInv.createRole role n d) later s' := by
  have hheap : watchUse inUse s.heap ⊆ watchUse inUse s'.heap := fun p hp => hs.heap (.inr (.inr hp))
  have hn : n ∉ s.vnodes := h.fs.notMem_created hs
  have hvnodes := h.vnodes_created hs
  have hnew : s'.nodes n = new := by
    rw [hs.nodes]
    exact h.fs.tree.link_new hdir hn hs.unlinked
  refine ⟨?_, ?_, fun v hv => ?_, fun p hp => ?_, ?_, fun h0 => ?_⟩
  · rw [hvnodes]
    exact h.fs.created hdir hs
  · rw [hvnodes, hs.nodes, hs.mounts, hs.rootMount]
    exact h.shape.link hdir hn hs.vnode.1 hs.unlinked hcan.1 hcan.2.2
      fun hmem => ⟨Proc.watched_of_subset hheap hmem, hname hmem⟩
  · rw [hvnodes] at hv
    rcases hv with rfl | hv
    · unfold HasData
      rw [hnew, hs.fields.2.1, hs.fields.1, hs.records, Function.update_self]
      exact .inr rfl
    · obtain ⟨child, next, hv'⟩ := VnodeTree.link_old s.nodes new dir hn hv
      rw [← hs.nodes] at hv'
      refine (h.data v hv).congr ?_ ?_ (h.records_created hs)
      · rw [hv']
        rfl
      · rw [hv']
        rfl
  · rw [hs.records] at hp
    by_cases hpd : p = d
    · exact hs.heap (.inr (.inl hpd))
    · by_cases hpn : p = n
      · exact hs.heap (.inl hpn)
      · rw [Function.update_of_ne hpd, Function.update_of_ne hpn] at hp
        exact hheap (h.recorded p hp)
  · refine h.mounted.keep hs.mounts hs.rootMount hheap fun p hp => ?_
    have hpd : p ≠ d := fun hc => hs.data.2.1 (hc ▸ hp)
    have hpn : p ≠ n := fun hc => hs.vnode.2 (hc ▸ hp)
    rw [FsInv.createRole, Function.update_of_ne hpd, Function.update_of_ne hpn]
  · rw [hs.devfsRoot] at h0
    rw [hvnodes, hs.devfsRoot, hs.mounts]
    exact ⟨(h.devfs h0).1, .inr (h.devfs h0).2⟩

/-- What a creation gives: a new vnode, or the null pointer and nothing else. -/
theorem vfsCreateVnode (h : Grown inUse role later s) (hA : Proc.AllocatorSpec A inUse) (hv : v ∈ s.vnodes) (c : CString)
    (type : U32) : ∃ n fs' role', vfsCreateVnode A.watch s v c type = .ok (n, fs') ∧ Grown inUse role' later fs' ∧
      s.vnodes ⊆ fs'.vnodes ∧ fs'.mounts = s.mounts ∧ fs'.rootMount = s.rootMount ∧
      (n ≠ 0 → n ∈ fs'.vnodes ∧ n ∉ s.vnodes ∧ (fs'.nodes n).type = type ∧ (fs'.nodes n).ops = some .ramfs) := by
  obtain ⟨n, fs', hres, ⟨rfl, hsame, _⟩ | ⟨d, new, hs, hcan, htype, _, _, hname⟩⟩ :=
    vfsCreateVnode_cases c type hA.watch (h.fs.ne_zero hv) (h.fs.mem_inUse hv) (h.fs.unlocked v hv) (h.fs.dirs v hv)
  · refine ⟨0, fs', role, hres, h.untouched hsame, ?_, hsame.mounts, hsame.rootMount, fun hc => absurd rfl hc⟩
    simp only [Vfs.vnodes, hsame.records, subset_rfl]
  · have hgrown := h.created hv hs hcan fun hmem => hname.resolve_right (Proc.Allocator.not_failed hmem)
    have hn := h.fs.notMem_created hs
    have hvnodes := h.vnodes_created hs
    have hnew : fs'.nodes n = new := by
      rw [hs.nodes]
      exact h.fs.tree.link_new hv hn hs.unlinked
    refine ⟨n, fs', _, hres, hgrown, ?_, hs.mounts, hs.rootMount, fun _ => ⟨?_, hn, ?_, ?_⟩⟩
    · rw [hvnodes]
      exact Set.subset_insert n _
    · rw [hvnodes]
      exact .inl rfl
    · rw [hnew, htype]
    · rw [hnew]
      exact hs.fields.2.1

end Grown

end ShadowOS.Fs
