import ShadowOS.Fs.Lemmas.Path
import ShadowOS.Fs.Lemmas.Ramfs
import ShadowOS.Proc.Lemmas.Allocator

/-!
# New vnodes
-/

namespace ShadowOS.Fs

variable {H : Type} {A : Proc.Allocator H} {inUse : H → Set U64} {s s' : State H} {role : U64 → Option Role}
  {nodes nodes' : U64 → Vnode} {root self n m : U64} {T : Set U64} {c : CString}

/-! ## Links -/

theorem SameVnode.refl (a : Vnode) : SameVnode a a := ⟨rfl, rfl, rfl, rfl, rfl, rfl, rfl, rfl, rfl⟩

theorem SameVnode.symm {a b : Vnode} (h : SameVnode a b) : SameVnode b a :=
  ⟨h.parent.symm, h.next.symm, h.child.symm, h.mount.symm, h.type.symm, h.name.symm, h.data.symm, h.ops.symm, h.locked.symm⟩

theorem SameVnode.trans {a b c : Vnode} (h : SameVnode a b) (h' : SameVnode b c) : SameVnode a c :=
  ⟨h.parent.trans h'.parent, h.next.trans h'.next, h.child.trans h'.child, h.mount.trans h'.mount, h.type.trans h'.type,
    h.name.trans h'.name, h.data.trans h'.data, h.ops.trans h'.ops, h.locked.trans h'.locked⟩

theorem VnodeTree.congr (h : VnodeTree nodes root T) (hlinks : ∀ p ∈ T, (nodes' p).next = (nodes p).next ∧
    (nodes' p).child = (nodes p).child ∧ (nodes' p).parent = (nodes p).parent) : VnodeTree nodes' root T := by
  refine ⟨h.root_mem, h.nonnull, fun m hm => ?_⟩
  obtain ⟨ks, hks, hmem⟩ := h.children m hm
  refine ⟨ks, ?_, fun k hk => ?_⟩
  · rw [(hlinks m hm).2.1]
    exact hks.congr fun k hk => (hlinks k (hmem k hk).1).1
  · rw [(hlinks k (hmem k hk).1).2.2]
    exact hmem k hk

/-- Lookups only read links and names. -/
theorem VnodeTree.lookup_congr (h : VnodeTree nodes root T) (hm : m ∈ T) (hlinks : ∀ p ∈ T,
    (nodes' p).next = (nodes p).next ∧ (nodes' p).child = (nodes p).child ∧ (nodes' p).parent = (nodes p).parent)
    (hnames : ∀ p ∈ T, (nodes' p).name = (nodes p).name) (c : CString) : vfsLookup nodes' m c = vfsLookup nodes m c := by
  obtain ⟨ks, hks, hmem, hl⟩ := h.vfsLookup_eq hm
  obtain ⟨ks', hks', _, hl'⟩ := (h.congr hlinks).vfsLookup_eq hm
  have hsame : ks' = ks := by
    rw [(hlinks m hm).2.1] at hks'
    exact hks'.unique (hks.congr fun k hk => (hlinks k (hmem k hk).1).1)
  rw [hl, hl', hsame]
  have hfind : ks.find? (fun p => decide ((nodes' p).name = some c)) = ks.find? fun p => decide ((nodes p).name = some c) :=
    List.find?_congr fun k hk => by rw [hnames k (hmem k hk).1]
  rw [hfind]

/-- A vnode that is not linked yet. -/
structure Unlinked (node : Vnode) (dir : U64) : Prop where
  parent : node.parent = dir
  next : node.next = 0
  child : node.child = 0

theorem update_next {new : Vnode} (hnew : new.next = 0) :
    (fun p => (Function.update nodes n new p).next) = Function.update (fun p => (nodes p).next) n 0 := by
  funext p
  by_cases hp : p = n
  · rw [hp, Function.update_self, Function.update_self, hnew]
  · rw [Function.update_of_ne hp, Function.update_of_ne hp]

/-- The new vnode comes after the children that its parent had. -/
theorem VnodeTree.link_children {new : Vnode} (h : VnodeTree nodes root T) (hself : self ∈ T) (hn : n ∉ T) (hn0 : n ≠ 0)
    (hnew : Unlinked new self) (hm : m ∈ T) {ks : List U64}
    (hks : Chain (fun p => (nodes p).next) 0 (nodes m).child ks)
    (hmem : ∀ k ∈ ks, k ∈ T ∧ (nodes k).parent = m ∧ k ≠ root) :
    Chain (fun p => (linkChild (Function.update nodes n new) self n p).next) 0
      (linkChild (Function.update nodes n new) self n m).child (if m = self then ks ++ [n] else ks) := by
  have hne : ∀ {p}, p ∈ T → p ≠ n := fun hp hc => hn (hc ▸ hp)
  simp only [linkChild, Function.update_of_ne (hne hself)]
  by_cases hc : (nodes self).child = 0
  · have hnext : (fun p => (Function.update (Function.update nodes n new) self ((nodes self).setChild n) p).next) =
        Function.update (fun p => (nodes p).next) n 0 := by
      rw [← update_next hnew.next]
      funext p
      by_cases hp : p = self
      · rw [hp, Function.update_self, Function.update_of_ne (hne hself)]
        rfl
      · rw [Function.update_of_ne hp]
    simp only [hc, ↓reduceIte, hnext]
    by_cases hms : m = self
    · subst hms
      rw [hc] at hks
      rw [hks.null_eq, if_pos rfl, Function.update_self]
      exact ⟨rfl, hn0, by rw [Function.update_self]; rfl⟩
    · rw [if_neg hms, Function.update_of_ne hms, Function.update_of_ne (hne hm)]
      exact hks.congr fun k hk => Function.update_of_ne (hne (hmem k hk).1) _ _
  · obtain ⟨js, hjs, hjmem⟩ := h.children self hself
    have hjs' : Chain (Function.update (fun p => (nodes p).next) n 0) 0 (nodes self).child js :=
      hjs.congr fun k hk => Function.update_of_ne (hne (hjmem k hk).1) _ _
    obtain ⟨rs, hrs⟩ := hjs'.lastFrom_eq hc (length_le_maxCells hjs.nodup)
    simp only [hc, ↓reduceIte, update_next hnew.next]
    generalize lastFrom (Function.update (fun p => (nodes p).next) n 0) 0 maxCells (nodes self).child = last at hrs ⊢
    have hlast := hjmem last (by simp [hrs])
    have hnext : (fun p => (Function.update (Function.update nodes n new) last
        ((Function.update nodes n new last).setNext n) p).next) =
        Function.update (Function.update (fun p => (nodes p).next) n 0) last n := by
      rw [← update_next hnew.next]
      funext p
      by_cases hp : p = last
      · rw [hp, Function.update_self, Function.update_self]
        rfl
      · rw [Function.update_of_ne hp, Function.update_of_ne hp]
    have hchild : (Function.update (Function.update nodes n new) last ((Function.update nodes n new last).setNext n) m).child =
        (nodes m).child := by
      by_cases hp : m = last
      · rw [hp, Function.update_self, Function.update_of_ne (hne hlast.1)]
        rfl
      · rw [Function.update_of_ne hp, Function.update_of_ne (hne hm)]
    rw [hnext, hchild]
    by_cases hms : m = self
    · subst hms
      have hsame : ks = rs ++ [last] := by rw [hks.unique hjs, hrs]
      rw [if_pos rfl, hsame, List.append_assoc]
      rw [hsame] at hks hmem
      exact hks.snoc hn0 fun hc => hn (hmem n hc).1
    · rw [if_neg hms]
      refine hks.congr fun k hk => ?_
      have hkl : k ≠ last := by
        rintro rfl
        exact hms ((hmem k hk).2.1.symm.trans hlast.2.1)
      rw [Function.update_of_ne hkl, Function.update_of_ne (hne (hmem k hk).1)]

namespace VnodeTree

variable {new : Vnode}

theorem link_new (h : VnodeTree nodes root T) (hself : self ∈ T) (hn : n ∉ T) (hnew : Unlinked new self) :
    linkChild (Function.update nodes n new) self n n = new := by
  have hne : ∀ {p}, p ∈ T → p ≠ n := fun hp hc => hn (hc ▸ hp)
  simp only [linkChild, Function.update_of_ne (hne hself), update_next hnew.next]
  split
  · rw [Function.update_of_ne (hne hself).symm, Function.update_self]
  · rename_i hc
    obtain ⟨js, hjs, hjmem⟩ := h.children self hself
    have hjs' : Chain (Function.update (fun p => (nodes p).next) n 0) 0 (nodes self).child js :=
      hjs.congr fun k hk => Function.update_of_ne (hne (hjmem k hk).1) _ _
    obtain ⟨rs, hrs⟩ := hjs'.lastFrom_eq hc (length_le_maxCells hjs.nodup)
    have hlast := hjmem (lastFrom (Function.update (fun p => (nodes p).next) n 0) 0 maxCells (nodes self).child)
      (by rw [hrs]; simp)
    rw [Function.update_of_ne (hne hlast.1).symm, Function.update_self]

/-- Only the links of the other vnodes change. -/
theorem link_old (nodes : U64 → Vnode) (new : Vnode) (self : U64) (hn : n ∉ T) {p : U64} (hp : p ∈ T) : ∃ child next,
    linkChild (Function.update nodes n new) self n p = ((nodes p).setChild child).setNext next := by
  have hpn : p ≠ n := fun hc => hn (hc ▸ hp)
  have happ := linkChild_apply (Function.update nodes n new) self n p
  rwa [Function.update_of_ne hpn] at happ

/-- A tree stays one when a vnode is linked. -/
theorem link (h : VnodeTree nodes root T) (hself : self ∈ T) (hn : n ∉ T) (hn0 : n ≠ 0) (hnew : Unlinked new self) :
    VnodeTree (linkChild (Function.update nodes n new) self n) root (insert n T) := by
  refine ⟨.inr h.root_mem, fun hc => hc.elim (fun hc => hn0 hc.symm) h.nonnull, fun m hm => ?_⟩
  rcases hm with rfl | hm
  · refine ⟨[], ?_, by simp⟩
    rw [h.link_new hself hn hnew]
    exact hnew.child
  · obtain ⟨ks, hks, hmem⟩ := h.children m hm
    refine ⟨_, h.link_children hself hn hn0 hnew hm hks hmem, ?_⟩
    have hold : ∀ k ∈ ks, k ∈ insert n T ∧ (linkChild (Function.update nodes n new) self n k).parent = m ∧ k ≠ root := by
      intro k hk
      obtain ⟨child, next, hkeep⟩ := link_old nodes new self hn (hmem k hk).1
      exact ⟨.inr (hmem k hk).1, by rw [hkeep]; exact (hmem k hk).2.1, (hmem k hk).2.2⟩
    split
    · rename_i hms
      intro k hk
      rcases List.mem_append.mp hk with hk | hk
      · exact hold k hk
      · rw [List.mem_singleton.mp hk, h.link_new hself hn hnew, hms]
        exact ⟨.inl rfl, hnew.parent, fun hc => hn (hc ▸ h.root_mem)⟩
    · exact hold

/-- The new vnode is found under its name unless there was one of that name; all else is found as before. -/
theorem lookup_link (h : VnodeTree nodes root T) (hself : self ∈ T) (hn : n ∉ T) (hn0 : n ≠ 0) (hnew : Unlinked new self)
    (hm : m ∈ T) (c : CString) : vfsLookup (linkChild (Function.update nodes n new) self n) m c =
      if m = self ∧ vfsLookup nodes m c = 0 ∧ new.name = some c then n else vfsLookup nodes m c := by
  obtain ⟨ks, hks, hmem, hl⟩ := h.vfsLookup_eq hm
  obtain ⟨ks', hks', _, hl'⟩ := (h.link hself hn hn0 hnew).vfsLookup_eq (.inr hm)
  rw [hks'.unique (h.link_children hself hn hn0 hnew hm hks hmem)] at hl'
  rw [hl', hl]
  have hfind : ks.find? (fun p => decide ((linkChild (Function.update nodes n new) self n p).name = some c)) =
      ks.find? fun p => decide ((nodes p).name = some c) := by
    refine List.find?_congr fun k hk => ?_
    obtain ⟨child, next, hkeep⟩ := link_old nodes new self hn (hmem k hk).1
    rw [hkeep]
    rfl
  by_cases hms : m = self
  · simp only [hms, ↓reduceIte, true_and, List.find?_append, hfind]
    cases hf : ks.find? fun p => decide ((nodes p).name = some c) with
    | some k =>
        have hk0 : k ≠ 0 := hks.ne_null k (List.mem_of_find?_eq_some hf)
        rw [Option.some_or, Option.getD_some, if_neg fun hc => hk0 hc.1]
    | none =>
        by_cases hname : new.name = some c
        · simp [h.link_new hself hn hnew, hname]
        · simp [h.link_new hself hn hnew, hname]
  · simp only [hms, ↓reduceIte, false_and, hfind]

theorem lookup_link_new (h : VnodeTree nodes root T) (hself : self ∈ T) (hn : n ∉ T) (hnew : Unlinked new self)
    (c : CString) : vfsLookup (linkChild (Function.update nodes n new) self n) n c = 0 := by
  have hnil : Chain (fun p => (linkChild (Function.update nodes n new) self n p).next) 0
      (linkChild (Function.update nodes n new) self n n).child [] := by
    rw [h.link_new hself hn hnew]
    exact hnew.child
  exact hnil.findFrom_eq (by simp)

end VnodeTree

/-! ## Creation -/

/-- Only memory was asked for, and given back. -/
structure SameVfs (inUse : H → Set U64) (s s' : State H) : Prop where
  vfs : s'.toVfs = s.toVfs
  heap : inUse s.heap ⊆ inUse s'.heap

/-- What was allocated is as it was before. -/
structure Untouched (inUse : H → Set U64) (s s' : State H) : Prop where
  nodes : ∀ p ∈ inUse s.heap, s'.nodes p = s.nodes p
  ramfs : ∀ p ∈ inUse s.heap, s'.ramfs p = s.ramfs p
  records : s'.records = s.records
  mounts : s'.mounts = s.mounts
  rootMount : s'.rootMount = s.rootMount
  devfsRoot : s'.devfsRoot = s.devfsRoot
  heap : inUse s.heap ⊆ inUse s'.heap

/-- A vnode `n` with the data `d` was created in the directory `dir`, in blocks that were not in use. -/
structure Created (inUse : H → Set U64) (s s' : State H) (dir n d : U64) (new : Vnode) : Prop where
  vnode : n ≠ 0 ∧ n ∉ inUse s.heap
  data : d ≠ 0 ∧ d ∉ inUse s.heap ∧ d ≠ n
  nodes : s'.nodes = linkChild (Function.update s.nodes n new) dir n
  ramfs : s'.ramfs = Function.update s.ramfs d ⟨0, 0⟩
  blocks : s'.blocks = s.blocks
  records : s'.records = Function.update (Function.update s.records n (some .vnode)) d (some .ramfsData)
  mounts : s'.mounts = s.mounts
  rootMount : s'.rootMount = s.rootMount
  devfsRoot : s'.devfsRoot = s.devfsRoot
  heap : insert n (insert d (inUse s.heap)) ⊆ inUse s'.heap
  unlinked : Unlinked new dir
  fields : new.data = d ∧ new.ops = some .ramfs ∧ new.locked = false

theorem Vnode.setLocked_eq {node : Vnode} (h : node.locked = false) : node.setLocked false = node := by
  rw [← h]
  rfl

/-- The times that a vnode gets when it is created. -/
def Vnode.stamp (node : Vnode) (creationTime modifyTime accessTime : U32) : Vnode :=
  { node with creationTime := creationTime, modifyTime := modifyTime, accessTime := accessTime }

theorem stampVnode_eq (s : State H) (n : U64) : stampVnode s n =
    { s with
      nodes := Function.update s.nodes n
        ((s.nodes n).stamp (s.clock s.reads) (s.clock (s.reads + 1)) (s.clock (s.reads + 2)))
      reads := s.reads + 3 } := by
  simp only [stampVnode, State.getCurrentUnixTime, State.setNode, Function.update_self, Function.update_idem]
  rfl

/-- Linking commutes with changes that leave the links alone. -/
theorem linkChild_update {f : Vnode → Vnode} {x : U64} (hnext : ∀ v, (f v).next = v.next)
    (hchild : ∀ v, (f v).child = v.child) (hset : ∀ v c, (f v).setChild c = f (v.setChild c))
    (hset' : ∀ v c, (f v).setNext c = f (v.setNext c)) :
    linkChild (Function.update nodes x (f (nodes x))) self n =
      Function.update (linkChild nodes self n) x (f (linkChild nodes self n x)) := by
  have hfun : (fun p => (Function.update nodes x (f (nodes x)) p).next) = fun p => (nodes p).next := by
    funext p
    by_cases hp : p = x
    · rw [hp, Function.update_self, hnext]
    · rw [Function.update_of_ne hp]
  have hself : (Function.update nodes x (f (nodes x)) self).child = (nodes self).child := by
    by_cases hp : self = x
    · rw [hp, Function.update_self, hchild]
    · rw [Function.update_of_ne hp]
  -- the vnode that gets the link, and the link
  have hlink : ∀ (q : U64) (g : Vnode → Vnode), (∀ v, g (f v) = f (g v)) →
      Function.update (Function.update nodes x (f (nodes x))) q (g (Function.update nodes x (f (nodes x)) q)) =
        Function.update (Function.update nodes q (g (nodes q))) x (f (Function.update nodes q (g (nodes q)) x)) := by
    intro q g hg
    by_cases hq : q = x
    · rw [hq, Function.update_self, Function.update_self, Function.update_idem, Function.update_idem, hg]
    · rw [Function.update_of_ne hq, Function.update_of_ne (Ne.symm hq), Function.update_comm hq]
  simp only [linkChild, hfun, hself]
  split
  · exact hlink self (·.setChild n) fun v => hset v n
  · exact hlink _ (·.setNext n) fun v => hset' v n

/-- A creation that fails leaves what was allocated, but for the lock. -/
theorem ramfsCreate_null {name : CString} {type : U32} (hA : Proc.AllocatorSpec A inUse)
    (hres : ramfsCreate A s self name type = (0, s')) :
    (∃ b, Untouched inUse (s.setNode self ((s.nodes self).setLocked b)) s') ∧
      (vfsLookup (Function.update s.nodes self ((s.nodes self).setLocked false)) self name = 0 →
        Proc.Failed A inUse s'.heap) := by
  rcases hk₁ : A.kmalloc s.mm s.heap vnodeSize with ⟨p, mm₁, heap₁⟩
  rcases hk₂ : A.kmalloc mm₁ heap₁ (BitVec.ofNat 64 (name.length + 1)) with ⟨q, mm₂, heap₂⟩
  rcases hk₃ : A.kmalloc mm₂ heap₂ ramfsDataSize with ⟨d, mm₃, heap₃⟩
  have hheap₁ : inUse s.heap ⊆ inUse heap₁ := by simpa only [hk₁] using hA.kept s.mm s.heap vnodeSize
  have hheap₂ : inUse heap₁ ⊆ inUse heap₂ := by
    simpa only [hk₂] using hA.kept mm₁ heap₁ (BitVec.ofNat 64 (name.length + 1))
  have hheap₃ : inUse heap₂ ⊆ inUse heap₃ := by simpa only [hk₃] using hA.kept mm₂ heap₂ ramfsDataSize
  simp only [ramfsCreate, State.setNode, Function.update_self, Function.update_idem, State.kmalloc, strdup, hk₁, hk₂,
    hk₃] at hres
  split at hres
  · rename_i hfound
    obtain ⟨_, rfl⟩ := Prod.mk.inj hres
    exact ⟨⟨false, fun _ _ => rfl, fun _ _ => rfl, rfl, rfl, rfl, rfl, subset_rfl⟩, fun hc => absurd hc hfound⟩
  · split at hres
    · rename_i hp
      obtain ⟨_, rfl⟩ := Prod.mk.inj hres
      exact ⟨⟨true, fun _ _ => rfl, fun _ _ => rfl, rfl, rfl, rfl, rfl, hheap₁⟩,
        fun _ => ⟨s.mm, s.heap, vnodeSize, by rw [hk₁]; exact hp, by rw [hk₁]; exact id⟩⟩
    · rename_i hp
      have hfresh : p ∉ inUse s.heap := by simpa only [hk₁] using hA.fresh s.mm s.heap vnodeSize (by rw [hk₁]; exact hp)
      split at hres
      · rename_i hd
        obtain ⟨_, rfl⟩ := Prod.mk.inj hres
        refine ⟨⟨true, fun x hx => ?_, fun _ _ => rfl, rfl, rfl, rfl, rfl, fun x hx => ?_⟩,
          fun _ => ⟨mm₂, heap₂, ramfsDataSize, by rw [hk₃]; exact hd, fun h0 => ?_⟩⟩
        · have hxp : x ≠ p := fun hc => hfresh (hc ▸ hx)
          simp only [kfree_vfs, Function.update_of_ne hxp]
          rfl
        · exact hA.freed _ _ _ ⟨hheap₃ (hheap₂ (hheap₁ hx)), fun hc => hfresh (hc ▸ hx)⟩
        · rw [hk₃] at h0
          exact hA.freed _ _ _ ⟨h0, fun hc => hp hc.symm⟩
      · exact absurd (Prod.mk.inj hres).1 hp

theorem Untouched.unlock {b : Bool} (h : Untouched inUse (s.setNode self ((s.nodes self).setLocked b)) s')
    (hself : self ∈ inUse s.heap) (hlock : (s.nodes self).locked = false) :
    Untouched inUse s (s'.setNode self ((s'.nodes self).setLocked false)) := by
  refine ⟨fun p hp => ?_, h.ramfs, h.records, h.mounts, h.rootMount, h.devfsRoot, h.heap⟩
  by_cases hps : p = self
  · subst hps
    have hn : s'.nodes p = _ := h.nodes p hp
    simp only [State.setNode, Function.update_self] at hn ⊢
    rw [hn]
    exact Vnode.setLocked_eq hlock
  · have hn : s'.nodes p = _ := h.nodes p hp
    simp only [State.setNode, Function.update_of_ne hps] at hn ⊢
    exact hn

theorem ramfsCreate_ne_null {name : CString} {type : U32} (hmem : Memory A s name)
    (hfree : vfsLookup (Function.update s.nodes self ((s.nodes self).setLocked false)) self name = 0) :
    (ramfsCreate A s self name type).1 ≠ 0 := by
  rcases hk₁ : A.kmalloc s.mm s.heap vnodeSize with ⟨p, mm₁, heap₁⟩
  rcases hk₂ : A.kmalloc mm₁ heap₁ (BitVec.ofNat 64 (name.length + 1)) with ⟨q, mm₂, heap₂⟩
  simp only [Memory, hk₁, hk₂] at hmem
  simp only [ramfsCreate, State.setNode, Function.update_self, Function.update_idem, State.kmalloc, strdup, hk₁, hk₂,
    hfree, ne_eq, not_true_eq_false, ↓reduceIte, hmem.1, hmem.2.2, not_false_eq_true]

/-- The lock that is held during the creation leaves no trace. -/
theorem linkChild_unlock {new : Vnode} (hns : n ≠ self) (hlock : (nodes self).locked = false) :
    let linked := linkChild (Function.update (Function.update nodes self ((nodes self).setLocked true)) n new) self n
    Function.update linked self ((linked self).setLocked false) = linkChild (Function.update nodes n new) self n := by
  have hcomm : Function.update (Function.update nodes self ((nodes self).setLocked true)) n new =
      Function.update (Function.update nodes n new) self ((Function.update nodes n new self).setLocked true) := by
    rw [Function.update_of_ne hns.symm, Function.update_comm hns.symm]
  obtain ⟨child, next, hself⟩ := linkChild_apply (Function.update nodes n new) self n self
  rw [hcomm, linkChild_update (f := (·.setLocked true)) (fun _ => rfl) (fun _ => rfl) (fun _ _ => rfl) (fun _ _ => rfl)]
  simp only [Function.update_self, Function.update_idem]
  refine (congrArg _ ?_).trans (Function.update_eq_self self _)
  rw [hself, Function.update_of_ne hns.symm]
  exact Vnode.setLocked_eq (show (((nodes self).setChild child).setNext next).locked = false from hlock)

theorem linkChild_stamp {new : Vnode} (c m a : U32) :
    let linked := linkChild (Function.update nodes n new) self n
    Function.update linked n ((linked n).stamp c m a) = linkChild (Function.update nodes n (new.stamp c m a)) self n := by
  have hupdate : linkChild (Function.update (Function.update nodes n new) n ((Function.update nodes n new n).stamp c m a))
      self n = _ :=
    linkChild_update (f := (·.stamp c m a)) (fun _ => rfl) (fun _ => rfl) (fun _ _ => rfl) (fun _ _ => rfl)
  rw [Function.update_self, Function.update_idem] at hupdate
  exact hupdate.symm

/-- The outcome of a creation that succeeds, after the directory was unlocked and the times were set. -/
theorem Created.of_ramfsCreate {name : CString} {type : U32} {v : U64} {s₁ : State H} (hA : Proc.AllocatorSpec A inUse)
    (hself : self ∈ inUse s.heap) (hlock : (s.nodes self).locked = false)
    (hres : ramfsCreate A (s.setNode self ((s.nodes self).setLocked true)) self name type = (v, s₁)) (hv : v ≠ 0) :
    ∃ d new, Created inUse s (stampVnode (s₁.setNode self ((s₁.nodes self).setLocked false)) v) self v d new ∧
      vfsLookup s.nodes self name = 0 ∧ new.type = type ∧ new.mount = (s.nodes self).mount ∧
      new.name = (if Memory A s name then some name else none) ∧
      (new.name = some name ∨ Proc.Failed A inUse (stampVnode (s₁.setNode self ((s₁.nodes self).setLocked false)) v).heap) := by
  obtain ⟨mm₁, heap₁, q, mm₂, heap₂, d, mm₃, heap₃, hfree, hk₁, hk₂, hk₃, hd, rfl⟩ := ramfsCreate_cases hres hv
  replace hk₁ : A.kmalloc s.mm s.heap vnodeSize = (v, mm₁, heap₁) := hk₁
  have hfresh : v ∉ inUse s.heap := by simpa only [hk₁] using hA.fresh s.mm s.heap vnodeSize (by rw [hk₁]; exact hv)
  have hheap₁ : inUse s.heap ⊆ inUse heap₁ := by simpa only [hk₁] using hA.kept s.mm s.heap vnodeSize
  have hheap₂ : inUse heap₁ ⊆ inUse heap₂ := by
    simpa only [hk₂] using hA.kept mm₁ heap₁ (BitVec.ofNat 64 (name.length + 1))
  have hheap₃ : inUse heap₂ ⊆ inUse heap₃ := by simpa only [hk₃] using hA.kept mm₂ heap₂ ramfsDataSize
  have hv₁ : v ∈ inUse heap₁ := by simpa only [hk₁] using hA.used s.mm s.heap vnodeSize (by rw [hk₁]; exact hv)
  have hd₂ : d ∉ inUse heap₂ := by simpa only [hk₃] using hA.fresh mm₂ heap₂ ramfsDataSize (by rw [hk₃]; exact hd)
  have hd₃ : d ∈ inUse heap₃ := by simpa only [hk₃] using hA.used mm₂ heap₂ ramfsDataSize (by rw [hk₃]; exact hd)
  have hidem : ∀ node : Vnode, (node.setLocked true).setLocked true = node.setLocked true := fun _ => rfl
  have hunlock : ((s.nodes self).setLocked true).setLocked false = s.nodes self := Vnode.setLocked_eq hlock
  simp only [State.setNode, Function.update_self, Function.update_idem, hunlock, Function.update_eq_self] at hfree
  rw [stampVnode_eq]
  simp only [State.setNode, Function.update_self, Function.update_idem, hidem,
    linkChild_unlock (show v ≠ self from fun hc => hfresh (hc ▸ hself)) hlock, linkChild_stamp]
  refine ⟨d, _, ⟨⟨hv, hfresh⟩, ⟨hd, fun hc => hd₂ (hheap₂ (hheap₁ hc)), fun hc => hd₂ (hc ▸ hheap₂ hv₁)⟩, rfl, rfl, rfl, rfl,
    rfl, rfl, rfl, ?_, ⟨rfl, rfl, rfl⟩, rfl, rfl, rfl⟩, hfree, rfl, rfl, ?_, ?_⟩
  · rintro p (rfl | rfl | hp)
    · exact hheap₃ (hheap₂ hv₁)
    · exact hd₃
    · exact hheap₃ (hheap₂ (hheap₁ hp))
  · have hmem : Memory A s name ↔ q ≠ 0 := by
      simp only [Memory, hk₁, hk₂, hk₃]
      exact ⟨fun h => h.2.1, fun hq => ⟨hv, hq, hd⟩⟩
    simp only [hmem, ite_not]
    rfl
  · by_cases hq : q = 0
    · refine .inr ⟨mm₁, heap₁, BitVec.ofNat 64 (name.length + 1), by rw [hk₂]; exact hq, fun h0 => ?_⟩
      rw [hk₂] at h0
      exact hheap₃ h0
    · exact .inl (if_neg hq)

/-- A creation in a directory that is not locked returns. Without a new vnode it changes nothing. -/
theorem vfsCreateVnode_cases (name : CString) (type : U32) (hA : Proc.AllocatorSpec A inUse) (h0 : self ≠ 0)
    (hself : self ∈ inUse s.heap) (hlock : (s.nodes self).locked = false)
    (hdir : (s.nodes self).type = vnodeDir → (s.nodes self).ops ≠ some .devfs) :
    ∃ n s', vfsCreateVnode A s self name type = .ok (n, s') ∧
      (n = 0 ∧ Untouched inUse s s' ∧ (Memory A s name → ¬ CanCreate s.nodes self name) ∧
          (CanCreate s.nodes self name → Proc.Failed A inUse s'.heap) ∨
        ∃ d new, Created inUse s s' self n d new ∧ CanCreate s.nodes self name ∧ new.type = type ∧
          new.mount = (s.nodes self).mount ∧ new.name = (if Memory A s name then some name else none) ∧
          (new.name = some name ∨ Proc.Failed A inUse s'.heap)) := by
  have hlocked : ((s.setNode self ((s.nodes self).setLocked true)).nodes self) = (s.nodes self).setLocked true :=
    Function.update_self _ _ _
  have hidle : Untouched inUse (s.setNode self ((s.nodes self).setLocked true))
      (s.setNode self ((s.nodes self).setLocked true)) :=
    ⟨fun _ _ => rfl, fun _ _ => rfl, rfl, rfl, rfl, rfl, subset_rfl⟩
  have hunlock := hidle.unlock hself hlock
  rw [hlocked] at hunlock
  simp only [vfsCreateVnode, h0, ↓reduceIte, hlock, Bool.false_eq_true, hlocked]
  by_cases htype : (s.nodes self).type = vnodeDir
  · have htype' : ¬ ((s.nodes self).setLocked true).type ≠ vnodeDir := not_not.mpr htype
    rw [if_neg htype']
    cases hops : (s.nodes self).ops with
    | none =>
        have hops' : ((s.nodes self).setLocked true).ops = none := hops
        rw [hops']
        have hno : ¬ CanCreate s.nodes self name := by
          intro hc
          rw [CanCreate, hops] at hc
          cases hc.2.1
        exact ⟨_, _, rfl, .inl ⟨rfl, hunlock, fun _ => hno, fun hc => absurd hc hno⟩⟩
    | some ops =>
        have hops' : ((s.nodes self).setLocked true).ops = some ops := hops
        rw [hops']
        cases ops with
        | devfs => exact absurd hops (hdir htype)
        | ramfs =>
            rcases hres : ramfsCreate A (s.setNode self ((s.nodes self).setLocked true)) self name type with ⟨v, s₁⟩
            refine ⟨v, _, rfl, ?_⟩
            by_cases hv : v = 0
            · subst hv
              rw [if_neg (not_not.mpr rfl)]
              obtain ⟨⟨b, hb⟩, hfailed⟩ := ramfsCreate_null hA hres
              simp only [State.setNode, Function.update_self, Function.update_idem] at hb
              have hfree : CanCreate s.nodes self name →
                  vfsLookup (Function.update (s.setNode self ((s.nodes self).setLocked true)).nodes self
                    (((s.setNode self ((s.nodes self).setLocked true)).nodes self).setLocked false)) self name = 0 := by
                intro hc
                simp only [State.setNode, Function.update_self, Function.update_idem]
                rw [show ((s.nodes self).setLocked true).setLocked false = s.nodes self from Vnode.setLocked_eq hlock,
                  Function.update_eq_self]
                exact hc.2.2
              have hmem' : Memory A s name → Memory A (s.setNode self ((s.nodes self).setLocked true)) name := id
              exact .inl ⟨rfl, Untouched.unlock (b := b) hb hself hlock,
                fun hmem hc => ramfsCreate_ne_null (hmem' hmem) (hfree hc) (congrArg Prod.fst hres),
                fun hc => hfailed (hfree hc)⟩
            · rw [if_pos hv]
              obtain ⟨d, new, hcreated, hfree, hnew⟩ := Created.of_ramfsCreate hA hself hlock hres hv
              exact .inr ⟨d, new, hcreated, ⟨htype, hops, hfree⟩, hnew⟩
  · have htype' : ((s.nodes self).setLocked true).type ≠ vnodeDir := htype
    rw [if_pos htype']
    exact ⟨_, _, rfl, .inl ⟨rfl, hunlock, fun _ hc => htype hc.1, fun hc => absurd hc.1 htype⟩⟩

/-! ## The invariant -/

namespace FsInv

theorem mem_inUse (h : FsInv inUse role T s) {v : U64} (hv : v ∈ T) : v ∈ inUse s.heap :=
  h.used v (by rw [h.vnodes v hv]; simp)

theorem data_inUse (h : FsInv inUse role T s) {v : U64} (hv : v ∈ T) (hops : (s.nodes v).ops = some .ramfs)
    (h0 : (s.nodes v).data ≠ 0) : (s.nodes v).data ∈ inUse s.heap := h.used _ (by rw [h.data v hv hops h0]; simp)

theorem ne_zero (h : FsInv inUse role T s) {v : U64} (hv : v ∈ T) : v ≠ 0 := fun hc => h.tree.nonnull (hc ▸ hv)

/-- The shape of the tree is kept, and the blocks may get other roles. -/
theorem replace {role' : U64 → Option Role} (h : FsInv inUse role T s)
    (hnodes : ∀ v ∈ T, SameVnode (s'.nodes v) (s.nodes v)) (hmounts : s'.mounts = s.mounts)
    (hroot : s'.rootMount = s.rootMount) (hvnodes : ∀ v ∈ T, role' v = some .vnode)
    (hdata : ∀ v ∈ T, (s.nodes v).ops = some .ramfs → (s.nodes v).data ≠ 0 → role' (s.nodes v).data = some (.data v))
    (hbytes : ∀ v ∈ T, (s.nodes v).ops = some .ramfs → (s.nodes v).data ≠ 0 → (s'.ramfs (s.nodes v).data).data ≠ 0 →
      role' (s'.ramfs (s.nodes v).data).data = some (.bytes (s.nodes v).data))
    (hused : ∀ p, role' p ≠ none → p ∈ inUse s'.heap) : FsInv inUse role' T s' := by
  refine ⟨?_, ?_, ?_, ?_, fun v hv => ?_, fun v hv => ?_, fun v hv => ?_, hvnodes, fun v hv => ?_, fun v hv => ?_, hused⟩
  · rw [hmounts, hroot]
    exact h.tree.congr fun p hp => ⟨(hnodes p hp).next, (hnodes p hp).child, (hnodes p hp).parent⟩
  · rw [hroot]
    exact h.rootMount
  · rw [hmounts, hroot, (hnodes _ h.tree.root_mem).mount]
    exact h.mount
  · rw [hmounts, hroot]
    exact h.mounts
  · rw [(hnodes v hv).locked]
    exact h.unlocked v hv
  · rw [(hnodes v hv).type, (hnodes v hv).ops]
    exact h.dirs v hv
  · rw [(hnodes v hv).ops, (hnodes v hv).data]
    exact h.devs v hv
  · rw [(hnodes v hv).ops, (hnodes v hv).data]
    exact hdata v hv
  · rw [(hnodes v hv).ops, (hnodes v hv).data]
    exact hbytes v hv

/-- Only the shape of the tree and the pointers of its vnodes count. -/
theorem congr (h : FsInv inUse role T s) (hnodes : ∀ v ∈ T, SameVnode (s'.nodes v) (s.nodes v))
    (hramfs : ∀ v ∈ T, (s.nodes v).ops = some .ramfs → (s.nodes v).data ≠ 0 →
      (s'.ramfs (s.nodes v).data).data = (s.ramfs (s.nodes v).data).data)
    (hmounts : s'.mounts = s.mounts) (hroot : s'.rootMount = s.rootMount) (hused : ∀ p, role p ≠ none → p ∈ inUse s'.heap) :
    FsInv inUse role T s' := by
  refine h.replace hnodes hmounts hroot h.vnodes h.data (fun v hv hops h0 => ?_) hused
  rw [hramfs v hv hops h0]
  exact h.bytes v hv hops h0

theorem untouched (h : FsInv inUse role T s) (hs : Untouched inUse s s') : FsInv inUse role T s' := by
  refine h.congr (fun v hv => ?_) (fun v hv hops h0 => ?_) hs.mounts hs.rootMount fun p hp => hs.heap (h.used p hp)
  · rw [hs.nodes v (h.mem_inUse hv)]
    exact .refl _
  · rw [hs.ramfs _ (h.data_inUse hv hops h0)]

theorem same (h : FsInv inUse role T s) (hs : SameVfs inUse s s') : FsInv inUse role T s' := by
  refine h.congr (fun v _ => ?_) (fun v _ _ _ => ?_) (by rw [hs.vfs]) (by rw [hs.vfs]) fun p hp => hs.heap (h.used p hp)
  · rw [hs.vfs]
    exact .refl _
  · rw [hs.vfs]

/-- The roles after a creation. -/
def createRole (role : U64 → Option Role) (n d : U64) : U64 → Option Role :=
  Function.update (Function.update role n (some .vnode)) d (some (.data n))

theorem created {n d : U64} {new : Vnode} (h : FsInv inUse role T s) (hself : self ∈ T)
    (hs : Created inUse s s' self n d new) : FsInv inUse (createRole role n d) (insert n T) s' := by
  have hn : n ∉ T := fun hc => hs.vnode.2 (h.mem_inUse hc)
  have hrole : ∀ p r, role p = some r → createRole role n d p = some r := by
    intro p r hp
    have hpu : p ∈ inUse s.heap := h.used p (by rw [hp]; simp)
    have hpd : p ≠ d := fun hc => hs.data.2.1 (hc ▸ hpu)
    have hpn : p ≠ n := fun hc => hs.vnode.2 (hc ▸ hpu)
    rw [createRole, Function.update_of_ne hpd, Function.update_of_ne hpn, hp]
  have hnew : s'.nodes n = new := by rw [hs.nodes]; exact h.tree.link_new hself hn hs.unlinked
  have hold : ∀ v ∈ T, ∃ child next, s'.nodes v = ((s.nodes v).setChild child).setNext next := by
    intro v hv
    rw [hs.nodes]
    exact VnodeTree.link_old s.nodes new self hn hv
  have hdata : ∀ v ∈ T, (s.nodes v).ops = some .ramfs → (s.nodes v).data ≠ 0 →
      s'.ramfs (s.nodes v).data = s.ramfs (s.nodes v).data := by
    intro v hv hops h0
    have hne : (s.nodes v).data ≠ d := fun hc => hs.data.2.1 (hc ▸ h.data_inUse hv hops h0)
    rw [hs.ramfs, Function.update_of_ne hne]
  obtain ⟨child₀, next₀, hroot⟩ := hold _ h.tree.root_mem
  refine ⟨?_, ?_, ?_, ?_, ?_, ?_, ?_, ?_, ?_, ?_, ?_⟩
  · rw [hs.nodes, hs.mounts, hs.rootMount]
    exact h.tree.link hself hn hs.vnode.1 hs.unlinked
  · rw [hs.rootMount]
    exact h.rootMount
  · rw [hs.mounts, hs.rootMount, hroot]
    exact h.mount
  · obtain ⟨later, hchain, hlater⟩ := h.mounts
    rw [hs.mounts, hs.rootMount]
    exact ⟨later, hchain, fun M hM => (hlater M hM).imp_right .inr⟩
  · rintro v (rfl | hv)
    · rw [hnew]
      exact hs.fields.2.2
    · obtain ⟨_, _, hv'⟩ := hold v hv
      rw [hv']
      exact h.unlocked v hv
  · rintro v (rfl | hv)
    · rw [hnew, hs.fields.2.1]
      simp
    · obtain ⟨_, _, hv'⟩ := hold v hv
      rw [hv']
      exact h.dirs v hv
  · rintro v (rfl | hv)
    · rw [hnew, hs.fields.2.1]
      simp
    · obtain ⟨_, _, hv'⟩ := hold v hv
      rw [hv']
      exact h.devs v hv
  · rintro v (rfl | hv)
    · rw [createRole, Function.update_of_ne hs.data.2.2.symm, Function.update_self]
    · exact hrole v _ (h.vnodes v hv)
  · rintro v (rfl | hv)
    · rw [hnew, hs.fields.1]
      intro _ _
      rw [createRole, Function.update_self]
    · obtain ⟨_, _, hv'⟩ := hold v hv
      rw [hv']
      exact fun hops h0 => hrole _ _ (h.data v hv hops h0)
  · rintro v (rfl | hv)
    · rw [hnew, hs.fields.1, hs.ramfs, Function.update_self]
      exact fun _ _ hc => absurd rfl hc
    · obtain ⟨_, _, hv'⟩ := hold v hv
      rw [hv']
      intro hops h0 hb
      change (s'.ramfs (s.nodes v).data).data ≠ 0 at hb
      change createRole role n d (s'.ramfs (s.nodes v).data).data = _
      rw [hdata v hv hops h0] at hb ⊢
      exact hrole _ _ (h.bytes v hv hops h0 hb)
  · intro p hp
    apply hs.heap
    by_cases hpd : p = d
    · exact .inr (.inl hpd)
    · by_cases hpn : p = n
      · exact .inl hpn
      · rw [createRole, Function.update_of_ne hpd, Function.update_of_ne hpn] at hp
        exact .inr (.inr (h.used p hp))

end FsInv

end ShadowOS.Fs
