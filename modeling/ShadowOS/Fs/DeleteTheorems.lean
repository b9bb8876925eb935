import ShadowOS.Fs.Delete
import ShadowOS.Fs.Theorems

/-!
# Theorems about deleting vnodes
-/

namespace ShadowOS.Fs

open Proc (bumpAllocator)

variable {H : Type} {A : Proc.Allocator H} {s s' t t' : State H} {nodes : U64 → Vnode} {p a v root : U64}
  {gone gone' cs ns : List U64}

/-! ## What a deletion changes -/

/-- The vnodes in `gone` are freed, and of the others only the child of `p` may be gone. -/
structure Deleted (s s' : State H) (gone : List U64) (p : U64) : Prop where
  links : ∀ q, (s'.nodes q).next = (s.nodes q).next ∧ (s'.nodes q).parent = (s.nodes q).parent ∧
    ((s'.nodes q).child = (s.nodes q).child ∨ (s'.nodes q).child = 0)
  name : ∀ q, q ∉ gone → (s'.nodes q).name = (s.nodes q).name
  same : ∀ q, q ∉ gone → q ≠ p → s'.nodes q = s.nodes q
  records : ∀ q, s'.records q = if q ∈ gone then none else s.records q

namespace Deleted

theorem refl (s : State H) (p : U64) : Deleted s s [] p :=
  ⟨fun _ => ⟨rfl, rfl, .inl rfl⟩, fun _ _ => rfl, fun _ _ _ => rfl, fun _ => rfl⟩

theorem trans (h : Deleted s t gone p) (h' : Deleted t s' gone' p) : Deleted s s' (gone ++ gone') p := by
  refine ⟨fun q => ?_, fun q hq => ?_, fun q hq hp => ?_, fun q => ?_⟩
  · obtain ⟨hn, hpar, hc⟩ := h.links q
    obtain ⟨hn', hpar', hc'⟩ := h'.links q
    refine ⟨hn'.trans hn, hpar'.trans hpar, ?_⟩
    rcases hc' with hc' | hc'
    · rw [hc']
      exact hc
    · exact .inr hc'
  · rw [List.mem_append, not_or] at hq
    rw [h'.name q hq.2, h.name q hq.1]
  · rw [List.mem_append, not_or] at hq
    rw [h'.same q hq.2 hp, h.same q hq.1 hp]
  · rw [h'.records, h.records]
    by_cases hg : q ∈ gone
    · simp [hg]
    · simp [hg]

end Deleted

/-- The vnode as it is freed. -/
def freedVnode (node : Vnode) : Vnode := { node with name := none, data := 0, locked := false }

theorem freeVnode_nodes (s : State H) : (freeVnode A s v).nodes = Function.update s.nodes v (freedVnode (s.nodes v)) := by
  have hkfree : ∀ (s : State H) q, (s.kfree A q).nodes = s.nodes := fun _ _ => rfl
  have hnone : ∀ node : Vnode, node.data = 0 → { node with name := none, locked := false } = freedVnode node := by
    rintro ⟨⟩ ⟨⟩
    rfl
  unfold freeVnode
  simp only [State.setNode, Function.update_self]
  split
  · simp only [hkfree, Function.update_idem, Function.update_self]
    rfl
  · rename_i hd
    simp only [hkfree, Function.update_idem, Function.update_self]
    exact congrArg (Function.update s.nodes v) (hnone _ (not_not.mp hd))

theorem freeVnode_records (s : State H) : (freeVnode A s v).records = Function.update s.records v none := by
  unfold freeVnode
  dsimp only
  split
  · rfl
  · rfl

/-- Taking the vnode from its parent changes the child of the parent only. -/
theorem deleted_unlinkVnode (s : State H) (v : U64) : Deleted s (unlinkVnode s v) [] (s.nodes v).parent := by
  unfold unlinkVnode
  dsimp only
  split
  · refine ⟨fun q => ?_, fun q _ => ?_, fun q _ hq => Function.update_of_ne hq _ _, fun _ => rfl⟩
    · by_cases hq : q = (s.nodes v).parent
      · simp only [State.setNode, hq, Function.update_self]
        exact ⟨rfl, rfl, .inr rfl⟩
      · simp only [State.setNode, Function.update_of_ne hq, true_or, and_self]
    · by_cases hq : q = (s.nodes v).parent
      · simp only [State.setNode, hq, Function.update_self]
        rfl
      · simp only [State.setNode, Function.update_of_ne hq]
  · exact .refl _ _

/-- A vnode that is locked and freed is gone. -/
theorem deleted_freeVnode (s : State H) (v p : U64) : Deleted s (freeVnode A s v) [v] p := by
  refine ⟨fun q => ?_, fun q hq => ?_, fun q hq _ => ?_, fun q => ?_⟩
  · rw [freeVnode_nodes]
    by_cases hq : q = v
    · rw [hq, Function.update_self]
      exact ⟨rfl, rfl, .inl rfl⟩
    · rw [Function.update_of_ne hq]
      exact ⟨rfl, rfl, .inl rfl⟩
  · rw [freeVnode_nodes, Function.update_of_ne (by simpa using hq)]
  · rw [freeVnode_nodes, Function.update_of_ne (by simpa using hq)]
  · rw [freeVnode_records]
    by_cases hq : q = v
    · rw [hq, Function.update_self, if_pos List.mem_cons_self]
    · rw [Function.update_of_ne hq, if_neg (by simpa using hq)]

/-! ## Deletion -/

/-- The vnodes that are to be deleted: not locked, and with children only in directories. -/
def Deletable (nodes : U64 → Vnode) (ns : List U64) : Prop :=
  ∀ n ∈ ns, (nodes n).locked = false ∧ ((nodes n).child ≠ 0 → (nodes n).type = vnodeDir)

/-- The vnode with its lock taken. -/
def lockVnode (s : State H) (v : U64) : State H := s.setNode v ((s.nodes v).setLocked true)

theorem deleteNode_succ {fuel : Nat} (hv0 : v ≠ 0) (hlock : (s.nodes v).locked = false)
    (hrun : (if ((lockVnode s v).nodes v).type = vnodeDir then
      deleteChildren A fuel (lockVnode s v) ((lockVnode s v).nodes v).child else .ok (lockVnode s v)) = .ok t) :
    deleteNode A (fuel + 1) s v = .ok (freeVnode A (unlinkVnode t v) v) := by
  unfold deleteNode
  rw [if_neg hv0, hlock, if_neg Bool.false_ne_true]
  dsimp only
  unfold lockVnode at hrun
  split at hrun
  · rename_i hdir
    rw [if_pos hdir, hrun]
    rfl
  · rename_i hdir
    rw [if_neg hdir, hrun]
    rfl

/-- Of the vnodes other than `v`, locking leaves everything. -/
theorem lockVnode_nodes (s : State H) {q : U64} (hq : q ≠ v) : (lockVnode s v).nodes q = s.nodes q :=
  Function.update_of_ne hq _ _

theorem lockVnode_self (s : State H) (v : U64) : (lockVnode s v).nodes v = (s.nodes v).setLocked true :=
  Function.update_self _ _ _

theorem lockVnode_links (s : State H) (v q : U64) : ((lockVnode s v).nodes q).next = (s.nodes q).next ∧
    ((lockVnode s v).nodes q).parent = (s.nodes q).parent ∧ ((lockVnode s v).nodes q).child = (s.nodes q).child := by
  by_cases hq : q = v
  · rw [hq, lockVnode_self]
    exact ⟨rfl, rfl, rfl⟩
  · rw [lockVnode_nodes s hq]
    exact ⟨rfl, rfl, rfl⟩

/-- The vnode `v` is deleted once its children are. -/
theorem Deleted.node (h : Deleted (lockVnode s v) t gone v) :
    Deleted s (freeVnode A (unlinkVnode t v) v) (v :: gone) (s.nodes v).parent := by
  have hpar : (t.nodes v).parent = (s.nodes v).parent := (h.links v).2.1.trans (lockVnode_links s v v).2.1
  have hu := deleted_unlinkVnode t v
  have hf := deleted_freeVnode (A := A) (unlinkVnode t v) v (s.nodes v).parent
  rw [hpar] at hu
  refine ⟨fun q => ?_, fun q hq => ?_, fun q hq hp => ?_, fun q => ?_⟩
  · obtain ⟨hn, hp, hc⟩ := (hu.trans hf).links q
    obtain ⟨hn₁, hp₁, hc₁⟩ := h.links q
    obtain ⟨hn₀, hp₀, hc₀⟩ := lockVnode_links s v q
    refine ⟨hn.trans (hn₁.trans hn₀), hp.trans (hp₁.trans hp₀), ?_⟩
    rcases hc with hc | hc
    · rw [hc, ← hc₀]
      exact hc₁
    · exact .inr hc
  · rw [List.mem_cons, not_or] at hq
    rw [(hu.trans hf).name q (by simpa using hq.1), h.name q hq.2, lockVnode_nodes s hq.1]
  · rw [List.mem_cons, not_or] at hq
    rw [(hu.trans hf).same q (by simpa using hq.1) hp, h.same q hq.2 hq.1, lockVnode_nodes s hq.1]
  · rw [(hu.trans hf).records, h.records]
    by_cases hq : q = v
    · simp [hq]
    · simp only [List.nil_append, List.mem_cons, hq, false_or]
      rfl

/-- A first child takes its siblings with it. -/
theorem Deleted.cut (h : Deleted (lockVnode s v) t gone v) (hp : (s.nodes v).parent ≠ v) (hp0 : (s.nodes v).parent ≠ 0)
    (hpg : (s.nodes v).parent ∉ gone) (hfirst : (s.nodes (s.nodes v).parent).child = v) :
    ((freeVnode A (unlinkVnode t v) v).nodes (s.nodes v).parent).child = 0 := by
  have hpar : (t.nodes v).parent = (s.nodes v).parent := (h.links v).2.1.trans (lockVnode_links s v v).2.1
  have hchild : (t.nodes (s.nodes v).parent).child = v := by rw [h.same _ hpg hp, lockVnode_nodes s hp, hfirst]
  rw [freeVnode_nodes, Function.update_of_ne hp]
  unfold unlinkVnode
  simp only [hpar, hchild, hp0, ne_eq, not_false_eq_true, and_self, ↓reduceIte, State.setNode, Function.update_self]
  rfl

/-- The vnode `a` is deleted when the loop over its children ends. -/
theorem deleteNode_of_children {fuel : Nat} (ha0 : a ≠ 0) (hchildren : (treeLinks nodes).Forest a (nodes a).child cs)
    (hda : (nodes a).locked = false ∧ ((nodes a).child ≠ 0 → (nodes a).type = vnodeDir)) (hsa : s.nodes a = nodes a)
    (hloop : ∃ t, deleteChildren A fuel (lockVnode s a) (nodes a).child = .ok t ∧ Deleted (lockVnode s a) t cs a) :
    ∃ t, deleteNode A (fuel + 1) s a = .ok (freeVnode A (unlinkVnode t a) a) ∧ Deleted (lockVnode s a) t cs a := by
  have hlock : (s.nodes a).locked = false := by rw [hsa, hda.1]
  by_cases hdir : (nodes a).type = vnodeDir
  · obtain ⟨t, hrun, hdeleted⟩ := hloop
    refine ⟨t, deleteNode_succ ha0 hlock ?_, hdeleted⟩
    rw [lockVnode_self, hsa]
    exact (if_pos hdir).trans hrun
  · have hnone : cs = [] := hchildren.eq_nil (by_contra fun hc => hdir (hda.2 hc))
    rw [hnone]
    refine ⟨lockVnode s a, deleteNode_succ ha0 hlock ?_, .refl _ _⟩
    rw [lockVnode_self, hsa]
    exact if_neg hdir

/-- The loop over the children `a`, … of `p` deletes all of them with all below. -/
theorem deleteChildren_forest (h : (treeLinks nodes).Forest p a ns) (hnd : (p :: ns).Nodup) (hdel : Deletable nodes ns)
    {fuel : Nat} (hfuel : 2 * ns.length + 1 ≤ fuel) {s : State H} (hs : ∀ q ∈ ns, s.nodes q = nodes q) :
    ∃ s', deleteChildren A fuel s a = .ok s' ∧ Deleted s s' ns p := by
  induction h generalizing fuel s with
  | nil =>
      obtain ⟨fuel, rfl⟩ := Nat.exists_eq_add_of_lt hfuel
      exact ⟨s, by rw [deleteChildren]; exact if_pos rfl, .refl _ _⟩
  | @cons p a cs bs hne hparent hchildren hsiblings ihc ihs =>
      rw [List.length_cons, List.length_append] at hfuel
      obtain ⟨fuel, rfl⟩ : ∃ n, fuel = n + 1 + 1 := ⟨fuel - 2, by omega⟩
      obtain ⟨hp, hnd'⟩ := List.nodup_cons.mp hnd
      obtain ⟨ha, hcb⟩ := List.nodup_cons.mp hnd'
      rw [List.nodup_append'] at hcb
      rw [List.mem_cons, List.mem_append, not_or, not_or] at hp
      rw [List.mem_append, not_or] at ha
      rw [Deletable, List.forall_mem_cons, List.forall_mem_append] at hdel
      obtain ⟨hda, hdcs, hdbs⟩ := hdel
      rw [List.forall_mem_cons, List.forall_mem_append] at hs
      obtain ⟨hsa, hscs, hsbs⟩ := hs
      have hne0 : a ≠ 0 := hne
      -- the vnode `a`, with its children first
      have hlocked : ∀ q ∈ cs, (lockVnode s a).nodes q = nodes q := by
        intro q hq
        rw [lockVnode_nodes s (by rintro rfl; exact ha.1 hq), hscs q hq]
      obtain ⟨t, hnode, hdeleted⟩ := deleteNode_of_children (A := A) (s := s) hne0 hchildren hda hsa
        (ihc (List.nodup_cons.mpr ⟨ha.1, hcb.1⟩) hdcs (by omega : 2 * cs.length + 1 ≤ fuel) hlocked)
      have hd := hdeleted.node (A := A)
      rw [hsa, show (nodes a).parent = p from hparent] at hd
      -- then its siblings, which are as they were
      have hkept : ∀ q ∈ bs, (freeVnode A (unlinkVnode t a) a).nodes q = nodes q := by
        intro q hq
        have hout : q ∉ a :: cs := by
          rw [List.mem_cons, not_or]
          exact ⟨by rintro rfl; exact ha.2 hq, fun hc => hcb.2.2 hc hq⟩
        rw [hd.same q hout (by rintro rfl; exact hp.2.2 hq), hsbs q hq]
      obtain ⟨s', hrest, hd'⟩ := ihs (List.nodup_cons.mpr ⟨hp.2.2, hcb.2.1⟩) hdbs
        (by omega : 2 * bs.length + 1 ≤ fuel + 1) hkept
      refine ⟨s', ?_, hd.trans hd'⟩
      rw [deleteChildren, if_neg hne0, hsa, hnode]
      exact hrest

/-- The whole tree of `v` is deleted. -/
theorem vfsDeleteNode_tree (h : (treeLinks s.nodes).Tree v ns) (hdel : Deletable s.nodes (v :: ns))
    (hp : (s.nodes v).parent ∉ v :: ns) : ∃ s', vfsDeleteNode A s v = .ok s' ∧ Deleted s s' (v :: ns) (s.nodes v).parent ∧
      ((s.nodes v).parent ≠ 0 → (s.nodes (s.nodes v).parent).child = v → (s'.nodes (s.nodes v).parent).child = 0) := by
  obtain ⟨hv, hnd⟩ := List.nodup_cons.mp h.nodup
  rw [Deletable, List.forall_mem_cons] at hdel
  have hlen : ns.length + 1 ≤ maxCells := length_le_maxCells h.nodup
  have hfuel : 2 * maxCells = (2 * maxCells - 1) + 1 := rfl
  have hlocked : ∀ q ∈ ns, (lockVnode s v).nodes q = s.nodes q :=
    fun q hq => lockVnode_nodes s (by rintro rfl; exact hv hq)
  obtain ⟨t, hnode, hdeleted⟩ := deleteNode_of_children (A := A) h.nonnull h.forest hdel.1 rfl
    (deleteChildren_forest h.forest h.nodup hdel.2 (by omega : 2 * ns.length + 1 ≤ 2 * maxCells - 1) hlocked)
  rw [List.mem_cons, not_or] at hp
  refine ⟨freeVnode A (unlinkVnode t v) v, ?_, hdeleted.node, fun hp0 hfirst => hdeleted.cut hp.1 hp0 hp.2 hfirst⟩
  rw [vfsDeleteNode, hfuel, hnode]

/-! ## Results -/

/-- Deletion removes exactly the tree of the vnode just when the vnode has no siblings. -/
theorem vfs_delete_removes_subtree_iff (h : WellFormedTree s root ns) (hv : v ∈ ns) :
    ∃ s', vfsDeleteNode A s v = .ok s' ∧ (RemovesSubtree s s' root v ↔
      (s.nodes (s.nodes v).parent).child = v ∧ (s.nodes v).next = 0) := by
  obtain ⟨vs, hsub, hvs, hpmem, hpnot⟩ := h.tree.forest.subtree h.tree.nodup hv
  have hdel : Deletable s.nodes (v :: vs) := fun n hn => ⟨h.unlocked n (hvs hn), h.dirs n (hvs hn)⟩
  obtain ⟨s', hrun, hd, hcut⟩ := vfsDeleteNode_tree (A := A) hsub hdel hpnot
  have hp0 : (s.nodes v).parent ≠ 0 := h.tree.ne_null _ hpmem
  have hrem : Links.Removal (treeLinks s.nodes) (treeLinks s'.nodes) (fun n => (s.nodes n).name) (fun n => (s'.nodes n).name)
      v vs := by
    refine ⟨rfl, fun q => (hd.links q).1, fun q => (hd.links q).2.2, fun q hq hqp => ?_, hcut hp0, hd.name⟩
    exact congrArg Vnode.child (hd.same q hq hqp)
  have hiff := hrem.reach_iff_only h.tree hsub hvs hpmem
  have hbelow : ∀ n, (∃ below, ReachedAt s.nodes v below n) ↔ n ∈ v :: vs := fun n => hsub.reach_iff _
  have hfreed : ∀ path n, ReachedAt s'.nodes root path n →
      ((s.records n = some .vnode ∧ s'.records n = none) ↔ n ∈ v :: vs) := by
    intro path n _
    rw [hd.records]
    by_cases hn : n ∈ v :: vs
    · simp [hn, h.records n (hvs hn)]
    · simp only [hn, ↓reduceIte, iff_false, not_and]
      intro hsome
      rw [hsome]
      exact Option.some_ne_none _
  refine ⟨s', hrun, Iff.trans ?_ hiff⟩
  refine and_congr ?_ ?_
  · refine forall_congr' fun path => forall_congr' fun n => ?_
    rw [hbelow]
    rfl
  · exact forall_congr' fun path => forall_congr' fun n => forall_congr' fun hr => not_congr (hfreed path n hr)

theorem sampleFile_wellFormedTree : WellFormedTree sampleFile.2 0x800 [0x1000] where
  tree := by
    refine ⟨by decide, ?_, by decide⟩
    have hroot : (treeLinks sampleFile.2.nodes).child 0x800 = 0x1000 := by decide
    have hchild : (treeLinks sampleFile.2.nodes).child 0x1000 = 0 := by decide
    have hnext : (treeLinks sampleFile.2.nodes).next 0x1000 = 0 := by decide
    rw [hroot]
    refine @Links.Forest.cons _ _ _ _ [] [] (by decide) (by decide) ?_ ?_
    · rw [hchild]
      exact .nil
    · rw [hnext]
      exact .nil
  dirs := by
    rw [List.forall_mem_singleton]
    decide
  unlocked := by
    rw [List.forall_mem_singleton]
    decide
  records := by
    rw [List.forall_mem_singleton]
    decide

theorem vfs_delete_removes_subtree_iff_sample : ∃ s', vfsDeleteNode bumpAllocator sampleFile.2 0x1000 = .ok s' ∧
    RemovesSubtree sampleFile.2 s' 0x800 0x1000 := by
  obtain ⟨s', hrun, hiff⟩ := vfs_delete_removes_subtree_iff (A := bumpAllocator) sampleFile_wellFormedTree (v := 0x1000)
    List.mem_cons_self
  exact ⟨s', hrun, hiff.mpr (by decide)⟩

/-- The sample file system with the files `a` and `b`. -/
def sampleSiblings : State U64 := (ramfsCreate bumpAllocator sampleFile.2 0x800 [98] vnodeFile).2

theorem sampleSiblings_wellFormedTree : WellFormedTree sampleSiblings 0x800 [0x1000, 0x107a] where
  tree := by
    refine ⟨by decide, ?_, by decide⟩
    have hroot : (treeLinks sampleSiblings.nodes).child 0x800 = 0x1000 := by decide
    have hchild : (treeLinks sampleSiblings.nodes).child 0x1000 = 0 := by decide
    have hnext : (treeLinks sampleSiblings.nodes).next 0x1000 = 0x107a := by decide
    have hchild' : (treeLinks sampleSiblings.nodes).child 0x107a = 0 := by decide
    have hnext' : (treeLinks sampleSiblings.nodes).next 0x107a = 0 := by decide
    rw [hroot]
    refine @Links.Forest.cons _ _ _ _ [] [0x107a] (by decide) (by decide) ?_ ?_
    · rw [hchild]
      exact .nil
    · rw [hnext]
      refine @Links.Forest.cons _ _ _ _ [] [] (by decide) (by decide) ?_ ?_
      · rw [hchild']
        exact .nil
      · rw [hnext']
        exact .nil
  dirs := by
    rw [List.forall_mem_cons, List.forall_mem_singleton]
    decide
  unlocked := by
    rw [List.forall_mem_cons, List.forall_mem_singleton]
    decide
  records := by
    rw [List.forall_mem_cons, List.forall_mem_singleton]
    decide

/-- With the first of two files the second is lost, and the last one is still reached after it is freed. -/
theorem vfs_delete_breaks_siblings : WellFormedTree sampleSiblings 0x800 [0x1000, 0x107a] ∧
    (∃ s', vfsDeleteNode bumpAllocator sampleSiblings 0x1000 = .ok s' ∧ ¬ RemovesSubtree sampleSiblings s' 0x800 0x1000) ∧
    ∃ s', vfsDeleteNode bumpAllocator sampleSiblings 0x107a = .ok s' ∧ ¬ RemovesSubtree sampleSiblings s' 0x800 0x107a := by
  have hreach : ∀ nodes : U64 → Vnode, (nodes 0x800).child = 0x1000 → (nodes 0x1000).next = 0x107a →
      ReachedAt nodes 0x800 [(nodes 0x107a).name] 0x107a := by
    intro nodes hchild hnext
    exact (Links.Reach.root.of_child hchild (by decide : (0x1000 : U64) ≠ 0)).of_next hnext (by decide : (0x107a : U64) ≠ 0)
  refine ⟨sampleSiblings_wellFormedTree, ?_, ?_⟩
  · have hrun : (vfsDeleteNode bumpAllocator sampleSiblings 0x1000).toOption.any
        (fun s => (s.nodes 0x800).child = 0) = true := by decide
    obtain ⟨s', hs', hcut⟩ := ok_of_any hrun
    have hcut : (treeLinks s'.nodes).child 0x800 = 0 := of_decide_eq_true hcut
    refine ⟨s', hs', fun h => ?_⟩
    -- only the root is left
    have hroot : ∀ path n, ReachedAt s'.nodes 0x800 path n → path = [] ∧ n = 0x800 := by
      intro path n hr
      induction hr with
      | root => exact ⟨rfl, rfl⟩
      | child _ hne ih =>
          rw [ih.2] at hne
          exact absurd hcut hne
      | next _ _ ih => cases ih.1
    have hb := hreach sampleSiblings.nodes (by decide) (by decide)
    refine List.cons_ne_nil _ _ (hroot _ _ (h.1 _ _ hb ?_)).1
    -- `b` is not below `a`
    rintro ⟨below, hbelow⟩
    have hleaf : (treeLinks sampleSiblings.nodes).Tree 0x1000 [] :=
      ⟨by decide, by
        have hnone : (treeLinks sampleSiblings.nodes).child 0x1000 = 0 := by decide
        rw [hnone]
        exact .nil, List.nodup_singleton _⟩
    exact absurd (hleaf.reach_mem hbelow).1 (by decide)
  · have hrun : (vfsDeleteNode bumpAllocator sampleSiblings 0x107a).toOption.any (fun s => (s.nodes 0x800).child = 0x1000 ∧
        (s.nodes 0x1000).next = 0x107a ∧ s.records 0x107a = none) = true := by decide
    obtain ⟨s', hs', hleft⟩ := ok_of_any hrun
    obtain ⟨hchild, hnext, hfreed⟩ := of_decide_eq_true hleft
    refine ⟨s', hs', fun h => ?_⟩
    exact h.2 _ _ (hreach s'.nodes hchild hnext) ⟨by decide, hfreed⟩

end ShadowOS.Fs
