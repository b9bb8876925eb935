import Mathlib

/-!
# Trees in a store

A cell leads to its first child, to its next sibling and to its parent; `null` ends the lists.
-/

namespace ShadowOS

structure Links (α : Type) where
  child : α → α
  next : α → α
  parent : α → α
  null : α

variable {α β : Type}

namespace Links

/-- The cells below `p` from its child `a` on: `a` with all below it, and its later siblings. -/
inductive Forest (L : Links α) : α → α → List α → Prop where
  | nil {p : α} : L.Forest p L.null []
  | cons {p a : α} {cs bs : List α} (hne : a ≠ L.null) (hparent : L.parent a = p)
      (hchildren : L.Forest a (L.child a) cs) (hsiblings : L.Forest p (L.next a) bs) : L.Forest p a (a :: (cs ++ bs))

/-- The cells `as` are those below `root`, and no cell is met twice. -/
structure Tree (L : Links α) (root : α) (as : List α) : Prop where
  nonnull : root ≠ L.null
  forest : L.Forest root (L.child root) as
  nodup : (root :: as).Nodup

/-- A cell that is reached from the root, with the labels on the way, the last one first. -/
inductive Reach (L : Links α) (label : α → β) (root : α) : List β → α → Prop where
  | root : L.Reach label root [] root
  | child {path : List β} {a : α} (h : L.Reach label root path a) (hne : L.child a ≠ L.null) :
      L.Reach label root (label (L.child a) :: path) (L.child a)
  | next {l : β} {path : List β} {a : α} (h : L.Reach label root (l :: path) a) (hne : L.next a ≠ L.null) :
      L.Reach label root (label (L.next a) :: path) (L.next a)

variable {L L' : Links α} {p a b c d root v : α} {as bs vs : List α}

namespace Reach

variable {label : α → β} {l : β} {path : List β}

theorem of_child (h : L.Reach label root path a) (he : L.child a = b) (hne : b ≠ L.null) :
    L.Reach label root (label b :: path) b := by
  subst he
  exact .child h hne

theorem of_next (h : L.Reach label root (l :: path) a) (he : L.next a = b) (hne : b ≠ L.null) :
    L.Reach label root (label b :: path) b := by
  subst he
  exact .next h hne

end Reach

/-! ## Forests -/

namespace Forest

theorem ne_null (h : L.Forest p a as) : ∀ b ∈ as, b ≠ L.null := by
  induction h with
  | nil => simp
  | cons hne _ _ _ ihc ihs => exact List.forall_mem_cons.mpr ⟨hne, List.forall_mem_append.mpr ⟨ihc, ihs⟩⟩

theorem first_mem (h : L.Forest p a as) (ha : a ≠ L.null) : a ∈ as ∧ L.parent a = p := by
  cases h with
  | nil => exact absurd rfl ha
  | cons _ hparent _ _ => exact ⟨List.mem_cons_self, hparent⟩

theorem eq_nil (h : L.Forest p a as) (ha : a = L.null) : as = [] := by
  cases h with
  | nil => rfl
  | cons hne _ _ _ => exact absurd ha hne

theorem child_mem (h : L.Forest p a as) (hb : b ∈ as) (hc : L.child b ≠ L.null) :
    L.child b ∈ as ∧ L.parent (L.child b) = b := by
  induction h with
  | nil => cases hb
  | cons _ _ hchildren _ ihc ihs =>
      rw [List.mem_cons, List.mem_append] at hb
      rcases hb with rfl | hb | hb
      · exact (hchildren.first_mem hc).imp_left (by simp +contextual)
      · exact (ihc hb).imp_left (by simp +contextual)
      · exact (ihs hb).imp_left (by simp +contextual)

theorem next_mem (h : L.Forest p a as) (hb : b ∈ as) (hn : L.next b ≠ L.null) :
    L.next b ∈ as ∧ L.parent (L.next b) = L.parent b := by
  induction h with
  | nil => cases hb
  | cons _ hparent _ hsiblings ihc ihs =>
      rw [List.mem_cons, List.mem_append] at hb
      rcases hb with rfl | hb | hb
      · rw [hparent]
        exact (hsiblings.first_mem hn).imp_left (by simp +contextual)
      · exact (ihc hb).imp_left (by simp +contextual)
      · exact (ihs hb).imp_left (by simp +contextual)

/-- Every cell but the first one is entered from another one. -/
theorem entered (h : L.Forest p a as) (hb : b ∈ as) :
    b = a ∨ (∃ c ∈ as, L.child c = b) ∨ ∃ c ∈ as, L.next c = b := by
  induction h with
  | nil => cases hb
  | @cons p a cs bs _ _ _ _ ihc ihs =>
      rw [List.mem_cons, List.mem_append] at hb
      rcases hb with rfl | hb | hb
      · exact .inl rfl
      · rcases ihc hb with rfl | ⟨c, hc, he⟩ | ⟨c, hc, he⟩
        · exact .inr (.inl ⟨a, by simp, rfl⟩)
        · exact .inr (.inl ⟨c, by simp [hc], he⟩)
        · exact .inr (.inr ⟨c, by simp [hc], he⟩)
      · rcases ihs hb with rfl | ⟨c, hc, he⟩ | ⟨c, hc, he⟩
        · exact .inr (.inr ⟨a, by simp, rfl⟩)
        · exact .inr (.inl ⟨c, by simp [hc], he⟩)
        · exact .inr (.inr ⟨c, by simp [hc], he⟩)

/-- In a list without repetition the first cell is not entered from the others. -/
theorem first_unentered (h : L.Forest p a as) (hnd : as.Nodup) (ha : a ≠ L.null) (hb : b ∈ as) :
    L.child b ≠ a ∧ L.next b ≠ a := by
  cases h with
  | nil => exact absurd rfl ha
  | @cons p a cs bs hne hparent hchildren hsiblings =>
      obtain ⟨hnot, _⟩ := List.nodup_cons.mp hnd
      rw [List.mem_append, not_or] at hnot
      have hchild : ∀ {x}, L.child x ∈ cs ∨ L.child x ∈ bs → L.child x ≠ a :=
        fun hx he => hx.elim (fun hx => hnot.1 (he ▸ hx)) (fun hx => hnot.2 (he ▸ hx))
      have hnext : ∀ {x}, L.next x ∈ cs ∨ L.next x ∈ bs → L.next x ≠ a :=
        fun hx he => hx.elim (fun hx => hnot.1 (he ▸ hx)) (fun hx => hnot.2 (he ▸ hx))
      have hof : ∀ {x y}, (x ≠ L.null → x ≠ y) → y ≠ L.null → x ≠ y := by
        intro x y hx hy he
        exact hx (he ▸ hy) he
      rw [List.mem_cons, List.mem_append] at hb
      rcases hb with rfl | hb | hb
      · exact ⟨hof (fun hc => hchild (.inl (hchildren.first_mem hc).1)) hne,
          hof (fun hn => hnext (.inr (hsiblings.first_mem hn).1)) hne⟩
      · exact ⟨hof (fun hc => hchild (.inl (hchildren.child_mem hb hc).1)) hne,
          hof (fun hn => hnext (.inl (hchildren.next_mem hb hn).1)) hne⟩
      · exact ⟨hof (fun hc => hchild (.inr (hsiblings.child_mem hb hc).1)) hne,
          hof (fun hn => hnext (.inr (hsiblings.next_mem hb hn).1)) hne⟩

/-- What `a :: (cs ++ bs)` without repetition says of its parts. -/
theorem nodup_parts (hnd : (a :: (as ++ bs)).Nodup) : as.Nodup ∧ bs.Nodup ∧ ∀ x ∈ as, x ∉ bs := by
  obtain ⟨_, hnd⟩ := List.nodup_cons.mp hnd
  rw [List.nodup_append'] at hnd
  exact ⟨hnd.1, hnd.2.1, fun x hx hx' => hnd.2.2 hx hx'⟩

theorem next_inj (h : L.Forest p a as) (hnd : as.Nodup) (hc : c ∈ as) (hd : d ∈ as) (hne : L.next c ≠ L.null)
    (he : L.next c = L.next d) : c = d := by
  induction h with
  | nil => cases hc
  | @cons p a cs bs _ _ hchildren hsiblings ihc ihs =>
      obtain ⟨hcs, hbs, hdisj⟩ := nodup_parts hnd
      have hin : ∀ {x}, x ∈ cs → L.next x ≠ L.null → L.next x ∈ cs := fun hx hn => (hchildren.next_mem hx hn).1
      have hout : ∀ {x}, x ∈ bs → L.next x ≠ L.null → L.next x ∈ bs := fun hx hn => (hsiblings.next_mem hx hn).1
      have hfirst : L.next a ≠ L.null → L.next a ∈ bs := fun hn => (hsiblings.first_mem hn).1
      have hned : L.next d ≠ L.null := he ▸ hne
      rw [List.mem_cons, List.mem_append] at hc hd
      rcases hc with rfl | hc | hc
      · rcases hd with rfl | hd | hd
        · rfl
        · exact absurd (he ▸ hfirst hne) (hdisj _ (hin hd hned))
        · exact absurd he.symm (hsiblings.first_unentered hbs hne hd).2
      · rcases hd with rfl | hd | hd
        · exact absurd (he ▸ hfirst hned) (hdisj _ (hin hc hne))
        · exact ihc hcs hc hd
        · exact absurd (he ▸ hout hd hned) (hdisj _ (hin hc hne))
      · rcases hd with rfl | hd | hd
        · exact absurd he (hsiblings.first_unentered hbs hned hc).2
        · exact absurd (he ▸ hout hc hne) (hdisj _ (hin hd hned))
        · exact ihs hbs hc hd

theorem next_ne_child (h : L.Forest p a as) (hnd : as.Nodup) (hc : c ∈ as) (hd : d ∈ as) (hne : L.next c ≠ L.null) :
    L.next c ≠ L.child d := by
  induction h with
  | nil => cases hc
  | @cons p a cs bs _ _ hchildren hsiblings ihc ihs =>
      obtain ⟨hcs, hbs, hdisj⟩ := nodup_parts hnd
      intro he
      have hned : L.child d ≠ L.null := he ▸ hne
      rw [List.mem_cons, List.mem_append] at hc hd
      rcases hc with rfl | hc | hc
      · have hn := (hsiblings.first_mem hne).1
        rcases hd with rfl | hd | hd
        · exact hdisj _ (hchildren.first_mem hned).1 (he ▸ hn)
        · exact hdisj _ (hchildren.child_mem hd hned).1 (he ▸ hn)
        · exact (hsiblings.first_unentered hbs hne hd).1 he.symm
      · have hn := (hchildren.next_mem hc hne).1
        rcases hd with rfl | hd | hd
        · exact (hchildren.first_unentered hcs hned hc).2 he
        · exact ihc hcs hc hd he
        · exact hdisj _ hn (he ▸ (hsiblings.child_mem hd hned).1)
      · have hn := (hsiblings.next_mem hc hne).1
        rcases hd with rfl | hd | hd
        · exact hdisj _ (hchildren.first_mem hned).1 (he ▸ hn)
        · exact hdisj _ (hchildren.child_mem hd hned).1 (he ▸ hn)
        · exact ihs hbs hc hd he

theorem next_ne_self (h : L.Forest p a as) (hnd : as.Nodup) (hb : b ∈ as) (hne : L.next b ≠ L.null) : L.next b ≠ b := by
  induction h with
  | nil => cases hb
  | cons _ _ _ hsiblings ihc ihs =>
      obtain ⟨hcs, hbs, _⟩ := nodup_parts hnd
      rw [List.mem_cons, List.mem_append] at hb
      rcases hb with rfl | hb | hb
      · intro he
        exact (List.nodup_cons.mp hnd).1 (List.mem_append_right _ (he ▸ (hsiblings.first_mem hne).1))
      · exact ihc hcs hb
      · exact ihs hbs hb

/-- Every cell has a tree of its own below it, apart from its parent. -/
theorem subtree (h : L.Forest p a as) (hnd : (p :: as).Nodup) (hv : v ∈ as) :
    ∃ vs, L.Tree v vs ∧ v :: vs ⊆ as ∧ L.parent v ∈ p :: as ∧ L.parent v ∉ v :: vs := by
  induction h with
  | nil => cases hv
  | @cons p a cs bs hne hparent hchildren hsiblings ihc ihs =>
      obtain ⟨hp, hnd'⟩ := List.nodup_cons.mp hnd
      obtain ⟨ha, hcb⟩ := List.nodup_cons.mp hnd'
      rw [List.nodup_append'] at hcb
      have hacs : (a :: cs).Nodup := List.nodup_cons.mpr ⟨fun hc => ha (List.mem_append_left _ hc), hcb.1⟩
      have hsub : a :: cs ⊆ a :: (cs ++ bs) := List.cons_subset_cons _ (List.subset_append_left _ _)
      rw [List.mem_cons, List.mem_append] at hv
      rcases hv with rfl | hv | hv
      · refine ⟨cs, ⟨hne, hchildren, hacs⟩, hsub, ?_, ?_⟩
        · rw [hparent]
          exact List.mem_cons_self
        · rw [hparent]
          exact fun hc => hp (hsub hc)
      · obtain ⟨vs, htree, hvs, hmem, hnot⟩ := ihc hacs hv
        exact ⟨vs, htree, fun x hx => hsub (List.mem_cons_of_mem _ (hvs hx)), List.mem_cons_of_mem _ (hsub hmem), hnot⟩
      · have hpbs : (p :: bs).Nodup :=
          List.nodup_cons.mpr ⟨fun hc => hp (List.mem_cons_of_mem _ (List.mem_append_right _ hc)), hcb.2.1⟩
        obtain ⟨vs, htree, hvs, hmem, hnot⟩ := ihs hpbs hv
        have hbs : bs ⊆ a :: (cs ++ bs) := fun x hx => List.mem_cons_of_mem _ (List.mem_append_right _ hx)
        exact ⟨vs, htree, fun x hx => hbs (hvs hx), List.cons_subset_cons _ hbs hmem, hnot⟩

end Forest

/-! ## Trees -/

namespace Tree

theorem child_mem (h : L.Tree root as) (hb : b ∈ root :: as) (hc : L.child b ≠ L.null) :
    L.child b ∈ as ∧ L.parent (L.child b) = b := by
  rw [List.mem_cons] at hb
  rcases hb with rfl | hb
  · exact h.forest.first_mem hc
  · exact h.forest.child_mem hb hc

theorem next_mem (h : L.Tree root as) (hb : b ∈ as) (hn : L.next b ≠ L.null) :
    L.next b ∈ as ∧ L.parent (L.next b) = L.parent b := h.forest.next_mem hb hn

theorem entered (h : L.Tree root as) (hb : b ∈ as) :
    (∃ c ∈ root :: as, L.child c = b) ∨ ∃ c ∈ as, L.next c = b := by
  rcases h.forest.entered hb with rfl | ⟨c, hc, he⟩ | hn
  · exact .inl ⟨root, List.mem_cons_self, rfl⟩
  · exact .inl ⟨c, List.mem_cons_of_mem _ hc, he⟩
  · exact .inr hn

theorem next_inj (h : L.Tree root as) (hc : c ∈ as) (hd : d ∈ as) (hne : L.next c ≠ L.null) (he : L.next c = L.next d) :
    c = d := h.forest.next_inj (List.nodup_cons.mp h.nodup).2 hc hd hne he

theorem next_ne_child (h : L.Tree root as) (hc : c ∈ as) (hd : d ∈ root :: as) (hne : L.next c ≠ L.null) :
    L.next c ≠ L.child d := by
  have hnd := (List.nodup_cons.mp h.nodup).2
  rw [List.mem_cons] at hd
  rcases hd with rfl | hd
  · intro he
    exact (h.forest.first_unentered hnd (he ▸ hne) hc).2 he
  · exact h.forest.next_ne_child hnd hc hd hne

theorem next_ne_self (h : L.Tree root as) (hb : b ∈ as) (hne : L.next b ≠ L.null) : L.next b ≠ b :=
  h.forest.next_ne_self (List.nodup_cons.mp h.nodup).2 hb hne

theorem ne_null (h : L.Tree root as) : ∀ b ∈ root :: as, b ≠ L.null :=
  List.forall_mem_cons.mpr ⟨h.nonnull, h.forest.ne_null⟩

variable {label : α → β} {path : List β}

theorem reach_mem (h : L.Tree root as) (hr : L.Reach label root path b) : b ∈ root :: as ∧ (path ≠ [] → b ∈ as) := by
  induction hr with
  | root => exact ⟨List.mem_cons_self, fun hc => absurd rfl hc⟩
  | child _ hne ih =>
      have hm := (h.child_mem ih.1 hne).1
      exact ⟨List.mem_cons_of_mem _ hm, fun _ => hm⟩
  | next _ hne ih =>
      have hm := (h.next_mem (ih.2 (List.cons_ne_nil _ _)) hne).1
      exact ⟨List.mem_cons_of_mem _ hm, fun _ => hm⟩

theorem mem_reach (label : α → β) (h : L.Tree root as) (hb : b ∈ as) : ∃ l path, L.Reach label root (l :: path) b := by
  -- over the forest: its first cell is reached
  have hall : ∀ {p a as}, L.Forest p a as → (a ≠ L.null → ∃ l path, L.Reach label root (l :: path) a) →
      ∀ b ∈ as, ∃ l path, L.Reach label root (l :: path) b := by
    intro p a as hf
    induction hf with
    | nil => simp
    | cons hne _ _ _ ihc ihs =>
        intro hfirst
        obtain ⟨l, path, hr⟩ := hfirst hne
        rw [List.forall_mem_cons, List.forall_mem_append]
        exact ⟨⟨l, path, hr⟩, ihc (fun hc => ⟨_, _, hr.child hc⟩), ihs (fun hn => ⟨_, _, hr.next hn⟩)⟩
  exact hall h.forest (fun hne => ⟨_, _, Reach.root.child hne⟩) b hb

theorem reach_iff (label : α → β) (h : L.Tree root as) : (∃ path, L.Reach label root path b) ↔ b ∈ root :: as := by
  refine ⟨fun ⟨_, hr⟩ => (h.reach_mem hr).1, fun hb => ?_⟩
  rw [List.mem_cons] at hb
  rcases hb with rfl | hb
  · exact ⟨[], .root⟩
  · obtain ⟨l, path, hr⟩ := h.mem_reach label hb
    exact ⟨_, hr⟩

/-- A subtree is entered at its root only. -/
theorem enter_child (h : L.Tree root as) (hsub : L.Tree v vs) (hvs : v :: vs ⊆ as) (hb : b ∈ root :: as) (hout : b ∉ v :: vs)
    (hin : L.child b ∈ v :: vs) : L.child b = v := by
  rw [List.mem_cons] at hin
  refine hin.resolve_right (fun hin => ?_)
  have hne : L.child b ≠ L.null := hsub.ne_null _ (List.mem_cons_of_mem _ hin)
  rcases hsub.entered hin with ⟨c, hc, he⟩ | ⟨c, hc, he⟩
  · have hcb : c = b := by
      rw [← (h.child_mem (List.mem_cons_of_mem _ (hvs hc)) (he ▸ hne)).2, he, (h.child_mem hb hne).2]
    exact hout (hcb ▸ hc)
  · exact h.next_ne_child (hvs (List.mem_cons_of_mem _ hc)) hb (he ▸ hne) he

theorem enter_next (h : L.Tree root as) (hsub : L.Tree v vs) (hvs : v :: vs ⊆ as) (hb : b ∈ as) (hout : b ∉ v :: vs)
    (hin : L.next b ∈ v :: vs) : L.next b = v := by
  rw [List.mem_cons] at hin
  refine hin.resolve_right (fun hin => ?_)
  have hne : L.next b ≠ L.null := hsub.ne_null _ (List.mem_cons_of_mem _ hin)
  rcases hsub.entered hin with ⟨c, hc, he⟩ | ⟨c, hc, he⟩
  · exact h.next_ne_child hb (List.mem_cons_of_mem _ (hvs hc)) hne he.symm
  · have hcb := h.next_inj hb (hvs (List.mem_cons_of_mem _ hc)) hne he.symm
    exact hout (hcb ▸ List.mem_cons_of_mem _ hc)

end Tree

/-! ## Removal -/

/-- The cells `v :: vs` are given up: the parent of `v` loses its children when `v` is the first of them, and links to `v` from
a sibling stay. -/
structure Removal (L L' : Links α) (label label' : α → β) (v : α) (vs : List α) : Prop where
  null : L'.null = L.null
  next : ∀ b, L'.next b = L.next b
  child : ∀ b, L'.child b = L.child b ∨ L'.child b = L.null
  outside : ∀ b, b ∉ v :: vs → b ≠ L.parent v → L'.child b = L.child b
  cut : L.child (L.parent v) = v → L'.child (L.parent v) = L.null
  label : ∀ b, b ∉ v :: vs → label' b = label b

namespace Removal

variable {label label' : α → β} {path : List β}

/-- What is reached afterwards was a cell before. -/
theorem reach_mem (hr : Removal L L' label label' v vs) (h : L.Tree root as) (hb : L'.Reach label' root path b) :
    b ∈ root :: as ∧ (path ≠ [] → b ∈ as) := by
  induction hb with
  | root => exact ⟨List.mem_cons_self, fun hc => absurd rfl hc⟩
  | @child path a _ hne ih =>
      rw [hr.null] at hne
      have he := (hr.child a).resolve_right hne
      rw [he] at hne ⊢
      have hm := (h.child_mem ih.1 hne).1
      exact ⟨List.mem_cons_of_mem _ hm, fun _ => hm⟩
  | @next l path a _ hne ih =>
      rw [hr.null, hr.next] at hne
      rw [hr.next]
      have hm := (h.next_mem (ih.2 (List.cons_ne_nil _ _)) hne).1
      exact ⟨List.mem_cons_of_mem _ hm, fun _ => hm⟩

section Subtree

variable (hr : Removal L L' label label' v vs) (h : L.Tree root as) (hsub : L.Tree v vs) (hvs : v :: vs ⊆ as)
include hr hsub

/-- Without siblings of `v` the other cells stay where they were. -/
theorem reach_of_only (hchild : L.child (L.parent v) = v) (hnext : L.next v = L.null) (hb : L.Reach label root path b)
    (hout : b ∉ v :: vs) : L'.Reach label' root path b := by
  induction hb with
  | root => exact .root
  | @child path a ha hne ih =>
      have haout : a ∉ v :: vs := fun hc => hout (List.mem_cons_of_mem _ (hsub.child_mem hc hne).1)
      have hp : a ≠ L.parent v := by
        intro hp
        rw [hp, hchild] at hout
        exact hout List.mem_cons_self
      have he := hr.outside a haout hp
      rw [← hr.label _ hout, ← he]
      exact (ih haout).child (by rwa [he, hr.null])
  | @next l path a ha hne ih =>
      have haout : a ∉ v :: vs := by
        intro hc
        rw [List.mem_cons] at hc
        rcases hc with rfl | hc
        · exact hne hnext
        · exact hout (List.mem_cons_of_mem _ (hsub.next_mem hc hne).1)
      rw [← hr.label _ hout, ← hr.next]
      exact (ih haout).next (by rwa [hr.next, hr.null])

include h hvs

/-- Without siblings of `v` nothing that was given up is reached. -/
theorem out_of_only (hp : L.parent v ∈ root :: as) (hchild : L.child (L.parent v) = v) (hb : L'.Reach label' root path b) :
    b ∉ v :: vs := by
  have hroot : root ∉ v :: vs := fun hc => (List.nodup_cons.mp h.nodup).1 (hvs hc)
  induction hb with
  | root => exact hroot
  | @child path a ha hne ih =>
      intro hin
      have ham := (hr.reach_mem h ha).1
      rw [hr.null] at hne
      have he := (hr.child a).resolve_right hne
      rw [he] at hin hne
      have hav := h.enter_child hsub hvs ham ih hin
      have hpar : a = L.parent v := by rw [← hav, (h.child_mem ham hne).2]
      rw [← he, hpar] at hne
      exact hne (hr.cut hchild)
  | @next l path a ha hne ih =>
      intro hin
      have ham := (hr.reach_mem h ha).2 (List.cons_ne_nil _ _)
      rw [hr.next] at hin
      rw [hr.null, hr.next] at hne
      have hav := h.enter_next hsub hvs ham ih hin
      exact h.next_ne_child ham hp hne (hav.trans hchild.symm)

/-- A sibling before `v` leads to `v`, and one after `v` is lost. -/
theorem only_of_reach
    (hstay : ∀ path b, L.Reach label root path b → b ∉ v :: vs → L'.Reach label' root path b)
    (hgone : ∀ path b, L'.Reach label' root path b → b ∉ v :: vs) : L.child (L.parent v) = v ∧ L.next v = L.null := by
  have hv : v ∈ as := hvs List.mem_cons_self
  have hnot : v ∉ vs := (List.nodup_cons.mp hsub.nodup).1
  have hfirst : L.child (L.parent v) = v := by
    rcases h.entered hv with ⟨c, hc, he⟩ | ⟨q, hq, he⟩
    · have hpar := (h.child_mem hc (he ▸ hsub.nonnull)).2
      rw [he] at hpar
      rw [hpar, he]
    · have hne : L.next q ≠ L.null := he ▸ hsub.nonnull
      have hout : q ∉ v :: vs := by
        rw [List.mem_cons]
        rintro (rfl | hin)
        · exact h.next_ne_self hq hne he
        · exact hnot (he ▸ (hsub.next_mem hin hne).1)
      obtain ⟨l, path, hreach⟩ := h.mem_reach label hq
      have hto := (hstay _ _ hreach hout).next (by rwa [hr.next, hr.null])
      rw [hr.next, he] at hto
      exact absurd List.mem_cons_self (hgone _ _ hto)
  refine ⟨hfirst, ?_⟩
  by_contra hne
  have hout : L.next v ∉ v :: vs := by
    rw [List.mem_cons]
    rintro (he | hin)
    · exact h.next_ne_self hv hne he
    · rcases hsub.entered hin with ⟨c, hc, he⟩ | ⟨c, hc, he⟩
      · exact h.next_ne_child hv (List.mem_cons_of_mem _ (hvs hc)) hne he.symm
      · exact hnot (h.next_inj hv (hvs (List.mem_cons_of_mem _ hc)) hne he.symm ▸ hc)
  obtain ⟨l, path, hreach⟩ := h.mem_reach label (h.next_mem hv hne).1
  have hto := hstay _ _ hreach hout
  generalize hw : L.next v = w at hto
  cases hto with
  | @child _ a ha hne' =>
      rw [hr.null] at hne'
      rw [(hr.child a).resolve_right hne'] at hw
      exact h.next_ne_child hv (hr.reach_mem h ha).1 hne hw
  | @next l' _ a ha hne' =>
      rw [hr.next] at hw
      have hav := h.next_inj hv ((hr.reach_mem h ha).2 (List.cons_ne_nil _ _)) hne hw
      exact hgone _ _ ha (hav ▸ List.mem_cons_self)

/-- Exactly the tree of `v` is removed just when `v` has no siblings. -/
theorem reach_iff_only (hp : L.parent v ∈ root :: as) :
    ((∀ path b, L.Reach label root path b → b ∉ v :: vs → L'.Reach label' root path b) ∧
      ∀ path b, L'.Reach label' root path b → b ∉ v :: vs) ↔ L.child (L.parent v) = v ∧ L.next v = L.null := by
  refine ⟨fun ⟨hstay, hgone⟩ => hr.only_of_reach h hsub hvs hstay hgone, fun ⟨hchild, hnext⟩ => ⟨?_, ?_⟩⟩
  · exact fun _ _ hb hout => hr.reach_of_only hsub hchild hnext hb hout
  · exact fun _ _ hb => hr.out_of_only h hsub hvs hp hchild hb

end Subtree

end Removal

end Links

end ShadowOS
