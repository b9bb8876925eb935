import Mathlib

/-!
# Runs of a step function

A step takes a state and an action to the next state, or is refused.
-/

namespace ShadowOS

variable {S A : Type} {exec : S → A → Option S} {s s' : S} {a : A} {as : List A}

/-- The state after a sequence of actions, if every step of it can be taken. -/
def run (exec : S → A → Option S) (s : S) (as : List A) : Option S := as.foldlM exec s

/-- `P` holds in every state that the run passes through. -/
def AllStates (exec : S → A → Option S) (P : S → Prop) : S → List A → Prop
  | s, [] => P s
  | s, a :: as => P s ∧ ∀ s', exec s a = some s' → AllStates exec P s' as

/-- `C` holds of every state in which the run takes a step and of the action it takes there. -/
def AllSteps (exec : S → A → Option S) (C : S → A → Prop) : S → List A → Prop
  | _, [] => True
  | s, a :: as => C s a ∧ ∀ s', exec s a = some s' → AllSteps exec C s' as

instance AllStates.decidable {P : S → Prop} [∀ s, Decidable (P s)] : ∀ s as, Decidable (AllStates exec P s as)
  | s, [] => inferInstanceAs (Decidable (P s))
  | s, a :: as =>
      match h : exec s a with
      | none => decidable_of_iff (P s) ⟨fun hp => ⟨hp, fun s' hs' => by simp [h] at hs'⟩, And.left⟩
      | some t =>
          have : Decidable (AllStates exec P t as) := AllStates.decidable t as
          decidable_of_iff (P s ∧ AllStates exec P t as) (by simp [AllStates, h])

instance AllSteps.decidable {C : S → A → Prop} [∀ s a, Decidable (C s a)] : ∀ s as, Decidable (AllSteps exec C s as)
  | _, [] => isTrue trivial
  | s, a :: as =>
      match h : exec s a with
      | none => decidable_of_iff (C s a) ⟨fun hc => ⟨hc, fun s' hs' => by simp [h] at hs'⟩, And.left⟩
      | some t =>
          have : Decidable (AllSteps exec C t as) := AllSteps.decidable t as
          decidable_of_iff (C s a ∧ AllSteps exec C t as) (by simp [AllSteps, h])

theorem run_nil : run exec s [] = some s := rfl

theorem run_cons : run exec s (a :: as) = (exec s a).bind fun s' => run exec s' as := rfl

theorem run_cons_some (h : exec s a = some s') : run exec s (a :: as) = run exec s' as := by
  rw [run_cons, h, Option.bind_some]

/-- An invariant that every step keeps holds at the end of every run. -/
theorem run_invariant {I : S → Prop} (hstep : ∀ {s a s'}, I s → exec s a = some s' → I s') (hs : I s)
    (h : run exec s as = some s') : I s' := by
  induction as generalizing s with
  | nil =>
      cases h
      exact hs
  | cons a as ih =>
      rw [run_cons, Option.bind_eq_some_iff] at h
      obtain ⟨t, ht, h⟩ := h
      exact ih (hstep hs ht) h

theorem AllStates.mono {P Q : S → Prop} (hPQ : ∀ s, P s → Q s) (h : AllStates exec P s as) : AllStates exec Q s as := by
  induction as generalizing s with
  | nil => exact hPQ _ h
  | cons a as ih => exact ⟨hPQ _ h.1, fun s' hs' => ih (h.2 s' hs')⟩

/-- An invariant that the steps with `C` keep holds in every state of a run whose steps all have `C`. -/
theorem AllSteps.allStates {I : S → Prop} {C : S → A → Prop}
    (hstep : ∀ {s a s'}, I s → C s a → exec s a = some s' → I s') (hs : I s) (h : AllSteps exec C s as) :
    AllStates exec I s as := by
  induction as generalizing s with
  | nil => exact hs
  | cons a as ih => exact ⟨hs, fun s' hs' => ih (hstep hs h.1 hs') (h.2 s' hs')⟩

/-- An invariant that every step keeps holds in every state of a run. -/
theorem allStates_of_invariant {I : S → Prop} (hstep : ∀ {s a s'}, I s → exec s a = some s' → I s') (hs : I s) :
    AllStates exec I s as := by
  induction as generalizing s with
  | nil => exact hs
  | cons a as ih => exact ⟨hs, fun s' hs' => ih (hstep hs hs')⟩

/-- What an invariant gives for every action holds of all steps. -/
theorem AllStates.allSteps {I : S → Prop} {C : S → A → Prop} (hIC : ∀ {s a}, I s → C s a) (h : AllStates exec I s as) :
    AllSteps exec C s as := by
  induction as generalizing s with
  | nil => trivial
  | cons a as ih => exact ⟨hIC h.1, fun s' hs' => ih (h.2 s' hs')⟩

theorem AllSteps.and {C D : S → A → Prop} (h : AllSteps exec C s as) (h' : AllSteps exec D s as) :
    AllSteps exec (fun s a => C s a ∧ D s a) s as := by
  induction as generalizing s with
  | nil => trivial
  | cons a as ih => exact ⟨⟨h.1, h'.1⟩, fun s' hs' => ih (h.2 s' hs') (h'.2 s' hs')⟩

theorem AllStates.and {P Q : S → Prop} (h : AllStates exec P s as) (h' : AllStates exec Q s as) :
    AllStates exec (fun s => P s ∧ Q s) s as := by
  induction as generalizing s with
  | nil => exact ⟨h, h'⟩
  | cons a as ih => exact ⟨⟨h.1, h'.1⟩, fun s' hs' => ih (h.2 s' hs') (h'.2 s' hs')⟩

theorem allSteps_of_forall {C : A → Prop} (h : ∀ a ∈ as, C a) : AllSteps exec (fun _ a => C a) s as := by
  induction as generalizing s with
  | nil => trivial
  | cons a as ih =>
      obtain ⟨ha, has⟩ := List.forall_mem_cons.mp h
      exact ⟨ha, fun s' _ => ih has⟩

theorem AllSteps.mono_states {I : S → Prop} {C D : S → A → Prop} (hCD : ∀ {s a}, I s → C s a → D s a)
    (hI : AllStates exec I s as) (h : AllSteps exec C s as) : AllSteps exec D s as := by
  induction as generalizing s with
  | nil => trivial
  | cons a as ih => exact ⟨hCD hI.1 h.1, fun s' hs' => ih (hI.2 s' hs') (h.2 s' hs')⟩

/-- A run whose steps can all be taken comes to its end. -/
theorem run_ne_none (h : ∀ s a, exec s a ≠ none) : run exec s as ≠ none := by
  induction as generalizing s with
  | nil => simp [run_nil]
  | cons a as ih =>
      obtain ⟨t, ht⟩ := Option.ne_none_iff_exists'.mp (h s a)
      rw [run_cons_some ht]
      exact ih

/-- A run whose steps all have `C` comes to its end, if such steps can be taken and keep the invariant. -/
theorem AllSteps.completes {I : S → Prop} {C : S → A → Prop} (hstep : ∀ {s a}, I s → C s a → ∃ s', exec s a = some s' ∧ I s')
    (hs : I s) (h : AllSteps exec C s as) : ∃ s', run exec s as = some s' ∧ I s' := by
  induction as generalizing s with
  | nil => exact ⟨s, rfl, hs⟩
  | cons a as ih =>
      obtain ⟨t, ht, hI⟩ := hstep hs h.1
      rw [run_cons_some ht]
      exact ih hI (h.2 t ht)

theorem AllStates.head {P : S → Prop} (h : AllStates exec P s as) : P s := by
  cases as with
  | nil => exact h
  | cons a as => exact h.1

/-- What holds in every state holds in the one that the run ends in. -/
theorem AllStates.last {P : S → Prop} (h : AllStates exec P s as) (hrun : run exec s as = some s') : P s' := by
  induction as generalizing s with
  | nil =>
      cases hrun
      exact h
  | cons a as ih =>
      rw [run_cons, Option.bind_eq_some_iff] at hrun
      obtain ⟨t, ht, hrun⟩ := hrun
      exact ih (h.2 t ht) hrun

/-- In a completed run whose steps all have `D`: if a step gives `P` only when `C` held before it, then `P` holds in
every state exactly when every step has `C`. -/
theorem allStates_iff_allSteps {I P : S → Prop} {C D : S → A → Prop} (hIP : ∀ {s}, I s → P s)
    (hstep : ∀ {s a s'}, I s → D s a → C s a → exec s a = some s' → I s')
    (hnec : ∀ {s a s'}, I s → D s a → exec s a = some s' → P s' → C s a) (hs : I s) (hD : AllSteps exec D s as)
    (hrun : run exec s as ≠ none) : AllStates exec P s as ↔ AllSteps exec C s as := by
  induction as generalizing s with
  | nil => exact ⟨fun _ => trivial, fun _ => hIP hs⟩
  | cons a as ih =>
      cases ht : exec s a with
      | none => simp [run_cons, ht] at hrun
      | some t =>
          rw [run_cons_some ht] at hrun
          constructor
          · intro h
            have hC : C s a := hnec hs hD.1 ht (h.2 t ht).head
            refine ⟨hC, fun s' hs' => ?_⟩
            cases ht.symm.trans hs'
            exact (ih (hstep hs hD.1 hC ht) (hD.2 t ht) hrun).mp (h.2 t ht)
          · intro h
            refine ⟨hIP hs, fun s' hs' => ?_⟩
            cases ht.symm.trans hs'
            exact (ih (hstep hs hD.1 h.1 ht) (hD.2 t ht) hrun).mpr (h.2 t ht)

/-- Two conditions on steps that agree under an invariant hold of the same runs, if one of them keeps the invariant. -/
theorem allSteps_iff {I : S → Prop} {C D : S → A → Prop} (hiff : ∀ {s a}, I s → (C s a ↔ D s a))
    (hstep : ∀ {s a s'}, I s → D s a → exec s a = some s' → I s') (hs : I s) :
    AllSteps exec C s as ↔ AllSteps exec D s as := by
  induction as generalizing s with
  | nil => exact Iff.rfl
  | cons a as ih =>
      constructor
      · intro h
        have hD := (hiff hs).mp h.1
        exact ⟨hD, fun s' hs' => (ih (hstep hs hD hs')).mp (h.2 s' hs')⟩
      · intro h
        exact ⟨(hiff hs).mpr h.1, fun s' hs' => (ih (hstep hs h.1 hs')).mpr (h.2 s' hs')⟩

/-- What holds of all steps holds of the one after a part of the run. -/
theorem AllSteps.after {C : S → A → Prop} {bs : List A} (h : AllSteps exec C s (as ++ a :: bs)) (hrun : run exec s as = some s') :
    C s' a := by
  induction as generalizing s with
  | nil =>
      cases hrun
      exact h.1
  | cons b as ih =>
      rw [run_cons, Option.bind_eq_some_iff] at hrun
      obtain ⟨t, ht, hrun⟩ := hrun
      exact ih (h.2 t ht) hrun

/-! ## Evaluated results -/

theorem ok_of_any {ε α : Type} {x : Except ε α} {p : α → Bool} (h : x.toOption.any p = true) :
    ∃ a, x = .ok a ∧ p a = true := by
  cases x with
  | error e => cases h
  | ok a => exact ⟨a, rfl, h⟩

end ShadowOS
