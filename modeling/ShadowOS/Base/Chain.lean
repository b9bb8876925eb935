import Mathlib

/-!
# Linked lists in a store

The cells are named by the values of a type with a null value; `next` leads from a cell to the next one.
-/

namespace ShadowOS

variable {α : Type} {next next' : α → α} {null p q : α} {ps qs : List α}

/-- The cells from `p` on are those of the list, in this order. -/
def Chain (next : α → α) (null : α) : α → List α → Prop
  | p, [] => p = null
  | p, q :: qs => p = q ∧ q ≠ null ∧ Chain next null (next q) qs

namespace Chain

theorem null_eq (h : Chain next null null qs) : qs = [] := by
  cases qs with
  | nil => rfl
  | cons q qs => exact absurd h.1.symm h.2.1

theorem ne_null (h : Chain next null p qs) : ∀ q ∈ qs, q ≠ null := by
  induction qs generalizing p with
  | nil => simp
  | cons q qs ih => exact List.forall_mem_cons.mpr ⟨h.2.1, ih h.2.2⟩

theorem unique (h : Chain next null p ps) (h' : Chain next null p qs) : ps = qs := by
  induction ps generalizing p qs with
  | nil =>
      cases h
      exact h'.null_eq.symm
  | cons a ps ih =>
      cases qs with
      | nil =>
          cases h'
          exact absurd h.1.symm h.2.1
      | cons b qs =>
          obtain ⟨rfl, _, h⟩ := h
          obtain ⟨rfl, _, h'⟩ := h'
          rw [ih h h']

theorem suffix (h : Chain next null p (ps ++ q :: qs)) : Chain next null q (q :: qs) := by
  induction ps generalizing p with
  | nil =>
      obtain ⟨rfl, h⟩ := h
      exact ⟨rfl, h⟩
  | cons a ps ih => exact ih h.2.2

/-- A list that ends meets no cell twice. -/
theorem nodup (h : Chain next null p qs) : qs.Nodup := by
  induction qs generalizing p with
  | nil => exact .nil
  | cons q qs ih =>
      refine List.nodup_cons.mpr ⟨fun hq => ?_, ih h.2.2⟩
      obtain ⟨as, bs, rfl⟩ := List.append_of_mem hq
      have hlong : Chain next null q (q :: (as ++ q :: bs)) := ⟨rfl, h.2⟩
      have hshort : Chain next null q (q :: bs) := h.2.2.suffix
      have hlen := congrArg List.length (hlong.unique hshort)
      simp only [List.length_cons, List.length_append] at hlen
      omega

theorem congr (h : Chain next null p qs) (heq : ∀ q ∈ qs, next' q = next q) : Chain next' null p qs := by
  induction qs generalizing p with
  | nil => exact h
  | cons q qs ih =>
      obtain ⟨hq, hqs⟩ := List.forall_mem_cons.mp heq
      refine ⟨h.1, h.2.1, ?_⟩
      rw [hq]
      exact ih h.2.2 hqs

/-- A cell is linked between the cell `q` and its successor. -/
theorem insert (h : Chain next null p (ps ++ q :: qs)) {n : α} (hn : n ≠ null) (hq : next' q = n) (hnext : next' n = next q)
    (hps : ∀ a ∈ ps, next' a = next a) (hqs : ∀ a ∈ qs, next' a = next a) :
    Chain next' null p (ps ++ q :: n :: qs) := by
  induction ps generalizing p with
  | nil =>
      refine ⟨h.1, h.2.1, hq, hn, ?_⟩
      rw [hnext]
      exact h.2.2.congr hqs
  | cons a ps ih =>
      obtain ⟨ha, hps⟩ := List.forall_mem_cons.mp hps
      refine ⟨h.1, h.2.1, ?_⟩
      rw [ha]
      exact ih h.2.2 hps

/-- The cell `q` is taken out: the cell before it leads to its successor. -/
theorem remove {a : α} (h : Chain next null p (ps ++ a :: q :: qs)) (ha : next' a = next q)
    (hps : ∀ b ∈ ps, next' b = next b) (hqs : ∀ b ∈ qs, next' b = next b) : Chain next' null p (ps ++ a :: qs) := by
  induction ps generalizing p with
  | nil =>
      obtain ⟨hp, hne, _, _, h⟩ := h
      refine ⟨hp, hne, ?_⟩
      rw [ha]
      exact h.congr hqs
  | cons b ps ih =>
      obtain ⟨hb, hps⟩ := List.forall_mem_cons.mp hps
      refine ⟨h.1, h.2.1, ?_⟩
      rw [hb]
      exact ih h.2.2 hps

theorem head_eq (h : Chain next null p (q :: qs)) : next q = qs.head?.getD null := by
  cases qs with
  | nil => exact h.2.2
  | cons a qs => exact h.2.2.1

end Chain

/-! ## Back links -/

/-- Every cell leads back to the one before it, the first one to `b`. -/
def Back (prev : α → α) : α → List α → Prop
  | _, [] => True
  | b, q :: qs => prev q = b ∧ Back prev q qs

namespace Back

variable {prev prev' : α → α} {b : α}

theorem append : Back prev b (ps ++ qs) ↔ Back prev b ps ∧ Back prev (ps.getLast?.getD b) qs := by
  induction ps generalizing b with
  | nil => simp [Back]
  | cons a ps ih =>
      simp only [List.cons_append, Back, ih, List.getLast?_cons, Option.getD_some, and_assoc]

theorem congr (h : Back prev b qs) (heq : ∀ q ∈ qs, prev' q = prev q) : Back prev' b qs := by
  induction qs generalizing b with
  | nil => trivial
  | cons q qs ih =>
      obtain ⟨hq, hqs⟩ := List.forall_mem_cons.mp heq
      exact ⟨hq.trans h.1, ih h.2 hqs⟩

/-- The cell `q` is taken out: its successor leads back to the cell before it. -/
theorem remove (h : Back prev b (ps ++ q :: qs)) (hps : ∀ a ∈ ps, prev' a = prev a)
    (hhead : ∀ a ∈ qs.head?, prev' a = ps.getLast?.getD b) (htail : ∀ a ∈ qs.tail, prev' a = prev a) :
    Back prev' b (ps ++ qs) := by
  obtain ⟨h, _, h'⟩ := append.mp h
  refine append.mpr ⟨h.congr hps, ?_⟩
  cases qs with
  | nil => trivial
  | cons a qs => exact ⟨hhead a rfl, h'.2.congr htail⟩

/-- Forward and back links undo each other. -/
theorem next_prev (h : Back prev b qs) (hc : Chain next null p qs) : ∀ q ∈ qs, next q = null ∨ prev (next q) = q := by
  induction qs generalizing b p with
  | nil => simp
  | cons a qs ih =>
      refine List.forall_mem_cons.mpr ⟨?_, ih h.2 hc.2.2⟩
      rw [hc.head_eq]
      cases qs with
      | nil => exact .inl rfl
      | cons c qs => exact .inr h.2.1

theorem prev_mem (h : Back prev b qs) : ∀ q ∈ qs.tail, prev q ∈ qs := by
  cases qs with
  | nil => simp
  | cons a qs =>
      induction qs generalizing a b with
      | nil => simp
      | cons c qs ih =>
          refine List.forall_mem_cons.mpr ⟨?_, fun q hq => List.mem_cons_of_mem _ (ih c h.2 q hq)⟩
          rw [h.2.1]
          exact List.mem_cons_self

/-- The first cell is the one that leads back to null. -/
theorem prev_eq_null (h : Back prev null qs) (hc : Chain next null p qs) : ∀ q ∈ qs, prev q = null ↔ q = p := by
  cases qs with
  | nil => simp
  | cons a qs =>
      have hnd := List.nodup_cons.mp hc.nodup
      refine List.forall_mem_cons.mpr ⟨⟨fun _ => hc.1.symm, fun _ => h.1⟩, fun q hq => ⟨fun hq0 => ?_, fun he => ?_⟩⟩
      · exact absurd hq0 (hc.ne_null _ (h.prev_mem q hq))
      · rw [he, hc.1] at hq
        exact absurd hq hnd.1

end Back

/-! ## Walks -/

variable [DecidableEq α]

instance Chain.decidable : ∀ p qs, Decidable (Chain next null p qs)
  | p, [] => inferInstanceAs (Decidable (p = null))
  | p, q :: qs =>
      have : Decidable (Chain next null (next q) qs) := Chain.decidable (next q) qs
      inferInstanceAs (Decidable (p = q ∧ q ≠ null ∧ Chain next null (next q) qs))

/-- The first cell with a property, or null. -/
def findFrom (next : α → α) (null : α) (test : α → Bool) : Nat → α → α
  | 0, _ => null
  | fuel + 1, p => if p = null then null else if test p then p else findFrom next null test fuel (next p)

/-- The first cell with a property, or null. `none` stands for a walk that does not end. -/
def searchFrom (next : α → α) (null : α) (test : α → Bool) : Nat → α → Option α
  | 0, _ => none
  | fuel + 1, p => if p = null then some null else if test p then some p else searchFrom next null test fuel (next p)

/-- The last cell of a list that is not empty. -/
def lastFrom (next : α → α) (null : α) : Nat → α → α
  | 0, p => p
  | fuel + 1, p => if next p = null then p else lastFrom next null fuel (next p)

namespace Chain

theorem findFrom_eq (h : Chain next null p qs) {test : α → Bool} {fuel : Nat} (hfuel : qs.length ≤ fuel) :
    findFrom next null test fuel p = (qs.find? test).getD null := by
  induction qs generalizing p fuel with
  | nil =>
      cases h
      cases fuel with
      | zero => rfl
      | succ fuel => simp [findFrom]
  | cons q qs ih =>
      obtain ⟨rfl, hne, h⟩ := h
      cases fuel with
      | zero => simp at hfuel
      | succ fuel =>
          simp only [findFrom, hne, ↓reduceIte]
          by_cases ht : test p = true
          · simp [ht]
          · rw [if_neg ht, List.find?_cons_of_neg ht]
            exact ih h (by simpa using hfuel)

theorem searchFrom_eq (h : Chain next null p qs) {test : α → Bool} {fuel : Nat} (hfuel : qs.length < fuel) :
    searchFrom next null test fuel p = some ((qs.find? test).getD null) := by
  induction qs generalizing p fuel with
  | nil =>
      cases h
      cases fuel with
      | zero => simp at hfuel
      | succ fuel => simp [searchFrom]
  | cons q qs ih =>
      obtain ⟨rfl, hne, h⟩ := h
      cases fuel with
      | zero => simp at hfuel
      | succ fuel =>
          simp only [searchFrom, hne, ↓reduceIte]
          by_cases ht : test p = true
          · simp [ht]
          · rw [if_neg ht, List.find?_cons_of_neg ht]
            exact ih h (by simpa using hfuel)

theorem lastFrom_eq (h : Chain next null p qs) (hp : p ≠ null) {fuel : Nat} (hfuel : qs.length ≤ fuel) :
    ∃ rs, qs = rs ++ [lastFrom next null fuel p] := by
  induction qs generalizing p fuel with
  | nil => exact absurd h hp
  | cons q qs ih =>
      obtain ⟨rfl, hne, h⟩ := h
      cases fuel with
      | zero => simp at hfuel
      | succ fuel =>
          simp only [lastFrom]
          by_cases hn : next p = null
          · rw [hn] at h
            rw [if_pos hn, h.null_eq]
            exact ⟨[], rfl⟩
          · have hfuel' : qs.length ≤ fuel := by simpa using hfuel
            obtain ⟨rs, hrs⟩ := ih h hn hfuel'
            rw [if_neg hn]
            exact ⟨p :: rs, by rw [List.cons_append, ← hrs]⟩

/-- A new cell is linked after the last one. -/
theorem snoc (h : Chain next null p (qs ++ [q])) {n : α} (hn : n ≠ null) (hnew : n ∉ qs ++ [q]) :
    Chain (Function.update (Function.update next n null) q n) null p (qs ++ [q, n]) := by
  induction qs generalizing p with
  | nil =>
      obtain ⟨rfl, hne, _⟩ := h
      have hnp : n ≠ p := by simpa using hnew
      refine ⟨rfl, hne, ?_⟩
      rw [Function.update_self]
      refine ⟨rfl, hn, ?_⟩
      rw [Function.update_of_ne hnp, Function.update_self]
      rfl
  | cons a qs ih =>
      obtain ⟨rfl, hne, h⟩ := h
      rw [List.cons_append, List.mem_cons, not_or] at hnew
      have hpq : p ≠ q := by
        have hnd : (p :: (qs ++ [q])).Nodup := (show Chain next null p (p :: (qs ++ [q])) from ⟨rfl, hne, h⟩).nodup
        rintro rfl
        simp at hnd
      refine ⟨rfl, hne, ?_⟩
      rw [Function.update_of_ne hpq, Function.update_of_ne (Ne.symm hnew.1)]
      exact ih h hnew.2

end Chain

end ShadowOS
