import Mathlib

/-!
# Intervals in a row

Every element occupies the numbers from its start up to its stop. A list of elements is laid out in a range when they
follow each other there without overlap, with gaps allowed everywhere.
-/

namespace ShadowOS

variable {α : Type} {start stop : α → Nat} {lo hi lo' hi' : Nat} {a b : α} {as ps qs : List α}

def Laid (start stop : α → Nat) : Nat → Nat → List α → Prop
  | lo, hi, [] => lo ≤ hi
  | lo, hi, a :: as => lo ≤ start a ∧ start a < stop a ∧ Laid start stop (stop a) hi as

namespace Laid

theorem le (h : Laid start stop lo hi as) : lo ≤ hi := by
  induction as generalizing lo with
  | nil => exact h
  | cons a as ih =>
      obtain ⟨hlo, hlt, h⟩ := h
      have := ih h
      omega

theorem bounds (h : Laid start stop lo hi as) (ha : a ∈ as) : lo ≤ start a ∧ start a < stop a ∧ stop a ≤ hi := by
  induction as generalizing lo with
  | nil => simp at ha
  | cons b as ih =>
      obtain ⟨hlo, hlt, h⟩ := h
      rcases List.mem_cons.mp ha with rfl | ha
      · exact ⟨hlo, hlt, h.le⟩
      · obtain ⟨h₁, h₂, h₃⟩ := ih h ha
        exact ⟨by omega, h₂, h₃⟩

theorem weaken (h : Laid start stop lo hi as) (hlo : lo' ≤ lo) (hhi : hi ≤ hi') : Laid start stop lo' hi' as := by
  induction as generalizing lo lo' with
  | nil =>
      have := h.le
      show lo' ≤ hi'
      omega
  | cons a as ih => exact ⟨hlo.trans h.1, h.2.1, ih h.2.2 le_rfl⟩

/-- The two parts of a row share out the range between them. -/
theorem append : Laid start stop lo hi (ps ++ qs) ↔ ∃ mid, Laid start stop lo mid ps ∧ Laid start stop mid hi qs := by
  induction ps generalizing lo with
  | nil =>
      refine ⟨fun h => ⟨lo, le_rfl, h⟩, ?_⟩
      rintro ⟨mid, hmid, h⟩
      exact h.weaken hmid le_rfl
  | cons a ps ih =>
      constructor
      · rintro ⟨h₁, h₂, h⟩
        obtain ⟨mid, hps, hqs⟩ := ih.mp h
        exact ⟨mid, ⟨h₁, h₂, hps⟩, hqs⟩
      · rintro ⟨mid, ⟨h₁, h₂, hps⟩, hqs⟩
        exact ⟨h₁, h₂, ih.mpr ⟨mid, hps, hqs⟩⟩

/-- The range may begin later, up to the first element. -/
theorem raise (h : Laid start stop lo hi as) (hlo : lo' ≤ (as.head?.map start).getD hi) : Laid start stop lo' hi as := by
  cases as with
  | nil => exact hlo
  | cons a as => exact ⟨hlo, h.2⟩

/-- An element goes between two parts where there is room for it. -/
theorem insert (h : Laid start stop lo hi (ps ++ qs)) (ha : start a < stop a) (hlo : (ps.getLast?.map stop).getD lo ≤ start a)
    (hhi : stop a ≤ (qs.head?.map start).getD hi) : Laid start stop lo hi (ps ++ a :: qs) := by
  induction ps generalizing lo with
  | nil => exact ⟨hlo, ha, raise h hhi⟩
  | cons b ps ih =>
      refine ⟨h.1, h.2.1, ih h.2.2 ?_⟩
      cases ps with
      | nil => exact hlo
      | cons c ps => rwa [List.getLast?_cons_cons] at hlo

theorem remove (h : Laid start stop lo hi (ps ++ a :: qs)) : Laid start stop lo hi (ps ++ qs) := by
  obtain ⟨mid, hps, h₁, h₂, hqs⟩ := append.mp h
  exact append.mpr ⟨mid, hps, hqs.weaken (by omega) le_rfl⟩

theorem pairwise (h : Laid start stop lo hi as) : as.Pairwise fun a b => stop a ≤ start b := by
  induction as generalizing lo with
  | nil => exact .nil
  | cons a as ih => exact .cons (fun b hb => (h.2.2.bounds hb).1) (ih h.2.2)

/-- Two elements do not overlap. -/
theorem apart (h : Laid start stop lo hi as) (ha : a ∈ as) (hb : b ∈ as) (hab : a ≠ b) : stop a ≤ start b ∨ stop b ≤ start a := by
  have hsym : Std.Symm fun a b => stop a ≤ start b ∨ stop b ≤ start a := ⟨fun _ _ => Or.symm⟩
  have hall : as.Pairwise fun a b => stop a ≤ start b ∨ stop b ≤ start a := h.pairwise.imp Or.inl
  exact hall.forall ha hb hab

theorem nodup (h : Laid start stop lo hi as) : as.Nodup := by
  refine List.Pairwise.imp_of_mem (fun {a b} ha hb hab => ?_) h.pairwise
  have := h.bounds ha
  rintro rfl
  omega

/-- What the elements occupy is not more than the range. -/
theorem sum_le (h : Laid start stop lo hi as) : lo + (as.map fun a => stop a - start a).sum ≤ hi := by
  induction as generalizing lo with
  | nil => exact h
  | cons a as ih =>
      obtain ⟨hlo, hlt, h⟩ := h
      have := ih h
      rw [List.map_cons, List.sum_cons]
      omega

end Laid

/-- Intervals that do not overlap, in no particular order, take up not more than the range that they lie in. -/
theorem sum_le_of_apart (hlo : ∀ a ∈ as, lo ≤ start a) (hhi : ∀ a ∈ as, stop a ≤ hi)
    (h : as.Pairwise fun a b => stop a ≤ start b ∨ stop b ≤ start a) : (as.map fun a => stop a - start a).sum ≤ hi - lo := by
  -- the numbers in the intervals, each of them counted once
  obtain ⟨s, hcard, hs⟩ : ∃ s : Finset Nat, s.card = (as.map fun a => stop a - start a).sum ∧
      ∀ x ∈ s, ∃ a ∈ as, start a ≤ x ∧ x < stop a := by
    clear hlo hhi
    induction as with
    | nil => exact ⟨∅, rfl, by simp⟩
    | cons a as ih =>
        obtain ⟨hap, htail⟩ := List.pairwise_cons.mp h
        obtain ⟨s, hcard, hs⟩ := ih htail
        have hdisj : Disjoint (Finset.Ico (start a) (stop a)) s := by
          refine Finset.disjoint_left.mpr fun x hx hxs => ?_
          obtain ⟨b, hb, hlb, hub⟩ := hs x hxs
          have := Finset.mem_Ico.mp hx
          have := hap b hb
          omega
        refine ⟨Finset.Ico (start a) (stop a) ∪ s, ?_, fun x hx => ?_⟩
        · rw [Finset.card_union_of_disjoint hdisj, Nat.card_Ico, hcard, List.map_cons, List.sum_cons]
        · rcases Finset.mem_union.mp hx with hx | hx
          · exact ⟨a, List.mem_cons_self, Finset.mem_Ico.mp hx⟩
          · obtain ⟨b, hb, hbx⟩ := hs x hx
            exact ⟨b, List.mem_cons_of_mem _ hb, hbx⟩
  rw [← hcard, ← Nat.card_Ico]
  refine Finset.card_le_card fun x hx => ?_
  obtain ⟨a, ha, hax⟩ := hs x hx
  exact Finset.mem_Ico.mpr ⟨(hlo a ha).trans hax.1, hax.2.trans_le (hhi a ha)⟩

/-- There are not more intervals of some length than the range has room for. -/
theorem length_le_of_apart {n k : Nat} (hn : 0 < n) (hlen : ∀ a ∈ as, start a + n ≤ stop a) (hhi : ∀ a ∈ as, stop a ≤ k * n)
    (h : as.Pairwise fun a b => stop a ≤ start b ∨ stop b ≤ start a) : as.length ≤ k := by
  have hsum : (as.map fun a => stop a - start a).sum ≤ k * n := sum_le_of_apart (fun _ _ => Nat.zero_le _) hhi h
  have hlow : as.length * n ≤ (as.map fun a => stop a - start a).sum := by
    have := List.card_nsmul_le_sum (as.map fun a => stop a - start a) n fun x hx => by
      obtain ⟨a, ha, rfl⟩ := List.mem_map.mp hx
      have := hlen a ha
      omega
    simpa using this
  exact Nat.le_of_mul_le_mul_right (hlow.trans hsum) hn

end ShadowOS
