import ShadowOS.Base.Chain

/-!
# Doubly linked lists in a store

A cell is put in between any two parts of a list, or taken out there. The links that change are those of the last cell
before the place and of the first one after it.
-/

namespace ShadowOS

variable {α : Type} {next next' prev prev' : α → α} {null p n : α} {ps qs : List α}

structure Linked (next prev : α → α) (null p : α) (qs : List α) : Prop where
  chain : Chain next null p qs
  back : Back prev null qs

theorem Chain.eq_head (h : Chain next null p qs) : p = qs.head?.getD null := by
  cases qs with
  | nil => exact h
  | cons q qs => exact h.1

/-- Of two or more cells the first one is not the last one. -/
theorem Chain.not_getLast {a b : α} (h : Chain next null p (a :: b :: ps ++ qs)) : (a :: b :: ps).getLast? ≠ some a := by
  intro ha
  rw [List.getLast?_cons_cons] at ha
  exact (List.nodup_cons.mp h.nodup).1 (List.mem_append_left _ (List.mem_of_getLast? ha))

theorem Chain.put (h : Chain next null p (ps ++ qs)) (hn : n ≠ null) (hnew : next' n = qs.head?.getD null)
    (hlast : ∀ a, ps.getLast? = some a → next' a = n) (hps : ∀ a ∈ ps, ps.getLast? ≠ some a → next' a = next a)
    (hqs : ∀ a ∈ qs, next' a = next a) : Chain next' null (ps.head?.getD n) (ps ++ n :: qs) := by
  induction ps generalizing p with
  | nil =>
      refine ⟨rfl, hn, ?_⟩
      have htail : Chain next null p qs := h
      rw [hnew, ← htail.eq_head]
      exact htail.congr hqs
  | cons a ps ih =>
      refine ⟨rfl, h.2.1, ?_⟩
      cases ps with
      | nil =>
          have htail : Chain next null (next a) qs := h.2.2
          refine ⟨hlast a rfl, hn, ?_⟩
          rw [hnew, ← htail.eq_head]
          exact htail.congr hqs
      | cons b ps =>
          have ha : next' a = next a := hps a List.mem_cons_self h.not_getLast
          have hb : next a = b := h.2.2.1
          rw [ha, hb]
          refine ih h.2.2 (fun c hc => hlast c (by rwa [List.getLast?_cons_cons])) fun c hc hne => ?_
          exact hps c (List.mem_cons_of_mem _ hc) (by rwa [List.getLast?_cons_cons])

theorem Chain.take (h : Chain next null p (ps ++ n :: qs)) (hlast : ∀ a, ps.getLast? = some a → next' a = next n)
    (hps : ∀ a ∈ ps, ps.getLast? ≠ some a → next' a = next a) (hqs : ∀ a ∈ qs, next' a = next a) :
    Chain next' null ((ps ++ qs).head?.getD null) (ps ++ qs) := by
  induction ps generalizing p with
  | nil =>
      have htail : Chain next null (next n) qs := h.2.2
      rw [List.nil_append, ← htail.eq_head]
      exact htail.congr hqs
  | cons a ps ih =>
      refine ⟨rfl, h.2.1, ?_⟩
      cases ps with
      | nil =>
          rw [hlast a rfl]
          exact h.2.2.2.2.congr hqs
      | cons b ps =>
          have ha : next' a = next a := hps a List.mem_cons_self h.not_getLast
          have hb : next a = b := h.2.2.1
          rw [ha, hb]
          refine ih h.2.2 (fun c hc => hlast c (by rwa [List.getLast?_cons_cons])) fun c hc hne => ?_
          exact hps c (List.mem_cons_of_mem _ hc) (by rwa [List.getLast?_cons_cons])

theorem Back.put (h : Back prev null (ps ++ qs)) (hnew : prev' n = ps.getLast?.getD null) (hps : ∀ a ∈ ps, prev' a = prev a)
    (hhead : ∀ a ∈ qs.head?, prev' a = n) (hqs : ∀ a ∈ qs.tail, prev' a = prev a) : Back prev' null (ps ++ n :: qs) := by
  obtain ⟨hp, hq⟩ := Back.append.mp h
  refine Back.append.mpr ⟨hp.congr hps, hnew, ?_⟩
  cases qs with
  | nil => trivial
  | cons a qs => exact ⟨hhead a rfl, hq.2.congr hqs⟩

namespace Linked

theorem congr (h : Linked next prev null p qs) (hnext : ∀ a ∈ qs, next' a = next a) (hprev : ∀ a ∈ qs, prev' a = prev a) :
    Linked next' prev' null p qs :=
  ⟨h.chain.congr hnext, h.back.congr hprev⟩

theorem nodup (h : Linked next prev null p qs) : qs.Nodup := h.chain.nodup

/-- The links of the last cell, and of the one that follows it. -/
theorem next_eq (h : Linked next prev null p (ps ++ n :: qs)) : next n = qs.head?.getD null :=
  h.chain.suffix.head_eq

theorem prev_eq (h : Linked next prev null p (ps ++ n :: qs)) : prev n = ps.getLast?.getD null :=
  (Back.append.mp h.back).2.1

variable [DecidableEq α]

/-- A cell that the last one of `ps` and the first one of `qs` lead to. -/
theorem put (h : Linked next prev null p (ps ++ qs)) (next' prev' : α → α) (hn : n ≠ null) (hnext : next' n = qs.head?.getD null)
    (hprev : prev' n = ps.getLast?.getD null)
    (hnexts : ∀ a ∈ ps ++ qs, next' a = if ps.getLast? = some a then n else next a)
    (hprevs : ∀ a ∈ ps ++ qs, prev' a = if qs.head? = some a then n else prev a) :
    Linked next' prev' null (ps.head?.getD n) (ps ++ n :: qs) := by
  have hnd := List.nodup_append.mp h.nodup
  constructor
  · refine h.chain.put hn hnext (fun a ha => ?_) (fun a ha hne => ?_) fun a ha => ?_
    · rw [hnexts a (List.mem_append_left _ (List.mem_of_getLast? ha)), if_pos ha]
    · rw [hnexts a (List.mem_append_left _ ha), if_neg hne]
    · rw [hnexts a (List.mem_append_right _ ha), if_neg fun hl => hnd.2.2 a (List.mem_of_getLast? hl) a ha rfl]
  · refine h.back.put hprev (fun a ha => ?_) (fun a ha => ?_) fun a ha => ?_
    · rw [hprevs a (List.mem_append_left _ ha), if_neg fun hl => hnd.2.2 a ha a (List.mem_of_head? hl) rfl]
    · rw [hprevs a (List.mem_append_right _ (List.mem_of_head? ha)), if_pos (show qs.head? = some a from ha)]
    · rw [hprevs a (List.mem_append_right _ (List.mem_of_mem_tail ha)), if_neg]
      intro hl
      cases qs with
      | nil => simp at hl
      | cons b qs =>
          cases hl
          exact (List.nodup_cons.mp hnd.2.1).1 ha

/-- The last one of `ps` and the first one of `qs` lead to each other. -/
theorem take (h : Linked next prev null p (ps ++ n :: qs)) (next' prev' : α → α)
    (hnexts : ∀ a ∈ ps ++ qs, next' a = if ps.getLast? = some a then next n else next a)
    (hprevs : ∀ a ∈ ps ++ qs, prev' a = if qs.head? = some a then prev n else prev a) :
    Linked next' prev' null ((ps ++ qs).head?.getD null) (ps ++ qs) := by
  have hnd := List.nodup_append.mp h.nodup
  have hne : ∀ a ∈ ps, ∀ b ∈ qs, a ≠ b := fun a ha b hb => hnd.2.2 a ha b (List.mem_cons_of_mem _ hb)
  constructor
  · refine h.chain.take (fun a ha => ?_) (fun a ha hl => ?_) fun a ha => ?_
    · rw [hnexts a (List.mem_append_left _ (List.mem_of_getLast? ha)), if_pos ha]
    · rw [hnexts a (List.mem_append_left _ ha), if_neg hl]
    · rw [hnexts a (List.mem_append_right _ ha), if_neg fun hl => hne a (List.mem_of_getLast? hl) a ha rfl]
  · refine h.back.remove (fun a ha => ?_) (fun a ha => ?_) fun a ha => ?_
    · rw [hprevs a (List.mem_append_left _ ha), if_neg fun hl => hne a ha a (List.mem_of_head? hl) rfl]
    · rw [hprevs a (List.mem_append_right _ (List.mem_of_head? ha)), if_pos (show qs.head? = some a from ha), h.prev_eq]
    · rw [hprevs a (List.mem_append_right _ (List.mem_of_mem_tail ha)), if_neg]
      intro hl
      cases qs with
      | nil => simp at hl
      | cons b qs =>
          cases hl
          exact (List.nodup_cons.mp (List.nodup_cons.mp hnd.2.1).2).1 ha

end Linked

end ShadowOS
