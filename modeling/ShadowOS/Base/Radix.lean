import Mathlib

/-!
# Radix tables

Tables of tables, as a multi-level translation structure keeps them: an entry of an inner table names the next
table, an entry of a last-level table holds a value. Several roots may share inner tables. Each table carries a
label, the root that owns it and the path of indices to it. The labels keep two paths apart.
-/

namespace ShadowOS

/-- How an entry is read: the table it names, the value it holds, and the entry of an empty slot. -/
structure Format (Node E V : Type) where
  next : E → Option Node
  value : E → V
  blank : E
  absent : V
  next_blank : next blank = none
  value_blank : value blank = absent

namespace Format

variable {Node Idx E V : Type} (F : Format Node E V)

/-- The table reached from `n` along the path. -/
def walk (T : Node → Idx → E) : Node → List Idx → Option Node
  | n, [] => some n
  | n, i :: p =>
      match F.next (T n i) with
      | none => none
      | some n' => walk T n' p

/-- The value found at index `j` of the table reached along the path. -/
def look (T : Node → Idx → E) (n : Node) (p : List Idx) (j : Idx) : V :=
  match F.walk T n p with
  | none => F.absent
  | some t => F.value (T t j)

/-- One entry is replaced. -/
def set [DecidableEq Node] [DecidableEq Idx] (T : Node → Idx → E) (n : Node) (i : Idx) (e : E) : Node → Idx → E :=
  fun m j => if m = n ∧ j = i then e else T m j

/-- The tables with labels form a forest of depth `D`, where only the entries of roots can be shared. -/
structure Forest (D : Nat) (T : Node → Idx → E) (lab : Node → Option (Node × List Idx)) : Prop where
  root : ∀ {n o}, lab n = some (o, []) → o = n
  depth : ∀ {n o p}, lab n = some (o, p) → p.length ≤ D
  step : ∀ {n o p i m}, lab n = some (o, p) → p.length < D → F.next (T n i) = some m →
    ∃ o', lab m = some (o', p ++ [i]) ∧ (p ≠ [] → o' = o)
  inj : ∀ {n m l}, lab n = some l → lab m = some l → n = m
  home : ∀ {m o p i}, lab m = some (o, p ++ [i]) → ∃ n, lab n = some (o, p) ∧ F.next (T n i) = some m

variable {F} {D : Nat} {T T' : Node → Idx → E} {lab : Node → Option (Node × List Idx)}

@[simp] theorem look_nil (T : Node → Idx → E) (n : Node) (j : Idx) : F.look T n [] j = F.value (T n j) := rfl

theorem look_cons_none {n : Node} {i : Idx} (h : F.next (T n i) = none) (p : List Idx) (j : Idx) :
    F.look T n (i :: p) j = F.absent := by
  simp only [look, walk, h]

theorem look_cons_some {n m : Node} {i : Idx} (h : F.next (T n i) = some m) (p : List Idx) (j : Idx) :
    F.look T n (i :: p) j = F.look T m p j := by
  simp only [look, walk, h]

/-- Walks only depend on which tables the entries name. -/
theorem walk_of_next {V' : Type} {F' : Format Node E V'} (h : F'.next = F.next) (T : Node → Idx → E) (n : Node) (p : List Idx) :
    F'.walk T n p = F.walk T n p := by
  induction p generalizing n with
  | nil => rfl
  | cons i p ih =>
      simp only [walk, h]
      cases F.next (T n i) with
      | none => rfl
      | some m => exact ih m

theorem walk_concat (T : Node → Idx → E) (n : Node) (p : List Idx) (i : Idx) :
    F.walk T n (p ++ [i]) = (F.walk T n p).bind fun m => F.next (T m i) := by
  induction p generalizing n with
  | nil =>
      simp only [List.nil_append, walk, Option.bind_some]
      cases F.next (T n i) with
      | none => rfl
      | some m => rfl
  | cons j p ih =>
      simp only [List.cons_append, walk]
      cases F.next (T n j) with
      | none => rfl
      | some m => exact ih m

theorem next_set_absent [DecidableEq Node] [DecidableEq Idx] {n : Node} {i : Idx} {e : E}
    (hi : F.next (T n i) = none) (he : F.next e = none) (m : Node) (j : Idx) :
    F.next (set T n i e m j) = F.next (T m j) := by
  simp only [set]
  split
  · rename_i hc
    rw [hc.1, hc.2, hi, he]
  · rfl

namespace Forest

/-- A single table whose entries name no other one. -/
theorem single [DecidableEq Node] {r : Node} (h : ∀ i, F.next (T r i) = none) :
    F.Forest D T fun n => if n = r then some (r, []) else none := by
  have hlab : ∀ {n o p}, (if n = r then some (r, []) else none : Option (Node × List Idx)) = some (o, p) →
      n = r ∧ o = r ∧ p = [] := by
    intro n o p hn
    split at hn
    · cases hn
      exact ⟨‹_›, rfl, rfl⟩
    · cases hn
  refine ⟨?_, ?_, ?_, ?_, ?_⟩
  · intro n o hn
    obtain ⟨rfl, rfl, _⟩ := hlab hn
    rfl
  · intro n o p hn
    obtain ⟨_, _, rfl⟩ := hlab hn
    exact Nat.zero_le _
  · intro n o p i m hn _ hm
    obtain ⟨rfl, _, _⟩ := hlab hn
    rw [h i] at hm
    cases hm
  · rintro n m ⟨o, p⟩ hn hm
    rw [(hlab hn).1, (hlab hm).1]
  · intro m o p i hm
    obtain ⟨_, _, hp⟩ := hlab hm
    exact absurd hp (by simp)

theorem of_next {V' : Type} {F' : Format Node E V'} (h : F.Forest D T lab) (hn : F'.next = F.next) : F'.Forest D T lab := by
  refine ⟨h.root, h.depth, fun hl hd hm => ?_, h.inj, fun hl => ?_⟩
  · rw [hn] at hm
    exact h.step hl hd hm
  · rw [hn]
    exact h.home hl

/-! ## Walks stay inside the labels -/

theorem walk_lab (h : F.Forest D T lab) {n o q} {p : List Idx} {m : Node} (hn : lab n = some (o, q))
    (hl : q.length + p.length ≤ D) (hw : F.walk T n p = some m) :
    ∃ o', lab m = some (o', q ++ p) ∧ (q ≠ [] → o' = o) := by
  induction p generalizing n o q with
  | nil =>
      simp only [walk, Option.some.injEq] at hw
      subst hw
      exact ⟨o, by simpa using hn, fun _ => rfl⟩
  | cons i p ih =>
      simp only [List.length_cons] at hl
      simp only [walk] at hw
      split at hw
      · cases hw
      · rename_i a ha
        obtain ⟨o', ho', hq⟩ := h.step hn (by omega) ha
        obtain ⟨o'', ho'', hq'⟩ := ih ho' (by simp only [List.length_append, List.length_singleton]; omega) hw
        refine ⟨o'', by simpa using ho'', fun hne => ?_⟩
        rw [hq' (by simp), hq hne]

/-- A table is found along its path from the root that owns it. -/
theorem walk_of_lab (h : F.Forest D T lab) {m o : Node} {p : List Idx} (hm : lab m = some (o, p)) :
    F.walk T o p = some m := by
  induction p using List.reverseRecOn generalizing m with
  | nil => exact congrArg some (h.root hm)
  | append_singleton p i ih =>
      obtain ⟨n, hn, hx⟩ := h.home hm
      rw [walk_concat, ih hn]
      exact hx

/-- Two roots reach the same table along a path exactly if they share the first table of it. -/
theorem walk_shared (h : F.Forest D T lab) {r r' t : Node} {i : Idx} {p : List Idx}
    (hr : lab r = some (r, [])) (hr' : lab r' = some (r', [])) (hl : p.length + 1 ≤ D)
    (hw : F.walk T r (i :: p) = some t) :
    F.walk T r' (i :: p) = some t ↔ F.next (T r' i) = F.next (T r i) := by
  simp only [walk] at hw ⊢
  cases ha : F.next (T r i) with
  | none => simp [ha] at hw
  | some a =>
      simp only [ha] at hw
      cases hb : F.next (T r' i) with
      | none => simp
      | some b =>
          simp only [Option.some.injEq]
          constructor
          · intro hw'
            obtain ⟨oa, hla, _⟩ := h.step hr (by simp; omega) ha
            obtain ⟨ob, hlb, _⟩ := h.step hr' (by simp; omega) hb
            obtain ⟨o, ho, hoe⟩ := h.walk_lab hla (by simp; omega) hw
            obtain ⟨o', ho', hoe'⟩ := h.walk_lab hlb (by simp; omega) hw'
            have he : o = o' := by
              rw [ho] at ho'
              exact congrArg Prod.fst (Option.some.inj ho')
            have hab : oa = ob := by rw [← hoe (by simp), ← hoe' (by simp), he]
            subst hab
            exact h.inj hlb hla
          · rintro rfl
            exact hw

/-! ## Tables outside the labels -/

theorem congr (h : F.Forest D T lab) (he : ∀ n, lab n ≠ none → T' n = T n) : F.Forest D T' lab where
  root := h.root
  depth := h.depth
  step := fun hn hd hm => by
    rw [he _ (by simp [hn])] at hm
    exact h.step hn hd hm
  inj := h.inj
  home := fun hm => by
    obtain ⟨n, hn, hm⟩ := h.home hm
    refine ⟨n, hn, ?_⟩
    rw [he _ (by simp [hn])]
    exact hm

theorem walk_congr (h : F.Forest D T lab) (he : ∀ n, lab n ≠ none → T' n = T n) {n o q} {p : List Idx}
    (hn : lab n = some (o, q)) (hl : q.length + p.length ≤ D) : F.walk T' n p = F.walk T n p := by
  induction p generalizing n o q with
  | nil => rfl
  | cons i p ih =>
      simp only [List.length_cons] at hl
      simp only [walk, he n (by simp [hn])]
      cases ha : F.next (T n i) with
      | none => rfl
      | some m =>
          obtain ⟨o', ho', _⟩ := h.step hn (by omega) ha
          exact ih ho' (by simp only [List.length_append, List.length_singleton]; omega)

theorem look_congr (h : F.Forest D T lab) (he : ∀ n, lab n ≠ none → T' n = T n) {n o q} {p : List Idx} {j : Idx}
    (hn : lab n = some (o, q)) (hl : q.length + p.length ≤ D) : F.look T' n p j = F.look T n p j := by
  simp only [look, h.walk_congr he hn hl]
  cases hw : F.walk T n p with
  | none => rfl
  | some m =>
      obtain ⟨o', ho', _⟩ := h.walk_lab hn hl hw
      simp only [he m (by simp [ho'])]

/-! ## Updates -/

variable [DecidableEq Node] [DecidableEq Idx]

omit [DecidableEq Node] [DecidableEq Idx] in
theorem label_path_eq {n : Node} {o o' p p'} (h : lab n = some (o, p)) (h' : lab n = some (o', p')) : p = p' := by
  rw [h] at h'
  exact congrArg Prod.snd (Option.some.inj h')

/-- An entry that names no table may be replaced by another such entry above the last level. -/
theorem set_absent (h : F.Forest D T lab) {n : Node} {i : Idx} {e : E} (hi : F.next (T n i) = none)
    (he : F.next e = none) : F.Forest D (set T n i e) lab := by
  refine ⟨h.root, h.depth, fun hn hd hm => ?_, h.inj, fun hm => ?_⟩
  · rw [next_set_absent hi he] at hm
    exact h.step hn hd hm
  · obtain ⟨m, hm, hx⟩ := h.home hm
    exact ⟨m, hm, by rw [next_set_absent hi he]; exact hx⟩

theorem look_set_absent (h : F.Forest D T lab) {n : Node} {i : Idx} {e : E} {o p} (hn : lab n = some (o, p))
    (hd : p.length < D) (hi : F.next (T n i) = none) (he : F.next e = none) {r : Node} {q : List Idx} {j : Idx}
    (hr : lab r = some (r, [])) (hq : q.length = D) : F.look (set T n i e) r q j = F.look T r q j := by
  have hw : ∀ m p, F.walk (set T n i e) m p = F.walk T m p := by
    intro m p
    induction p generalizing m with
    | nil => rfl
    | cons a p ih => simp only [walk, next_set_absent hi he, ih]
  simp only [look, hw]
  cases hx : F.walk T r q with
  | none => rfl
  | some t =>
      obtain ⟨o', ho', _⟩ := h.walk_lab hr (by simp; omega) hx
      have hne : t ≠ n := by
        rintro rfl
        have hp := label_path_eq hn ho'
        rw [hp, List.nil_append] at hd
        omega
      simp only [set, hne, false_and, ↓reduceIte]

/-- An empty table is put into an empty slot of table `n`. -/
theorem link (h : F.Forest D T lab) {n t : Node} {i : Idx} {e : E} {o p} (hn : lab n = some (o, p))
    (hd : p.length < D) (hi : F.next (T n i) = none) (he : F.next e = some t) (ht : lab t = none)
    (hb : ∀ j, T t j = F.blank) :
    F.Forest D (set T n i e) (fun m => if m = t then some (o, p ++ [i]) else lab m) := by
  have hnt : n ≠ t := by rintro rfl; rw [hn] at ht; cases ht
  -- no table has the new label: its home would be `n`, whose slot is empty
  have hnew : ∀ m, lab m ≠ some (o, p ++ [i]) := by
    intro m hm
    obtain ⟨n', hn', hx⟩ := h.home hm
    rw [h.inj hn' hn, hi] at hx
    cases hx
  refine ⟨?_, ?_, ?_, ?_, ?_⟩
  · intro m o' hm
    split at hm
    · simp at hm
    · exact h.root hm
  · intro m o' p' hm
    split at hm
    · simp only [Option.some.injEq, Prod.mk.injEq] at hm
      rw [← hm.2]
      simp only [List.length_append, List.length_singleton]
      omega
    · exact h.depth hm
  · intro m o' p' j x hm hp hx
    by_cases hmt : m = t
    · subst hmt
      simp only [set, hnt.symm, false_and, ↓reduceIte, hb, F.next_blank] at hx
      cases hx
    · simp only [hmt, ↓reduceIte] at hm
      simp only [set] at hx
      split at hx
      · rename_i hc
        obtain ⟨rfl, rfl⟩ := hc
        rw [he] at hx
        cases hx
        rw [hn] at hm
        cases hm
        exact ⟨o, by simp, fun _ => rfl⟩
      · obtain ⟨o'', ho'', hoe⟩ := h.step hm hp hx
        have hxt : x ≠ t := by rintro rfl; rw [ht] at ho''; cases ho''
        exact ⟨o'', by simpa only [hxt, ↓reduceIte] using ho'', hoe⟩
  · intro m m' l hm hm'
    split at hm <;> split at hm'
    · simp_all
    · exact absurd (hm'.trans hm.symm) (hnew m')
    · exact absurd (hm.trans hm'.symm) (hnew m)
    · exact h.inj hm hm'
  · intro m o' p' j hm
    split at hm
    · rename_i hmt
      subst hmt
      simp only [Option.some.injEq, Prod.mk.injEq] at hm
      obtain ⟨rfl, hpj⟩ := hm
      obtain ⟨rfl, hj⟩ := List.append_inj' hpj rfl
      cases hj
      exact ⟨n, by simp only [hnt, ↓reduceIte, hn], by simp only [set, and_self, ↓reduceIte, he]⟩
    · obtain ⟨n', hn', hx⟩ := h.home hm
      have hn't : n' ≠ t := by rintro rfl; rw [ht] at hn'; cases hn'
      refine ⟨n', by simpa only [hn't, ↓reduceIte] using hn', ?_⟩
      simp only [set]
      split
      · rename_i hc
        obtain ⟨rfl, rfl⟩ := hc
        rw [hi] at hx
        cases hx
      · exact hx

/-- Linking an empty table changes no translation. -/
theorem look_link (h : F.Forest D T lab) {n t : Node} {i : Idx} {e : E} {o p} (hn : lab n = some (o, p))
    (hd : p.length < D) (hi : F.next (T n i) = none) (he : F.next e = some t) (ht : lab t = none)
    (hb : ∀ j, T t j = F.blank) {r o' q₀} {q : List Idx} {j : Idx} (hr : lab r = some (o', q₀))
    (hq : q₀.length + q.length = D) : F.look (set T n i e) r q j = F.look T r q j := by
  have hnt : n ≠ t := by rintro rfl; rw [hn] at ht; cases ht
  -- from the new table on every slot is empty
  have hblank : ∀ a, set T n i e t a = F.blank := by
    intro a
    simp only [set, hnt.symm, false_and, ↓reduceIte, hb]
  have hfresh : ∀ q, F.look (set T n i e) t q j = F.absent := by
    intro q
    cases q with
    | nil => rw [look_nil, hblank, F.value_blank]
    | cons a q => exact look_cons_none (by rw [hblank, F.next_blank]) q j
  induction q generalizing r o' q₀ with
  | nil =>
      have hrn : r ≠ n := by
        rintro rfl
        have hp := label_path_eq hn hr
        rw [hp] at hd
        simp only [List.length_nil] at hq
        omega
      simp only [look_nil, set, hrn, false_and, ↓reduceIte]
  | cons a q ih =>
      simp only [List.length_cons] at hq
      by_cases hc : r = n ∧ a = i
      · obtain ⟨rfl, rfl⟩ := hc
        have hs : F.next (set T r a e r a) = some t := by simp only [set, and_self, ↓reduceIte, he]
        rw [look_cons_some hs, look_cons_none hi, hfresh q]
      · have hs : set T n i e r a = T r a := by simp only [set, hc, ↓reduceIte]
        cases hx : F.next (T r a) with
        | none => rw [look_cons_none hx, look_cons_none (by rw [hs, hx])]
        | some m =>
            obtain ⟨o'', ho'', _⟩ := h.step hr (by omega) hx
            rw [look_cons_some hx, look_cons_some (by rw [hs, hx])]
            exact ih ho'' (by simp only [List.length_append, List.length_singleton]; omega)

/-- Entries of last-level tables are free. -/
theorem set_leaf (h : F.Forest D T lab) {n : Node} {i : Idx} {e : E} {o p} (hn : lab n = some (o, p))
    (hd : p.length = D) : F.Forest D (set T n i e) lab := by
  have hne : ∀ {m o' p'}, lab m = some (o', p') → p'.length < D → m ≠ n := by
    rintro m o' p' hm hp rfl
    rw [← label_path_eq hn hm] at hp
    omega
  refine ⟨h.root, h.depth, fun hm hp hx => ?_, h.inj, fun {m o' p' j} hm => ?_⟩
  · simp only [set, hne hm hp, false_and, ↓reduceIte] at hx
    exact h.step hm hp hx
  · have hlen := h.depth hm
    simp only [List.length_append, List.length_singleton] at hlen
    obtain ⟨n', hn', hx⟩ := h.home hm
    refine ⟨n', hn', ?_⟩
    simp only [set, hne hn' (by omega), false_and, ↓reduceIte]
    exact hx

theorem walk_set_leaf (h : F.Forest D T lab) {n : Node} {i : Idx} {e : E} {o p} (hn : lab n = some (o, p))
    (hd : p.length = D) {r o' q₀} {q : List Idx} (hr : lab r = some (o', q₀)) (hq : q₀.length + q.length ≤ D) :
    F.walk (set T n i e) r q = F.walk T r q := by
  induction q generalizing r o' q₀ with
  | nil => rfl
  | cons a q ih =>
      simp only [List.length_cons] at hq
      have hrn : r ≠ n := by
        rintro rfl
        have hp := label_path_eq hn hr
        rw [hp] at hd
        omega
      simp only [walk, set, hrn, false_and, ↓reduceIte]
      cases hx : F.next (T r a) with
      | none => rfl
      | some m =>
          obtain ⟨o'', ho'', _⟩ := h.step hr (by omega) hx
          exact ih ho'' (by simp only [List.length_append, List.length_singleton]; omega)

/-- A changed last-level entry is seen from a root along exactly the paths that lead to it. -/
theorem look_set_leaf (h : F.Forest D T lab) {n : Node} {i : Idx} {e : E} {o p} (hn : lab n = some (o, p))
    (hd : p.length = D) {r : Node} {q : List Idx} {j : Idx} (hr : lab r = some (r, [])) (hq : q.length = D) :
    F.look (set T n i e) r q j = if F.walk T r q = some n ∧ j = i then F.value e else F.look T r q j := by
  have hw := h.walk_set_leaf (i := i) (e := e) hn hd hr (q := q) (by simp only [List.length_nil]; omega)
  simp only [look, hw]
  cases F.walk T r q with
  | none => simp
  | some t =>
      simp only [set, Option.some.injEq]
      split
      · rfl
      · rfl

end Forest

end Format

end ShadowOS
