import ShadowOS.Fs.Spec

/-!
# Paths and lookups
-/

namespace ShadowOS.Fs

variable {nodes : U64 → Vnode} {root n m : U64} {T : Set U64} {path c : CString} {ps qs : List CString}

/-! ## Names and components -/

theorem nameBuffer_length_le (path : CString) : (nameBuffer path).length ≤ 255 := by
  rw [nameBuffer, List.length_take]
  exact Nat.min_le_left _ _

theorem ne_slash (hc : slash ∉ c) : ∀ b ∈ c, decide (b ≠ slash) = true := by
  intro b hb
  rw [decide_eq_true_eq]
  rintro rfl
  exact hc hb

theorem nameBuffer_eq (hc : slash ∉ c) (hlen : c.length ≤ 255) (rest : CString) :
    nameBuffer (c ++ slash :: rest) = c := by
  have htake : (c ++ slash :: rest).takeWhile (· ≠ slash) = c := by
    rw [List.takeWhile_append_of_pos (ne_slash hc)]
    simp
  rw [nameBuffer, htake, List.take_of_length_le hlen]

theorem nameBuffer_last (hc : slash ∉ c) (hlen : c.length ≤ 255) : nameBuffer c = c := by
  rw [nameBuffer, List.takeWhile_eq_self_iff.mpr (ne_slash hc), List.take_of_length_le hlen]

theorem afterName_eq (hc : slash ∉ c) (hlen : c.length ≤ 255) (rest : CString) : afterName (c ++ slash :: rest) = rest := by
  rw [afterName, nameBuffer_eq hc hlen, List.drop_left]
  simp

theorem afterName_last (hc : slash ∉ c) (hlen : c.length ≤ 255) : afterName c = [] := by
  rw [afterName, nameBuffer_last hc hlen, List.drop_length]

/-- Every turn of a lookup takes a byte of the path. -/
theorem afterName_length_lt (h : path ≠ []) : (afterName path).length < path.length := by
  obtain ⟨b, bs, rfl⟩ := List.exists_cons_of_ne_nil h
  by_cases hb : b = slash
  · rw [hb, ← List.nil_append (slash :: bs), afterName_eq (by simp) (by simp)]
    simp
  · rw [afterName]
    have hpos : 1 ≤ (nameBuffer (b :: bs)).length := by simp [nameBuffer, hb]
    have hdrop : ((b :: bs).drop (nameBuffer (b :: bs)).length).length < (b :: bs).length := by
      rw [List.length_drop, List.length_cons]
      omega
    split
    · simp
    · rename_i c rest hrest
      rw [hrest, List.length_cons] at hdrop
      split
      · omega
      · exact hdrop

/-- A path is one component, or starts with one that a slash ends. -/
theorem slash_cases (path : CString) : slash ∉ path ∨ ∃ c rest, path = c ++ slash :: rest ∧ slash ∉ c := by
  by_cases h : slash ∈ path
  · obtain ⟨c, rest, rfl, hc⟩ := List.eq_append_cons_of_mem h
    exact .inr ⟨c, rest, rfl, hc⟩
  · exact .inl h

/-- The components of what follows the first slash of a path. -/
def split (rest : CString) : List CString := components (slash :: rest)

theorem split_nil : split [] = [] := rfl

theorem dropEmptyLast_cons {cs : List CString} (hne : cs ≠ []) : dropEmptyLast (c :: cs) = c :: dropEmptyLast cs := by
  simp only [dropEmptyLast, List.getLast?_cons_of_ne_nil hne, List.dropLast_cons_of_ne_nil hne]
  split
  · rfl
  · rfl

theorem split_last (hc : slash ∉ c) (hne : c ≠ []) : split c = [c] := by
  have hs : c.splitOn slash = [c] := List.splitOn_eq_singleton hc
  simp [split, components, dropEmptyLast, hs, hne]

theorem split_cons (hc : slash ∉ c) (rest : CString) : split (c ++ slash :: rest) = c :: split rest := by
  have hp : ∀ b ∈ c, (b == slash) = false := by
    intro b hb
    rw [beq_eq_false_iff_ne]
    rintro rfl
    exact hc hb
  have hs : (c ++ slash :: rest).splitOn slash = c :: rest.splitOn slash :=
    List.splitOnP_append_cons_of_forall_mem hp slash (by simp) rest
  rw [split, components, List.tail_cons, hs, dropEmptyLast_cons (List.splitOn_ne_nil _ _)]
  rfl

/-- The bytes of the components, with a slash for each. -/
def splitSize (cs : List CString) : Nat := (cs.map fun c => c.length + 1).sum

/-- Only a last slash is lost when a path is taken apart. -/
theorem splitSize_split (rest : CString) : splitSize (split rest) ≤ rest.length + 1 ∧ rest.length ≤ splitSize (split rest) := by
  induction hlen : rest.length using Nat.strong_induction_on generalizing rest with
  | _ len ih =>
      subst hlen
      rcases slash_cases rest with hc | ⟨c, rest', rfl, hc⟩
      · by_cases hne : rest = []
        · rw [hne]
          exact ⟨by simp [split_nil, splitSize], by simp⟩
        · rw [split_last hc hne]
          simp [splitSize]
      · have ih' := ih rest'.length (by simp only [List.length_append, List.length_cons]; omega) rest' rfl
        rw [split_cons hc]
        simp only [splitSize, List.map_cons, List.sum_cons, List.length_append, List.length_cons] at ih' ⊢
        omega

/-- A path has other components than what follows its mountpoint. -/
theorem components_append_ne {mountpoint rest : CString} (hm : mountpoint.head? = some slash)
    (hrest : rest = [] ∨ rest.head? = some slash) (he : components (mountpoint ++ rest) = components rest) :
    components (mountpoint ++ rest) = [] := by
  obtain ⟨mp, rfl⟩ := List.head?_eq_some_iff.mp hm
  rcases hrest with rfl | hrest
  · exact he
  · obtain ⟨rest, rfl⟩ := List.head?_eq_some_iff.mp hrest
    change split (mp ++ slash :: rest) = split rest at he
    have hle := (splitSize_split (mp ++ slash :: rest)).2
    have hge := (splitSize_split rest).1
    rw [he, List.length_append, List.length_cons] at hle
    have hnil : mp = [] := List.eq_nil_of_length_eq_zero (by omega)
    rw [hnil, split_cons (by simp)] at he
    have hlength := congrArg List.length he
    simp at hlength

theorem piecesFrom_length_le : ∀ {fuel : Nat} {path : CString}, ∀ c ∈ piecesFrom fuel path, c.length ≤ 255
  | 0, _ => by simp [piecesFrom]
  | fuel + 1, path => by
      simp only [piecesFrom]
      split
      · simp
      · exact List.forall_mem_cons.mpr ⟨nameBuffer_length_le path, piecesFrom_length_le⟩

theorem nameBuffer_slash (path : CString) : slash ∉ nameBuffer path := by
  intro h
  simpa using List.mem_takeWhile_imp (List.mem_of_mem_take h)

theorem piecesFrom_slash : ∀ {fuel : Nat} {path : CString}, ∀ c ∈ piecesFrom fuel path, slash ∉ c
  | 0, _ => by simp [piecesFrom]
  | fuel + 1, path => by
      simp only [piecesFrom]
      split
      · simp
      · exact List.forall_mem_cons.mpr ⟨nameBuffer_slash path, piecesFrom_slash⟩

/-- Short components are not cut. -/
theorem piecesFrom_eq_split {fuel : Nat} (hfuel : path.length ≤ fuel) (hshort : ∀ c ∈ split path, c.length ≤ 255) :
    piecesFrom fuel path = split path := by
  induction fuel generalizing path with
  | zero =>
      rw [List.eq_nil_of_length_eq_zero (Nat.le_zero.mp hfuel)]
      rfl
  | succ fuel ih =>
      by_cases hne : path = []
      · rw [hne]
        rfl
      · have hlt := afterName_length_lt hne
        rw [piecesFrom, if_neg hne]
        rcases slash_cases path with hc | ⟨c, rest, rfl, hc⟩
        · rw [split_last hc hne] at hshort ⊢
          have hlen := hshort path (by simp)
          rw [nameBuffer_last hc hlen, afterName_last hc hlen]
          cases fuel with
          | zero => rfl
          | succ fuel => rfl
        · rw [split_cons hc] at hshort ⊢
          obtain ⟨hlen, hrest⟩ := List.forall_mem_cons.mp hshort
          rw [afterName_eq hc hlen] at hlt ⊢
          rw [nameBuffer_eq hc hlen, ih (by omega) hrest]

theorem pieces_length_le (path : CString) : ∀ c ∈ pieces path, c.length ≤ 255 := piecesFrom_length_le

theorem pieces_eq_components (hpath : path.head? = some slash) (hshort : ∀ c ∈ components path, c.length ≤ 255) :
    pieces path = components path := by
  obtain ⟨rest, rfl⟩ := List.head?_eq_some_iff.mp hpath
  exact piecesFrom_eq_split (by simp) hshort

/-! ## The name of a file -/

theorem strrchrFrom_of_not_mem {b : U8} {str : CString} (h : b ∉ str) (i : Nat) (last : Option Nat) :
    strrchrFrom b i last str = last := by
  induction str generalizing i with
  | nil => rfl
  | cons c str ih =>
      rw [List.mem_cons, not_or] at h
      rw [strrchrFrom, if_neg (Ne.symm h.1), ih h.2]

theorem strrchrFrom_append {b : U8} {str : CString} (h : b ∉ str) (before : CString) (i : Nat) (last : Option Nat) :
    strrchrFrom b i last (before ++ b :: str) = some (i + before.length) := by
  induction before generalizing i last with
  | nil => rw [List.nil_append, strrchrFrom, if_pos rfl, strrchrFrom_of_not_mem h, List.length_nil, Nat.add_zero]
  | cons c before ih => rw [List.cons_append, strrchrFrom, ih, List.length_cons, Nat.add_right_comm, Nat.add_assoc]

/-- A path with a slash is taken apart at its last one. -/
theorem last_slash (h : slash ∈ path) : ∃ before name, path = before ++ slash :: name ∧ slash ∉ name := by
  obtain hc | ⟨c, rest, hrev, hc⟩ := slash_cases path.reverse
  · exact absurd (List.mem_reverse.mpr h) hc
  · refine ⟨rest.reverse, c.reverse, ?_, by simpa using hc⟩
    rw [← List.reverse_reverse path, hrev]
    simp

theorem filenameFromPath_eq {before name : CString} (hname : slash ∉ name) (hne : name ≠ []) :
    filenameFromPath (before ++ slash :: name) = name := by
  have hlen := List.length_pos_of_ne_nil hne
  rw [filenameFromPath, strrchr, strrchrFrom_append hname]
  simp only [Nat.zero_add, List.length_append, List.length_cons]
  rw [if_pos (by omega), List.drop_append, List.drop_of_length_le (by omega)]
  simp

/-- After a last slash the name of the file starts too early. -/
theorem slash_mem_filenameFromPath (before : CString) : slash ∈ filenameFromPath (before ++ [slash]) := by
  rw [filenameFromPath, strrchr, strrchrFrom_append (by simp)]
  simp only [Nat.zero_add, List.length_append, List.length_cons, List.length_nil, lt_self_iff_false, ↓reduceIte]
  split
  · simp
  · rw [List.drop_append_of_le_length (by omega)]
    simp

theorem components_append {before name : CString} (hpath : (before ++ slash :: name).head? = some slash)
    (hname : slash ∉ name) (hne : name ≠ []) : ∃ ps, components (before ++ slash :: name) = ps ++ [name] := by
  cases before with
  | nil => exact ⟨[], split_last hname hne⟩
  | cons b before =>
      refine ⟨before.splitOn slash, ?_⟩
      have hsplit : (before ++ slash :: name).splitOn slash = before.splitOn slash ++ [name] := by
        have hlast : name.splitOn slash = [name] := List.splitOn_eq_singleton hname
        rw [← hlast]
        exact List.splitOnP_append_cons before name (by simp)
      rw [components, List.cons_append, List.tail_cons, hsplit, dropEmptyLast, if_neg (by simpa using hne)]

/-- The name of the file is the last component of the path unless the path ends with a slash. -/
theorem filenameFromPath_cases (hpath : path.head? = some slash) :
    path.getLast? = some slash ∧ slash ∈ filenameFromPath path ∨
      path.getLast? ≠ some slash ∧ ∃ ps, components path = ps ++ [filenameFromPath path] := by
  obtain ⟨before, name, rfl, hname⟩ := last_slash (List.mem_of_mem_head? hpath)
  by_cases hne : name = []
  · subst hne
    exact .inl ⟨by simp, slash_mem_filenameFromPath before⟩
  · refine .inr ⟨?_, ?_⟩
    · rw [List.getLast?_append_cons, List.getLast?_cons_of_ne_nil hne]
      exact fun hc => hname (List.mem_of_getLast? hc)
    · rw [filenameFromPath_eq hname hne]
      exact components_append hpath hname hne

/-! ## Following names -/

theorem follow_append (hn : n ≠ 0) : follow nodes n (ps ++ qs) =
    if follow nodes n ps = 0 then 0 else follow nodes (follow nodes n ps) qs := by
  induction ps generalizing n with
  | nil =>
      change follow nodes n qs = if n = 0 then 0 else follow nodes n qs
      rw [if_neg hn]
  | cons p ps ih =>
      simp only [List.cons_append, follow]
      by_cases h0 : vfsLookup nodes n p = 0
      · simp [h0]
      · simp only [h0, ↓reduceIte]
        exact ih h0

theorem follow_concat (hn : n ≠ 0) (c : CString) : follow nodes n (ps ++ [c]) =
    if follow nodes n ps = 0 then 0 else vfsLookup nodes (follow nodes n ps) c := by
  rw [follow_append hn]
  by_cases h0 : vfsLookup nodes (follow nodes n ps) c = 0
  · simp only [follow, h0, ↓reduceIte]
  · simp only [follow, h0, ↓reduceIte]

/-- There are fewer pointers than the walks have turns. -/
theorem length_le_maxCells {ks : List U64} (h : ks.Nodup) : ks.length ≤ maxCells := by
  have hn : (ks.map BitVec.toNat).Nodup := h.map_on (fun p _ q _ hpq => BitVec.eq_of_toNat_eq hpq)
  have hs : ks.map BitVec.toNat ⊆ List.range (2 ^ 64) := by
    intro i hi
    obtain ⟨p, _, rfl⟩ := List.mem_map.mp hi
    exact List.mem_range.mpr p.isLt
  have hle := (hn.subperm hs).length_le
  rwa [List.length_map, List.length_range] at hle

namespace VnodeTree

theorem root_ne (h : VnodeTree nodes root T) : root ≠ 0 := fun hc => h.nonnull (hc ▸ h.root_mem)

theorem vfsLookup_eq (h : VnodeTree nodes root T) (hn : n ∈ T) : ∃ ks,
    Chain (fun p => (nodes p).next) 0 (nodes n).child ks ∧ (∀ m ∈ ks, m ∈ T ∧ (nodes m).parent = n ∧ m ≠ root) ∧
      ∀ c, vfsLookup nodes n c = (ks.find? fun p => (nodes p).name = some c).getD 0 := by
  obtain ⟨ks, hks, hmem⟩ := h.children n hn
  exact ⟨ks, hks, hmem, fun c => hks.findFrom_eq (length_le_maxCells hks.nodup)⟩

theorem atDepth_mem {d : Nat} (h : VnodeTree nodes root T) (hn : AtDepth nodes root d n) : n ∈ T := by
  induction hn with
  | root => exact h.root_mem
  | child hn hks hm ih =>
      obtain ⟨js, hjs, hmem⟩ := h.children _ ih
      rw [hks.unique hjs] at hm
      exact (hmem _ hm).1

/-- What a lookup finds is a child of that name. -/
theorem lookup (h : VnodeTree nodes root T) (hn : n ∈ T) (hm : vfsLookup nodes n c ≠ 0) :
    vfsLookup nodes n c ∈ T ∧ (nodes (vfsLookup nodes n c)).parent = n ∧ vfsLookup nodes n c ≠ root ∧
      (nodes (vfsLookup nodes n c)).name = some c := by
  obtain ⟨ks, _, hmem, hl⟩ := h.vfsLookup_eq hn
  rw [hl] at hm ⊢
  cases hf : ks.find? fun p => (nodes p).name = some c with
  | none =>
      rw [hf] at hm
      exact absurd rfl hm
  | some m =>
      obtain ⟨hT, hparent, hroot⟩ := hmem m (List.mem_of_find?_eq_some hf)
      have hname := List.find?_some hf
      exact ⟨hT, hparent, hroot, by simpa using hname⟩

theorem follow_mem (h : VnodeTree nodes root T) (hn : n ∈ T) (hm : follow nodes n ps ≠ 0) : follow nodes n ps ∈ T := by
  induction ps generalizing n with
  | nil => exact hn
  | cons p ps ih =>
      simp only [follow] at hm ⊢
      by_cases h0 : vfsLookup nodes n p = 0
      · simp [h0] at hm
      · simp only [h0, ↓reduceIte] at hm ⊢
        exact ih (h.lookup hn h0).1 hm

theorem follow_concat_ne_root (h : VnodeTree nodes root T) : follow nodes root (ps ++ [c]) ≠ root := by
  rw [follow_concat h.root_ne]
  split
  · exact h.root_ne.symm
  · rename_i h0
    intro he
    have hl := h.lookup (h.follow_mem h.root_mem h0) (c := c) (by rw [he]; exact h.root_ne)
    exact hl.2.2.1 he

/-- Only one list of names leads from the root to a vnode. -/
theorem follow_inj (h : VnodeTree nodes root T) (hp : follow nodes root ps ≠ 0)
    (he : follow nodes root ps = follow nodes root qs) : ps = qs := by
  induction ps using List.reverseRecOn generalizing qs with
  | nil =>
      rcases List.eq_nil_or_concat qs with rfl | ⟨qs, d, rfl⟩
      · rfl
      · rw [List.concat_eq_append] at he
        exact absurd he.symm h.follow_concat_ne_root
  | append_singleton ps c ih =>
      rcases List.eq_nil_or_concat qs with rfl | ⟨qs, d, rfl⟩
      · exact absurd he h.follow_concat_ne_root
      · rw [List.concat_eq_append] at he ⊢
        have hq : follow nodes root (qs ++ [d]) ≠ 0 := he ▸ hp
        rw [follow_concat h.root_ne] at hp hq he
        rw [follow_concat h.root_ne] at he
        by_cases hp0 : follow nodes root ps = 0
        · simp [hp0] at hp
        · by_cases hq0 : follow nodes root qs = 0
          · simp [hq0] at hq
          · simp only [hp0, hq0, ↓reduceIte] at hp hq he
            obtain ⟨_, hpp, _, hpn⟩ := h.lookup (h.follow_mem h.root_mem hp0) hp
            obtain ⟨_, hqp, _, hqn⟩ := h.lookup (h.follow_mem h.root_mem hq0) hq
            rw [he] at hpp hpn
            rw [ih hp0 (hpp.symm.trans hqp), Option.some.inj (hpn.symm.trans hqn)]

end VnodeTree

/-! ## The lazy lookup -/

/-- The loop of the lookup, over the names. -/
def lazyNames (nodes : U64 → Vnode) : U64 → List CString → Option U64
  | n, [] => some n
  | n, p :: ps =>
      if vfsLookup nodes n p = 0 then none
      else if (nodes (vfsLookup nodes n p)).type ≠ vnodeDir then some (vfsLookup nodes n p)
      else lazyNames nodes (vfsLookup nodes n p) ps

theorem lazyWalk_eq {fuel : Nat} (hfuel : path.length ≤ fuel) :
    lazyWalk nodes fuel n path = lazyNames nodes n (piecesFrom fuel path) := by
  induction fuel generalizing n path with
  | zero => rfl
  | succ fuel ih =>
      simp only [lazyWalk, piecesFrom]
      by_cases hne : path = []
      · simp only [hne, ↓reduceIte]
        rfl
      · have hlt := afterName_length_lt hne
        simp only [hne, ↓reduceIte, lazyNames]
        rw [ih (by omega)]

/-- Names that lead through directories are all followed. -/
theorem lazyNames_of_dirs (hn : n ≠ 0) (hd : ∀ i, 0 < i → i < ps.length → follow nodes n (ps.take i) ≠ 0 →
      (nodes (follow nodes n (ps.take i))).type = vnodeDir) :
    lazyNames nodes n ps = if follow nodes n ps = 0 then none else some (follow nodes n ps) := by
  induction ps generalizing n with
  | nil =>
      change some n = if n = 0 then none else some n
      rw [if_neg hn]
  | cons p ps ih =>
      simp only [lazyNames, follow]
      by_cases h0 : vfsLookup nodes n p = 0
      · simp only [h0, ↓reduceIte]
      · simp only [h0, ↓reduceIte]
        have hrest : ∀ i, 0 < i → i < ps.length → follow nodes (vfsLookup nodes n p) (ps.take i) ≠ 0 →
            (nodes (follow nodes (vfsLookup nodes n p) (ps.take i))).type = vnodeDir := by
          intro i hi hlen hne
          have hstep := hd (i + 1) (by omega) (by simpa using hlen)
          simp only [List.take_succ_cons, follow, h0, ↓reduceIte] at hstep
          exact hstep hne
        rw [ih h0 hrest]
        by_cases hdir : (nodes (vfsLookup nodes n p)).type = vnodeDir
        · simp only [hdir, ne_eq, not_true_eq_false, ↓reduceIte]
        · have hnil : ps = [] := by
            by_contra hps
            have hstep := hd 1 (by omega) (by simpa using List.length_pos_of_ne_nil hps)
            simp only [List.take_succ_cons, List.take_zero, follow, h0, ↓reduceIte] at hstep
            exact hdir (hstep h0)
          subst hnil
          simp only [ne_eq, hdir, not_false_eq_true, ↓reduceIte]
          change some _ = if vfsLookup nodes n p = 0 then none else some (vfsLookup nodes n p)
          rw [if_neg h0]

/-- The lookup stops at the first vnode that is no directory. -/
theorem lazyNames_of_not_dir {i : Nat} (hi : 0 < i) (hlen : i < ps.length) (hne : follow nodes n (ps.take i) ≠ 0)
    (hdir : (nodes (follow nodes n (ps.take i))).type ≠ vnodeDir) :
    ∃ j, 0 < j ∧ j < ps.length ∧ follow nodes n (ps.take j) ≠ 0 ∧
      lazyNames nodes n ps = some (follow nodes n (ps.take j)) := by
  induction ps generalizing n i with
  | nil => simp at hlen
  | cons p ps ih =>
      obtain ⟨i, rfl⟩ := Nat.exists_eq_succ_of_ne_zero (Nat.pos_iff_ne_zero.mp hi)
      simp only [Nat.succ_eq_add_one, List.length_cons, Nat.add_lt_add_iff_right] at hlen
      simp only [Nat.succ_eq_add_one, List.take_succ_cons, follow] at hne hdir
      by_cases h0 : vfsLookup nodes n p = 0
      · simp only [h0, ↓reduceIte, ne_eq, not_true_eq_false] at hne
      · simp only [h0, ↓reduceIte] at hne hdir
        by_cases hfirst : (nodes (vfsLookup nodes n p)).type = vnodeDir
        · have hpos : 0 < i := by
            rcases Nat.eq_zero_or_pos i with rfl | hpos
            · exact absurd hfirst hdir
            · exact hpos
          obtain ⟨j, hj, hjlen, hjne, hl⟩ := ih hpos hlen hne hdir
          refine ⟨j + 1, by omega, by simpa using hjlen, ?_, ?_⟩
          · simpa only [List.take_succ_cons, follow, h0, ↓reduceIte] using hjne
          · simp only [lazyNames, List.take_succ_cons, follow, h0, ↓reduceIte, hfirst, ne_eq, not_true_eq_false]
            exact hl
        · refine ⟨1, by omega, by simp only [List.length_cons]; omega, ?_, ?_⟩
          · simp only [List.take_succ_cons, List.take_zero, follow, h0, ↓reduceIte]
            exact h0
          · simp only [lazyNames, List.take_succ_cons, List.take_zero, follow, h0, ↓reduceIte, ne_eq, hfirst,
              not_false_eq_true]

/-- A mount either resolves a path itself or leaves it to the next one. -/
theorem lazyLookupFrom_succ (s : Vfs) {fuel : Nat} {mount : U64} (hm : mount ≠ 0) (hpath : path.head? = some slash)
    (hroot : (s.mounts mount).root ≠ 0) : lazyLookupFrom s (fuel + 1) mount (some path) =
      match lazyNames s.nodes (s.mounts mount).root (pieces path) with
      | some node => node
      | none => if (s.mounts mount).next ≠ 0 then lazyLookupFrom s fuel (s.mounts mount).next (some path) else 0 := by
  have hwalk : lazyWalk s.nodes path.length (s.mounts mount).root path.tail =
      lazyNames s.nodes (s.mounts mount).root (pieces path) := lazyWalk_eq (by simp)
  cases hnames : lazyNames s.nodes (s.mounts mount).root (pieces path) with
  | none => simp only [lazyLookupFrom, hm, hpath, ne_eq, not_true_eq_false, or_self, ↓reduceIte, hroot, hwalk, hnames]
  | some n => simp only [lazyLookupFrom, hm, hpath, ne_eq, not_true_eq_false, or_self, ↓reduceIte, hroot, hwalk, hnames]

theorem vfsLazyLookup_single {s : Vfs} {mount : U64} (hm : mount ≠ 0) (hpath : path.head? = some slash)
    (hroot : (s.mounts mount).root ≠ 0) (hnext : (s.mounts mount).next = 0) :
    vfsLazyLookup s mount (some path) = (lazyNames s.nodes (s.mounts mount).root (pieces path)).getD 0 := by
  have hfuel : maxCells = (2 ^ 64 - 1) + 1 := rfl
  rw [vfsLazyLookup, hfuel, lazyLookupFrom_succ s hm hpath hroot]
  cases lazyNames s.nodes (s.mounts mount).root (pieces path) with
  | none => simp [hnext]
  | some n => rfl

theorem resolve_eq (s : Vfs) (mount : U64) (path : CString) :
    resolve s mount path = lazyNames s.nodes (s.mounts mount).root (pieces path) := lazyWalk_eq (by simp)

theorem lazyNames_ne_zero (hn : n ≠ 0) (h : lazyNames nodes n ps = some m) : m ≠ 0 := by
  induction ps generalizing n with
  | nil =>
      cases h
      exact hn
  | cons p ps ih =>
      simp only [lazyNames] at h
      split at h
      · cases h
      · rename_i h0
        split at h
        · cases h
          exact h0
        · exact ih h0 h

/-- The lookup goes on to the first mount that resolves the path. -/
theorem lazyLookupFrom_eq {s : Vfs} {fuel : Nat} {mount M : U64} {before after : List U64}
    (hlist : Chain (fun m => (s.mounts m).next) 0 mount (before ++ M :: after)) (hfuel : before.length < fuel)
    (hpath : path.head? = some slash) (hbefore : ∀ m ∈ before, (s.mounts m).root ≠ 0 ∧ resolve s m path = none)
    (hroot : (s.mounts M).root ≠ 0) (hM : resolve s M path = some n) : lazyLookupFrom s fuel mount (some path) = n := by
  induction before generalizing mount fuel with
  | nil =>
      obtain ⟨rfl, h0, _⟩ := hlist
      obtain ⟨fuel, rfl⟩ := Nat.exists_eq_succ_of_ne_zero (Nat.pos_iff_ne_zero.mp hfuel)
      rw [lazyLookupFrom_succ s h0 hpath hroot, ← resolve_eq, hM]
  | cons m before ih =>
      obtain ⟨rfl, h0, hlist⟩ := hlist
      obtain ⟨⟨hr, hnone⟩, hbefore⟩ := List.forall_mem_cons.mp hbefore
      obtain ⟨fuel, rfl⟩ := Nat.exists_eq_succ_of_ne_zero (Nat.ne_zero_of_lt hfuel)
      have hnext : (s.mounts mount).next ≠ 0 := by
        intro hc
        simp only [hc] at hlist
        exact absurd hlist.null_eq (by simp)
      rw [lazyLookupFrom_succ s h0 hpath hr, ← resolve_eq, hnone]
      simp only [ne_eq, hnext, not_false_eq_true, ↓reduceIte]
      exact ih hlist (by simpa using hfuel) hbefore

theorem not_noneResolves {s : Vfs} {later : List U64} (h : ¬ NoneResolves s path later) :
    ∃ before M after n, later = before ++ M :: after ∧
      (∀ m ∈ before, (s.mounts m).root ≠ 0 ∧ resolve s m path = none) ∧ (s.mounts M).root ≠ 0 ∧
      resolve s M path = some n := by
  induction later with
  | nil => exact absurd trivial h
  | cons m ms ih =>
      simp only [NoneResolves, not_or, not_and] at h
      cases hm : resolve s m path with
      | some n => exact ⟨[], m, ms, n, rfl, by simp, h.1, hm⟩
      | none =>
          obtain ⟨before, M, after, n, rfl, hbefore, hM⟩ := ih (h.2 hm)
          exact ⟨m :: before, M, after, n, rfl, List.forall_mem_cons.mpr ⟨⟨h.1, hm⟩, hbefore⟩, hM⟩

theorem NoneResolves.resolve_eq_none {s : Vfs} {M : U64} {before after : List U64}
    (h : NoneResolves s path (before ++ M :: after)) (hbefore : ∀ m ∈ before, (s.mounts m).root ≠ 0)
    (hM : (s.mounts M).root ≠ 0) : resolve s M path = none := by
  induction before with
  | nil =>
      rcases h with h0 | h
      · exact absurd h0 hM
      · exact h.1
  | cons m before ih =>
      obtain ⟨hm, hbefore⟩ := List.forall_mem_cons.mp hbefore
      rcases h with h0 | h
      · exact absurd h0 hm
      · exact ih h.2 hbefore

/-! ## The last vnode on the way -/

/-- The loop of `vfs_lazy_lookup_last`, over the names. -/
def lastNames (nodes : U64 → Vnode) : U64 → List CString → U64
  | n, [] => n
  | n, p :: ps => if vfsLookup nodes n p = 0 then n else lastNames nodes (vfsLookup nodes n p) ps

theorem lastWalk_eq {fuel : Nat} (hfuel : path.length ≤ fuel) :
    lastWalk nodes fuel n path = lastNames nodes n (piecesFrom fuel path) := by
  induction fuel generalizing n path with
  | zero => rfl
  | succ fuel ih =>
      simp only [lastWalk, piecesFrom]
      by_cases hne : path = []
      · simp only [hne, ↓reduceIte]
        rfl
      · have hlt := afterName_length_lt hne
        simp only [hne, ↓reduceIte, lastNames]
        rw [ih (by omega)]

theorem lastNames_concat {c : CString} (hn : follow nodes n ps ≠ 0) (hc : vfsLookup nodes (follow nodes n ps) c = 0) :
    lastNames nodes n (ps ++ [c]) = follow nodes n ps := by
  induction ps generalizing n with
  | nil => exact if_pos hc
  | cons p ps ih =>
      simp only [follow] at hn hc ⊢
      split at hn
      · exact absurd rfl hn
      · rename_i h0
        rw [if_neg h0] at hc ⊢
        rw [List.cons_append, lastNames, if_neg h0, ih hn hc]

theorem vfsLookup_of_child (h : (nodes n).child = 0) (c : CString) : vfsLookup nodes n c = 0 := by
  rw [vfsLookup, h]
  rfl

/-- The last vnode on the way is that of the longest part of the names that leads somewhere. -/
theorem lastNames_longest (nodes : U64 → Vnode) (ps : List CString) (hn : n ≠ 0) : ∃ i ≤ ps.length, follow nodes n (ps.take i) ≠ 0 ∧
    lastNames nodes n ps = follow nodes n (ps.take i) ∧ ∀ j ≤ ps.length, follow nodes n (ps.take j) ≠ 0 → j ≤ i := by
  induction ps generalizing n with
  | nil => exact ⟨0, le_rfl, hn, rfl, fun j hj _ => hj⟩
  | cons p ps ih =>
      by_cases h0 : vfsLookup nodes n p = 0
      · refine ⟨0, Nat.zero_le _, hn, if_pos h0, fun j _ hj => ?_⟩
        cases j with
        | zero => exact le_rfl
        | succ j => exact absurd (if_pos h0) hj
      · obtain ⟨i, hi, hne, hlast, hmax⟩ := ih h0
        refine ⟨i + 1, Nat.succ_le_succ hi, ?_, ?_, fun j hj hjne => ?_⟩
        · rwa [List.take_succ_cons, follow, if_neg h0]
        · rw [lastNames, if_neg h0, hlast, List.take_succ_cons, follow, if_neg h0]
        · cases j with
          | zero => exact Nat.zero_le _
          | succ j =>
              rw [List.take_succ_cons, follow, if_neg h0] at hjne
              exact Nat.succ_le_succ (hmax j (Nat.le_of_succ_le_succ hj) hjne)

/-- Where only directories have children, the two walks end at the same vnode. -/
theorem lastNames_of_lazyNames (h : VnodeTree nodes root T) (hdirs : ∀ n ∈ T, (nodes n).child ≠ 0 → (nodes n).type = vnodeDir)
    (hn : n ∈ T) (hm : lazyNames nodes n ps = some m) : lastNames nodes n ps = m := by
  induction ps generalizing n with
  | nil => exact Option.some.inj hm
  | cons p ps ih =>
      simp only [lazyNames] at hm
      split at hm
      · cases hm
      · rename_i h0
        have hnext := (h.lookup hn h0).1
        rw [lastNames, if_neg h0]
        split at hm
        · rename_i hdir
          have hchild : (nodes (vfsLookup nodes n p)).child = 0 := by
            by_contra hc
            exact hdir (hdirs _ hnext hc)
          cases hm
          cases ps with
          | nil => rfl
          | cons q ps => rw [lastNames, if_pos (vfsLookup_of_child hchild q)]
        · exact ih hnext hm

theorem vfsLazyLookupLast_eq {s : Vfs} {mount : U64} (hm : mount ≠ 0) (hpath : path.head? = some slash)
    (hroot : (s.mounts mount).root ≠ 0) :
    vfsLazyLookupLast s mount (some path) = lastNames s.nodes (s.mounts mount).root (pieces path) := by
  simp only [vfsLazyLookupLast, hm, hpath, ne_eq, not_true_eq_false, or_self, ↓reduceIte, hroot]
  exact lastWalk_eq (by simp)

end ShadowOS.Fs
