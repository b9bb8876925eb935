import ShadowOS.Fs.Lemmas.Path

/-!
# Full paths
-/

namespace ShadowOS.Fs

variable {nodes : U64 → Vnode} {root n m : U64} {T : Set U64} {c : CString} {cs : List CString} {d : Nat}

/-! ## Paths of names -/

/-- The path with the given components. -/
def joinPath (cs : List CString) : CString := cs.flatMap (slash :: ·)

theorem joinPath_cons (c : CString) (cs : List CString) : joinPath (c :: cs) = slash :: (c ++ joinPath cs) := rfl

theorem joinPath_concat (cs : List CString) (c : CString) : joinPath (cs ++ [c]) = joinPath cs ++ slash :: c := by
  simp [joinPath]

theorem components_joinPath (hcs : ∀ c ∈ cs, GoodName c) : components (joinPath cs) = cs := by
  induction cs with
  | nil => rfl
  | cons c cs ih =>
      obtain ⟨hc, hcs⟩ := List.forall_mem_cons.mp hcs
      have hne : c ≠ [] := List.length_pos_iff.mp hc.pos
      rw [joinPath_cons]
      change split (c ++ joinPath cs) = c :: cs
      cases cs with
      | nil =>
          have hnil : joinPath [] = [] := rfl
          rw [hnil, List.append_nil, split_last hc.slash hne]
      | cons e es =>
          have ih := ih hcs
          rw [joinPath_cons] at ih ⊢
          rw [split_cons hc.slash]
          exact congrArg (c :: ·) ih

theorem joinPath_head (hne : cs ≠ []) : (joinPath cs).head? = some slash := by
  cases cs with
  | nil => exact absurd rfl hne
  | cons c cs => rfl

theorem pieces_joinPath (hne : cs ≠ []) (hcs : ∀ c ∈ cs, GoodName c) : pieces (joinPath cs) = cs := by
  have hcomps := components_joinPath hcs
  rw [pieces_eq_components (joinPath_head hne) (by rw [hcomps]; exact fun c hc => (hcs c hc).short), hcomps]

theorem joinPath_length_le (hcs : ∀ c ∈ cs, GoodName c) : (joinPath cs).length ≤ 256 * cs.length := by
  induction cs with
  | nil => simp [joinPath]
  | cons c cs ih =>
      obtain ⟨hc, hcs⟩ := List.forall_mem_cons.mp hcs
      have ih := ih hcs
      have hshort := hc.short
      simp only [joinPath_cons, List.length_cons, List.length_append]
      omega

theorem zero_notMem_joinPath (hcs : ∀ c ∈ cs, GoodName c) : 0 ∉ joinPath cs := by
  intro h
  obtain ⟨c, hc, h0⟩ := List.mem_flatMap.mp h
  rcases List.mem_cons.mp h0 with h0 | h0
  · exact absurd h0 (by decide)
  · exact (hcs c hc).zero h0

/-! ## The way to a vnode -/

/-- The names lead down from the root to the vnode, through directories. -/
structure Leads (nodes : U64 → Vnode) (root : U64) (cs : List CString) (n : U64) : Prop where
  names : ∀ c ∈ cs, GoodName c
  follow : follow nodes root cs = n
  dirs : ∀ i < cs.length, (nodes (Fs.follow nodes root (cs.take i))).type = vnodeDir

namespace NamedTree

theorem lookup_child {ks : List U64} (h : NamedTree nodes root T) (hn : n ∈ T)
    (hks : Chain (fun p => (nodes p).next) 0 (nodes n).child ks) (hm : m ∈ ks) (hc : (nodes m).name = some c) :
    vfsLookup nodes n c = m := by
  obtain ⟨js, hjs, _, hl⟩ := h.vfsLookup_eq hn
  rw [hl, hjs.unique hks]
  have hfound : (ks.find? fun p => decide ((nodes p).name = some c)).isSome := by
    rw [List.find?_isSome]
    exact ⟨m, hm, by simpa using hc⟩
  obtain ⟨k, hk⟩ := Option.isSome_iff_exists.mp hfound
  have hname : (nodes k).name = some c := by simpa using List.find?_some hk
  rw [hk, Option.getD_some]
  exact h.siblings n hn ks hks k (List.mem_of_find?_eq_some hk) m hm (hname.trans hc.symm)

/-- A child has a name, its parent is a directory, and the name leads from the parent to it. -/
theorem child {ks : List U64} (h : NamedTree nodes root T) (hn : n ∈ T)
    (hks : Chain (fun p => (nodes p).next) 0 (nodes n).child ks) (hm : m ∈ ks) :
    m ∈ T ∧ (nodes m).parent = n ∧ m ≠ root ∧ (nodes n).type = vnodeDir ∧
      ∃ c, (nodes m).name = some c ∧ GoodName c ∧ vfsLookup nodes n c = m := by
  obtain ⟨js, hjs, hmem⟩ := h.children n hn
  obtain ⟨hT, hparent, hroot⟩ := hmem m (by rwa [← hks.unique hjs])
  obtain ⟨c, hc, hgood⟩ := h.names m hT hroot
  have hdir : (nodes n).child ≠ 0 := by
    intro h0
    rw [h0] at hks
    rw [hks.null_eq] at hm
    cases hm
  exact ⟨hT, hparent, hroot, h.dirs n hn hdir, c, hc, hgood, h.lookup_child hn hks hm hc⟩

end NamedTree

theorem Leads.concat (h : NamedTree nodes root T) (hn : Leads nodes root cs n) (hT : n ∈ T) (hdir : (nodes n).type = vnodeDir)
    (hgood : GoodName c) (hc : vfsLookup nodes n c = m) : Leads nodes root (cs ++ [c]) m := by
  have hn0 : n ≠ 0 := fun h0 => h.nonnull (h0 ▸ hT)
  refine ⟨?_, ?_, fun i hi => ?_⟩
  · intro e he
    rcases List.mem_append.mp he with he | he
    · exact hn.names e he
    · rw [List.mem_singleton.mp he]
      exact hgood
  · rw [follow_concat h.root_ne, hn.follow, if_neg hn0, hc]
  · rw [List.length_append, List.length_singleton] at hi
    rw [List.take_append_of_le_length (by omega)]
    by_cases hlast : i = cs.length
    · rw [hlast, List.take_length, hn.follow]
      exact hdir
    · exact hn.dirs i (by omega)

/-- The lookup of a path finds the vnode that its components lead to. -/
theorem Leads.lazyNames (h : NamedTree nodes root T) (hn : Leads nodes root cs n) (hT : n ∈ T) :
    lazyNames nodes root cs = some n := by
  have hn0 : n ≠ 0 := fun h0 => h.nonnull (h0 ▸ hT)
  rw [lazyNames_of_dirs h.root_ne fun i _ hi _ => hn.dirs i hi, hn.follow, if_neg hn0]

/-- The way up from a vnode passes the names on the way down to it. -/
inductive Climbs (nodes : U64 → Vnode) (root : U64) : List CString → U64 → Prop where
  | root (h : (nodes root).parent = root) : Climbs nodes root [] root
  | child {cs : List CString} {n m : U64} {c : CString} (hn : Climbs nodes root cs n) (hm : m ≠ 0)
      (hparent : (nodes m).parent = n) (hne : n ≠ m) (hname : (nodes m).name = some c) (hgood : GoodName c) :
      Climbs nodes root (cs ++ [c]) m

theorem NamedTree.ways (h : NamedTree nodes root T) (hroot : (nodes root).parent = root) (hn : AtDepth nodes root d n) :
    ∃ cs, cs.length = d ∧ Leads nodes root cs n ∧ Climbs nodes root cs n := by
  induction hn with
  | root => exact ⟨[], rfl, ⟨by simp, rfl, by simp⟩, .root hroot⟩
  | @child d n m ks hn hks hm ih =>
      obtain ⟨cs, hlen, hleads, hclimbs⟩ := ih
      have hT := h.atDepth_mem hn
      obtain ⟨hmT, hparent, hmroot, hdir, c, hname, hgood, hlookup⟩ := h.child hT hks hm
      have hleads' := hleads.concat h hT hdir hgood hlookup
      -- a vnode that is its own child would have two paths
      have hne : n ≠ m := by
        rintro rfl
        have hfollow : follow nodes root cs = follow nodes root (cs ++ [c]) := by rw [hleads.follow, hleads'.follow]
        have hn0 : follow nodes root cs ≠ 0 := by
          rw [hleads.follow]
          exact fun h0 => h.nonnull (h0 ▸ hT)
        have hlength := congrArg List.length (h.follow_inj hn0 hfollow)
        simp at hlength
      have hm0 : m ≠ 0 := fun h0 => h.nonnull (h0 ▸ hmT)
      exact ⟨cs ++ [c], by simp [hlen], hleads', .child hclimbs hm0 hparent hne hname hgood⟩

/-! ## The loops -/

theorem Climbs.pathLength (h : Climbs nodes root cs n) (len : Nat) {k : Nat} (hk : cs.length < k) :
    pathLength nodes k n (BitVec.ofNat 64 len) = .ok (some (BitVec.ofNat 64 (len + (joinPath cs).length))) := by
  induction h generalizing k len with
  | root h =>
      obtain ⟨k, rfl⟩ := Nat.exists_eq_add_of_lt hk
      simp [Fs.pathLength, h, joinPath]
  | @child cs n m c hn hm hparent hne hname hgood ih =>
      rw [List.length_append, List.length_singleton] at hk
      obtain ⟨k, rfl⟩ := Nat.exists_eq_succ_of_ne_zero (Nat.ne_zero_of_lt hk)
      have hstay : ¬ (m = 0 ∨ n = m) := not_or.mpr ⟨hm, hne⟩
      have hlen : len + (c.length + 1) + (joinPath cs).length = len + ((joinPath cs).length + (c.length + 1)) := by omega
      simp only [Fs.pathLength, if_neg hstay, hname, hparent, ← BitVec.ofNat_add]
      rw [ih _ (by omega), joinPath_concat, List.length_append, List.length_cons, hlen]

/-- The buffer starts with the text, and goes on as `rest` does. -/
structure Holds (buf : Nat → U8) (text : CString) (rest : Nat → U8) : Prop where
  start : ∀ i < text.length, buf i = text.getD i 0
  after : ∀ i, text.length ≤ i → buf i = rest i

/-- A name with its slash is written before what is there. -/
theorem Holds.concat {buf rest : Nat → U8} {text : CString} (h : Holds buf text
    (Function.update (copyName rest (text.length + 1) c) text.length slash)) : Holds buf (text ++ slash :: c) rest := by
  constructor
  · intro i hi
    rw [List.length_append, List.length_cons] at hi
    by_cases hlt : i < text.length
    · rw [h.start i hlt, List.getD_append _ _ _ _ hlt]
    · rw [h.after i (by omega), List.getD_append_right _ _ _ _ (by omega)]
      by_cases he : i = text.length
      · rw [he, Function.update_self, Nat.sub_self]
        rfl
      · obtain ⟨j, rfl⟩ := Nat.exists_eq_add_of_lt (show text.length < i by omega)
        have hj : text.length + j + 1 - text.length = j + 1 := by omega
        have hj' : text.length + j + 1 - (text.length + 1) = j := by omega
        rw [Function.update_of_ne he, copyName, if_pos (by omega), hj, hj', List.getD_cons_succ]
  · intro i hi
    rw [List.length_append, List.length_cons] at hi
    rw [h.after i (by omega), Function.update_of_ne (by omega), copyName, if_neg (by omega)]

theorem Climbs.fillPath (h : Climbs nodes root cs n) {k : Nat} (hk : cs.length < k) (hlen : (joinPath cs).length ≤ 1000000)
    (rest : Nat → U8) : ∃ buf, fillPath nodes k n (BitVec.ofNat 64 (joinPath cs).length) rest = .ok (some buf) ∧
      Holds buf (joinPath cs) rest := by
  induction h generalizing k rest with
  | root h =>
      obtain ⟨k, rfl⟩ := Nat.exists_eq_add_of_lt hk
      refine ⟨rest, by simp [Fs.fillPath, h], ⟨by simp [joinPath], fun _ _ => rfl⟩⟩
  | @child cs n m c hn hm hparent hne hname hgood ih =>
      rw [List.length_append, List.length_singleton] at hk
      obtain ⟨k, rfl⟩ := Nat.exists_eq_succ_of_ne_zero (Nat.ne_zero_of_lt hk)
      rw [joinPath_concat, List.length_append, List.length_cons] at hlen
      have hstay : ¬ (m = 0 ∨ n = m) := not_or.mpr ⟨hm, hne⟩
      have hname' : BitVec.ofNat 64 ((joinPath cs).length + (c.length + 1)) - BitVec.ofNat 64 c.length =
          BitVec.ofNat 64 ((joinPath cs).length + 1) := by
        rw [Nat.add_comm c.length, ← Nat.add_assoc, BitVec.ofNat_add _ c.length]
        exact BitVec.add_sub_cancel _ _
      have hslash : BitVec.ofNat 64 ((joinPath cs).length + 1) - 1 = BitVec.ofNat 64 (joinPath cs).length := by
        rw [BitVec.ofNat_add]
        exact BitVec.add_sub_cancel _ _
      have hpos : (0 : U64) < BitVec.ofNat 64 ((joinPath cs).length + 1) := by
        rw [BitVec.lt_def, BitVec.toNat_ofNat, Nat.mod_eq_of_lt (by omega)]
        exact Nat.succ_pos _
      have hfew : ¬ (1000000 : U64) < BitVec.ofNat 64 (joinPath cs).length := by
        rw [BitVec.lt_def, BitVec.toNat_ofNat, Nat.mod_eq_of_lt (by omega)]
        exact Nat.not_lt.mpr (by simpa using (by omega : (joinPath cs).length ≤ 1000000))
      obtain ⟨buf, hres, hbuf⟩ := ih (show cs.length < k by omega) (by omega)
        (Function.update (copyName rest ((joinPath cs).length + 1) c) (joinPath cs).length slash)
      refine ⟨buf, ?_, by rw [joinPath_concat]; exact hbuf.concat⟩
      simp only [joinPath_concat, List.length_append, List.length_cons, Fs.fillPath, if_neg hstay, hname, hparent, hname',
        if_pos hpos, hslash, if_neg hfew, BitVec.toNat_ofNat, Nat.mod_eq_of_lt (show (joinPath cs).length + 1 < 2 ^ 64 by omega),
        Nat.mod_eq_of_lt (show (joinPath cs).length < 2 ^ 64 by omega)]
      exact hres

theorem bufferString_eq {buf : Nat → U8} {text : CString} {i fuel : Nat} (htext : ∀ j < text.length, buf (i + j) = text.getD j 0)
    (hzero : 0 ∉ text) (hend : buf (i + text.length) = 0) (hfuel : text.length < fuel) : bufferString buf fuel i = text := by
  induction text generalizing i fuel with
  | nil =>
      obtain ⟨fuel, rfl⟩ := Nat.exists_eq_succ_of_ne_zero (Nat.ne_zero_of_lt hfuel)
      exact if_pos hend
  | cons b text ih =>
      obtain ⟨fuel, rfl⟩ := Nat.exists_eq_succ_of_ne_zero (Nat.ne_zero_of_lt hfuel)
      rw [List.mem_cons, not_or] at hzero
      have hb : buf i = b := htext 0 (Nat.succ_pos _)
      have hne : buf i ≠ 0 := by
        rw [hb]
        exact Ne.symm hzero.1
      have hrest : bufferString buf fuel (i + 1) = text := by
        refine ih (fun j hj => ?_) hzero.2 ?_ (by simpa using hfuel)
        · have hstep := htext (j + 1) (by simpa using hj)
          rw [Nat.add_right_comm, Nat.add_assoc]
          exact hstep
        · rw [Nat.add_right_comm, Nat.add_assoc]
          exact hend
      rw [bufferString, if_neg hne, hrest, hb]

/-- The full path of a vnode below the root is made of the names on the way to it, when there is memory for it. -/
theorem Climbs.vfsGetFullPath {H : Type} (A : Proc.Allocator H) {s : State H} (h : Climbs s.nodes root cs n) (hne : cs ≠ [])
    (hcs : ∀ c ∈ cs, GoodName c) (hlen : cs.length ≤ 1000) :
    ∃ size p mm heap, A.kmalloc s.mm s.heap size = (p, mm, heap) ∧
      vfsGetFullPath A s n = .ok (if p = 0 then none else some (joinPath cs), { s with mm := mm, heap := heap }) := by
  have hn : n ≠ 0 ∧ (s.nodes n).parent ≠ n := by
    cases h with
    | root h => exact absurd rfl hne
    | child hn hm hparent hne' hname hgood => exact ⟨hm, by rwa [hparent]⟩
  have hlong := joinPath_length_le hcs
  have hlength : Fs.pathLength s.nodes 1001 n 0 = .ok (some (BitVec.ofNat 64 (joinPath cs).length)) := by
    have hres := h.pathLength 0 (k := 1001) (by omega)
    rwa [Nat.zero_add] at hres
  have htoNat : (BitVec.ofNat 64 (joinPath cs).length).toNat = (joinPath cs).length := by
    rw [BitVec.toNat_ofNat, Nat.mod_eq_of_lt (by omega)]
  rcases hk : A.kmalloc s.mm s.heap (BitVec.ofNat 64 (joinPath cs).length + 1) with ⟨p, mm, heap⟩
  refine ⟨_, p, mm, heap, hk, ?_⟩
  simp only [Fs.vfsGetFullPath, if_neg hn.1, if_neg hn.2, hlength, State.kmalloc, bind, Except.bind, hk]
  by_cases hp : p = 0
  · simp only [hp, ↓reduceIte]
    rfl
  · obtain ⟨buf, hfill, hbuf⟩ := h.fillPath (k := 1001) (by omega) (by omega)
      (Function.update (s.blocks p).bytes (joinPath cs).length 0)
    have htext : bufferString buf ((joinPath cs).length + 1) 0 = joinPath cs := by
      refine bufferString_eq (fun j hj => ?_) (zero_notMem_joinPath hcs) ?_ (Nat.lt_succ_self _)
      · rw [Nat.zero_add]
        exact hbuf.start j hj
      · rw [Nat.zero_add, hbuf.after _ le_rfl, Function.update_self]
    have hhead : buf 0 = slash := by
      cases cs with
      | nil => exact absurd rfl hne
      | cons c cs =>
          rw [hbuf.start 0 (by simp [joinPath_cons])]
          rfl
    simp only [if_neg hp, htoNat, hfill, htext, if_pos hhead]
    rfl

end ShadowOS.Fs
