import ShadowOS.Fs.Lemmas.Create

/-!
# Lookups in a tree of vnodes, before and after a creation
-/

namespace ShadowOS.Fs

variable {H : Type} {inUse : H → Set U64} {role : U64 → Option Role} {T : Set U64} {s s' : State H}

namespace VnodeTree

variable {nodes nodes' : U64 → Vnode} {root n m self : U64} {ps : List CString} {new : Vnode} {c path : CString}

theorem lazyNames_mem (h : VnodeTree nodes root T) (hn : n ∈ T) (hm : lazyNames nodes n ps = some m) : m ∈ T := by
  induction ps generalizing n with
  | nil =>
      cases hm
      exact hn
  | cons p ps ih =>
      simp only [lazyNames] at hm
      split at hm
      · cases hm
      · rename_i h0
        have hfound := (h.lookup hn h0).1
        split at hm
        · cases hm
          exact hfound
        · exact ih hfound hm

theorem lastWalk_mem (h : VnodeTree nodes root T) (hn : n ∈ T) (fuel : Nat) (path : CString) :
    lastWalk nodes fuel n path ∈ T := by
  induction fuel generalizing n path with
  | zero => exact hn
  | succ fuel ih =>
      simp only [lastWalk]
      split
      · exact hn
      · split
        · exact hn
        · rename_i h0
          exact ih (h.lookup hn h0).1 _

/-- What the mounts of a tree find is in the tree. -/
theorem lazyLookupFrom_mem {s : Vfs} {mount : U64} {ms : List U64} (h : VnodeTree s.nodes root T)
    (hms : Chain (fun m => (s.mounts m).next) 0 mount ms)
    (hroots : ∀ M ∈ ms, (s.mounts M).root = 0 ∨ (s.mounts M).root ∈ T) (fuel : Nat) (path : Option CString) :
    lazyLookupFrom s fuel mount path = 0 ∨ lazyLookupFrom s fuel mount path ∈ T := by
  induction fuel generalizing mount ms with
  | zero => exact .inl rfl
  | succ fuel ih =>
      cases path with
      | none => exact .inl rfl
      | some path =>
          by_cases hcond : mount = 0 ∨ path.head? ≠ some slash
          · exact .inl (by simp only [lazyLookupFrom, if_pos hcond])
          · rw [not_or, not_not] at hcond
            cases ms with
            | nil => exact absurd hms hcond.1
            | cons M ms =>
                obtain ⟨rfl, _, hnext⟩ := hms
                obtain ⟨hroot, hroots⟩ := List.forall_mem_cons.mp hroots
                by_cases h0 : (s.mounts mount).root = 0
                · exact .inl (by simp only [lazyLookupFrom, hcond, h0, ↓reduceIte, ne_eq, not_true_eq_false, or_self])
                · rw [lazyLookupFrom_succ s hcond.1 hcond.2 h0]
                  cases hfound : lazyNames s.nodes (s.mounts mount).root (pieces path) with
                  | some m => exact .inr (h.lazyNames_mem (hroot.resolve_left h0) hfound)
                  | none =>
                      by_cases hn0 : (s.mounts mount).next = 0
                      · exact .inl (by simp only [hn0, ne_eq, not_true_eq_false, ↓reduceIte])
                      · simp only [ne_eq, hn0, not_false_eq_true, ↓reduceIte]
                        exact ih hnext hroots

theorem lazyNames_congr (h : VnodeTree nodes root T) (hn : n ∈ T)
    (hlookup : ∀ m ∈ T, ∀ c ∈ ps, vfsLookup nodes' m c = vfsLookup nodes m c)
    (htype : ∀ m ∈ T, (nodes' m).type = (nodes m).type) : lazyNames nodes' n ps = lazyNames nodes n ps := by
  induction ps generalizing n with
  | nil => rfl
  | cons p ps ih =>
      simp only [lazyNames, hlookup n hn p List.mem_cons_self]
      by_cases h0 : vfsLookup nodes n p = 0
      · simp only [h0, ↓reduceIte]
      · have hfound := (h.lookup hn h0).1
        simp only [h0, ↓reduceIte, htype _ hfound, ih hfound fun m hm c hc => hlookup m hm c (List.mem_cons_of_mem p hc)]

/-- What the mounts of a tree find depends on the lookups in the tree. -/
theorem lazyLookupFrom_congr {s s' : Vfs} {mount : U64} {ms : List U64} (h : VnodeTree s.nodes root T)
    (hms : Chain (fun m => (s.mounts m).next) 0 mount ms)
    (hroots : ∀ M ∈ ms, (s.mounts M).root = 0 ∨ (s.mounts M).root ∈ T) (hmounts : s'.mounts = s.mounts)
    (hlookup : ∀ m ∈ T, ∀ c ∈ pieces path, vfsLookup s'.nodes m c = vfsLookup s.nodes m c)
    (htype : ∀ m ∈ T, (s'.nodes m).type = (s.nodes m).type) (fuel : Nat) :
    lazyLookupFrom s' fuel mount (some path) = lazyLookupFrom s fuel mount (some path) := by
  induction fuel generalizing mount ms with
  | zero => rfl
  | succ fuel ih =>
      by_cases hcond : mount = 0 ∨ path.head? ≠ some slash
      · simp only [lazyLookupFrom, if_pos hcond]
      · rw [not_or, not_not] at hcond
        cases ms with
        | nil => exact absurd hms hcond.1
        | cons M ms =>
            obtain ⟨rfl, _, hnext⟩ := hms
            obtain ⟨hroot, hroots⟩ := List.forall_mem_cons.mp hroots
            by_cases h0 : (s.mounts mount).root = 0
            · simp only [lazyLookupFrom, hmounts, h0, ↓reduceIte]
            · have h0' : (s'.mounts mount).root ≠ 0 := by rwa [hmounts]
              rw [lazyLookupFrom_succ s hcond.1 hcond.2 h0, lazyLookupFrom_succ s' hcond.1 hcond.2 h0', hmounts,
                h.lazyNames_congr (hroot.resolve_left h0) hlookup htype, ih hnext hroots]

/-- The names of directories lead to the one in which the new vnode is, and its name leads to it. -/
theorem lazyNames_link (h : VnodeTree nodes root T) (hself : self ∈ T) (hn : n ∉ T) (hn0 : n ≠ 0)
    (hnew : Unlinked new self) (hname : new.name = some c) (hm : m ∈ T) (hps : follow nodes m ps = self)
    (hc : vfsLookup nodes self c = 0)
    (hdirs : ∀ i, 0 < i → i ≤ ps.length → (nodes (follow nodes m (ps.take i))).type = vnodeDir) :
    lazyNames (linkChild (Function.update nodes n new) self n) m (ps ++ [c]) = some n := by
  induction ps generalizing m with
  | nil =>
      have hms : m = self := hps
      have hfound : vfsLookup (linkChild (Function.update nodes n new) self n) m c = n := by
        rw [h.lookup_link hself hn hn0 hnew hm, hms, if_pos ⟨rfl, hc, hname⟩]
      simp only [List.nil_append, lazyNames, hfound, hn0, ↓reduceIte, ite_self]
  | cons p ps ih =>
      have hne : follow nodes m (p :: ps) ≠ 0 := fun h0 => h.nonnull (by rw [← h0, hps]; exact hself)
      by_cases h0 : vfsLookup nodes m p = 0
      · simp only [follow, h0, ↓reduceIte, ne_eq, not_true_eq_false] at hne
      · have hfound : vfsLookup (linkChild (Function.update nodes n new) self n) m p = vfsLookup nodes m p := by
          rw [h.lookup_link hself hn hn0 hnew hm, if_neg fun hc => h0 hc.2.1]
        have hmem := (h.lookup hm h0).1
        obtain ⟨child, next, hkeep⟩ := link_old nodes new self hn hmem
        have hdir := hdirs 1 Nat.one_pos (by simp)
        simp only [List.take_succ_cons, List.take_zero, follow, h0, ↓reduceIte] at hdir
        have hdir' : (linkChild (Function.update nodes n new) self n (vfsLookup nodes m p)).type = vnodeDir := by
          rw [hkeep]
          exact hdir
        simp only [follow, h0, ↓reduceIte] at hps
        rw [List.cons_append, lazyNames, hfound, if_neg h0, if_neg (not_not.mpr hdir')]
        refine ih hmem hps fun i hi hlen => ?_
        have hstep := hdirs (i + 1) (by omega) (by simpa using hlen)
        simpa only [List.take_succ_cons, follow, h0, ↓reduceIte] using hstep

end VnodeTree

namespace FsInv

variable {self n d : U64} {new : Vnode} {path : CString}

theorem lookup_mem (h : FsInv inUse role T s) (path : Option CString) :
    vfsLazyLookup s.toVfs s.rootMount path = 0 ∨ vfsLazyLookup s.toVfs s.rootMount path ∈ T := by
  obtain ⟨later, hchain, hlater⟩ := h.mounts
  exact h.tree.lazyLookupFrom_mem hchain (List.forall_mem_cons.mpr ⟨.inr h.tree.root_mem, hlater⟩) _ _

theorem last_mem {path : CString} (h : FsInv inUse role T s) (hpath : path.head? = some slash) :
    vfsLazyLookupLast s.toVfs s.rootMount (some path) ∈ T := by
  simp only [vfsLazyLookupLast, h.rootMount, hpath, ne_eq, not_true_eq_false, or_self, ↓reduceIte, h.tree.root_ne]
  exact h.tree.lastWalk_mem h.tree.root_mem _ _

theorem lookup_congr (h : FsInv inUse role T s) (hmounts : s'.mounts = s.mounts) (hroot : s'.rootMount = s.rootMount)
    (hlookup : ∀ m ∈ T, ∀ c ∈ pieces path, vfsLookup s'.nodes m c = vfsLookup s.nodes m c)
    (htype : ∀ m ∈ T, (s'.nodes m).type = (s.nodes m).type) :
    vfsLazyLookup s'.toVfs s'.rootMount (some path) = vfsLazyLookup s.toVfs s.rootMount (some path) := by
  obtain ⟨later, hchain, hlater⟩ := h.mounts
  rw [hroot]
  exact h.tree.lazyLookupFrom_congr hchain (List.forall_mem_cons.mpr ⟨.inr h.tree.root_mem, hlater⟩) hmounts hlookup htype _

/-- A lookup does not see the times of a vnode. -/
theorem lookup_same (h : FsInv inUse role T s) (hmounts : s'.mounts = s.mounts) (hroot : s'.rootMount = s.rootMount)
    (hsame : ∀ v ∈ T, SameVnode (s'.nodes v) (s.nodes v)) (path : CString) :
    vfsLazyLookup s'.toVfs s'.rootMount (some path) = vfsLazyLookup s.toVfs s.rootMount (some path) :=
  h.lookup_congr hmounts hroot (fun _ hm c _ => h.tree.lookup_congr hm
    (fun p hp => ⟨(hsame p hp).next, (hsame p hp).child, (hsame p hp).parent⟩) (fun p hp => (hsame p hp).name) c)
    fun m hm => (hsame m hm).type

theorem notMem_created (h : FsInv inUse role T s) (hs : Created inUse s s' self n d new) : n ∉ T :=
  fun hn => hs.vnode.2 (h.mem_inUse hn)

theorem type_created (h : FsInv inUse role T s) (hs : Created inUse s s' self n d new) {v : U64} (hv : v ∈ T) :
    (s'.nodes v).type = (s.nodes v).type := by
  obtain ⟨child, next, hkeep⟩ := VnodeTree.link_old s.nodes new self (h.notMem_created hs) hv
  rw [hs.nodes, hkeep]
  rfl

/-- A path of other names is found as before. -/
theorem lookup_created_of_ne (h : FsInv inUse role T s) (hself : self ∈ T) (hs : Created inUse s s' self n d new)
    (hname : ∀ c ∈ pieces path, new.name ≠ some c) :
    vfsLazyLookup s'.toVfs s'.rootMount (some path) = vfsLazyLookup s.toVfs s.rootMount (some path) := by
  refine h.lookup_congr hs.mounts hs.rootMount (fun m hm c hc => ?_) fun m hm => h.type_created hs hm
  rw [hs.nodes, h.tree.lookup_link hself (h.notMem_created hs) hs.vnode.1 hs.unlinked hm,
    if_neg fun hc' => hname c hc hc'.2.2]

/-- The tree does not stay the same. -/
theorem not_same_created (h : FsInv inUse role T s) (hself : self ∈ T) (hs : Created inUse s s' self n d new) {c : CString}
    (hname : new.name = some c) (hc : vfsLookup s.nodes self c = 0) : ¬ ∀ v ∈ T, SameVnode (s'.nodes v) (s.nodes v) := by
  intro hsame
  have hlookup := h.tree.lookup_congr hself (fun p hp => ⟨(hsame p hp).next, (hsame p hp).child, (hsame p hp).parent⟩)
    (fun p hp => (hsame p hp).name) c
  rw [hs.nodes, h.tree.lookup_link hself (h.notMem_created hs) hs.vnode.1 hs.unlinked hself, if_pos ⟨rfl, hc, hname⟩,
    hc] at hlookup
  exact hs.vnode.1 hlookup

/-- A vnode that is created at the end of a way of directories is found there. -/
theorem lookup_created {ps : List CString} {c : CString} (h : FsInv inUse role T s) (hpath : path.head? = some slash)
    (hpieces : pieces path = ps ++ [c])
    (hdirs : ∀ i, 0 < i → i ≤ ps.length → follow s.nodes (s.mounts s.rootMount).root (ps.take i) ≠ 0 ∧
      (s.nodes (follow s.nodes (s.mounts s.rootMount).root (ps.take i))).type = vnodeDir)
    (hnone : vfsLazyLookup s.toVfs s.rootMount (some path) = 0)
    (hs : Created inUse s s' (vfsLazyLookupLast s.toVfs s.rootMount (some path)) n d new) (hname : new.name = some c) :
    vfsLazyLookup s'.toVfs s'.rootMount (some path) = n := by
  have hfuel : maxCells = (2 ^ 64 - 1) + 1 := rfl
  have hroot := h.tree.root_ne
  have hdir : follow s.nodes (s.mounts s.rootMount).root ps ≠ 0 := by
    by_cases hps : ps.length = 0
    · rw [List.eq_nil_of_length_eq_zero hps]
      exact hroot
    · simpa using (hdirs ps.length (by omega) le_rfl).1
  -- the root mount has to fail at the last name
  have hwalk : lazyNames s.nodes (s.mounts s.rootMount).root (ps ++ [c]) = none := by
    rw [vfsLazyLookup, hfuel, lazyLookupFrom_succ s.toVfs h.rootMount hpath hroot, hpieces] at hnone
    cases hfound : lazyNames s.nodes (s.mounts s.rootMount).root (ps ++ [c]) with
    | none => rfl
    | some m =>
        rw [hfound] at hnone
        exact absurd hnone (lazyNames_ne_zero hroot hfound)
  have hc : vfsLookup s.nodes (follow s.nodes (s.mounts s.rootMount).root ps) c = 0 := by
    rw [lazyNames_of_dirs hroot, follow_concat hroot, if_neg hdir] at hwalk
    · by_contra hc
      rw [if_neg hc] at hwalk
      cases hwalk
    · intro i hi hlen _
      rw [List.length_append, List.length_singleton] at hlen
      rw [List.take_append_of_le_length (by omega)]
      exact (hdirs i hi (by omega)).2
  have hlast : vfsLazyLookupLast s.toVfs s.rootMount (some path) = follow s.nodes (s.mounts s.rootMount).root ps := by
    simp only [vfsLazyLookupLast, h.rootMount, hpath, ne_eq, not_true_eq_false, or_self, ↓reduceIte, hroot]
    have hwalk : lastWalk s.nodes path.length (s.mounts s.rootMount).root path.tail =
        lastNames s.nodes (s.mounts s.rootMount).root (pieces path) := lastWalk_eq (by simp)
    rw [hwalk, hpieces, lastNames_concat hdir hc]
  have hself := h.last_mem hpath
  rw [hlast] at hs hself
  have hroot' : (s'.mounts s'.rootMount).root ≠ 0 := by
    rw [hs.mounts, hs.rootMount]
    exact hroot
  have hmount' : s'.rootMount ≠ 0 := by
    rw [hs.rootMount]
    exact h.rootMount
  rw [vfsLazyLookup, hfuel, lazyLookupFrom_succ s'.toVfs hmount' hpath hroot', hs.mounts, hs.rootMount, hs.nodes, hpieces,
    h.tree.lazyNames_link hself (h.notMem_created hs) hs.vnode.1 hs.unlinked hname h.tree.root_mem rfl hc
      fun i hi hlen => (hdirs i hi hlen).2]

end FsInv

end ShadowOS.Fs
