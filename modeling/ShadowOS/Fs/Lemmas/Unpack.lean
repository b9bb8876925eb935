import ShadowOS.Fs.Lemmas.Lookup
import ShadowOS.Fs.Lemmas.Ustar

/-!
# What an entry of an archive does to the tree
-/

namespace ShadowOS.Fs

variable {H : Type} {A : Proc.Allocator H} {inUse : H → Set U64} {role : U64 → Option Role} {T : Set U64}
  {nodes nodes' : U64 → Vnode} {root self n m p header : U64} {c : CString} {cs ps qs rest : List CString}
  {u u' : Unpacking H} {start stop : Nat}

/-! ## Names that are missing -/

theorem stuck_eq_none_iff (hn : n ≠ 0) : stuck nodes n cs = none ↔ follow nodes n cs ≠ 0 := by
  induction cs generalizing n with
  | nil => simpa [stuck, follow] using hn
  | cons c cs ih =>
      simp only [stuck, follow]
      by_cases h0 : vfsLookup nodes n c = 0
      · simp [h0]
      · simp only [h0, ↓reduceIte]
        exact ih h0

/-- The names before the missing one lead to the directory that does not have it. -/
theorem stuck_eq_some (hn : n ≠ 0) (h : stuck nodes n cs = some (p, c, rest)) :
    ∃ qs, cs = qs ++ c :: rest ∧ follow nodes n qs = p ∧ p ≠ 0 ∧ vfsLookup nodes p c = 0 := by
  induction cs generalizing n with
  | nil => cases h
  | cons d cs ih =>
      simp only [stuck] at h
      by_cases h0 : vfsLookup nodes n d = 0
      · rw [if_pos h0] at h
        cases h
        exact ⟨[], rfl, rfl, hn, h0⟩
      · rw [if_neg h0] at h
        obtain ⟨qs, rfl, hq, hp⟩ := ih h0 h
        refine ⟨d :: qs, rfl, ?_, hp⟩
        rw [follow, if_neg h0, hq]

/-! ## Paths in a tree with a new vnode -/

/-- The lookups after a vnode with a name was created in a directory. -/
structure Adds (nodes nodes' : U64 → Vnode) (T : Set U64) (dir n : U64) (name : Option CString) : Prop where
  nonnull : n ≠ 0
  old : ∀ m ∈ T, ∀ c, vfsLookup nodes' m c =
    if m = dir ∧ vfsLookup nodes m c = 0 ∧ name = some c then n else vfsLookup nodes m c
  new : ∀ c, vfsLookup nodes' n c = 0

theorem VnodeTree.follow_congr (h : VnodeTree nodes root T) (hm : m ∈ T)
    (hlookup : ∀ p ∈ T, ∀ c, vfsLookup nodes' p c = vfsLookup nodes p c) : follow nodes' m ps = follow nodes m ps := by
  induction ps generalizing m with
  | nil => rfl
  | cons c ps ih =>
      simp only [follow, hlookup m hm]
      by_cases h0 : vfsLookup nodes m c = 0
      · simp only [h0, ↓reduceIte]
      · simp only [h0, ↓reduceIte]
        exact ih (h.lookup hm h0).1

namespace Adds

variable {name : Option CString} (ha : Adds nodes nodes' T self n name) (h : VnodeTree nodes root T)
include ha h

theorem follow_of_ne (hm : m ∈ T) (hf : follow nodes m ps ≠ 0) : follow nodes' m ps = follow nodes m ps := by
  induction ps generalizing m with
  | nil => rfl
  | cons c ps ih =>
      simp only [follow] at hf ⊢
      by_cases h0 : vfsLookup nodes m c = 0
      · simp [h0] at hf
      · simp only [h0, ↓reduceIte] at hf
        simp only [ha.old m hm, h0, false_and, and_false, ↓reduceIte]
        exact ih (h.lookup hm h0).1 hf

theorem follow_new (hm : m ∈ T) (hq : follow nodes m qs = self) (hself : self ≠ 0) (hc : vfsLookup nodes self c = 0)
    (hname : name = some c) : follow nodes' m (qs ++ [c]) = n := by
  have hm0 : m ≠ 0 := fun hc => h.nonnull (hc ▸ hm)
  have hq0 : follow nodes m qs ≠ 0 := hq ▸ hself
  have hmem := h.follow_mem hm hq0
  rw [follow_concat hm0, ha.follow_of_ne h hm hq0, if_neg hq0, ha.old _ hmem, hq, if_pos ⟨rfl, hc, hname⟩]

/-- A path that leads to something new ends with the name of the new vnode, in its directory. -/
theorem follow_cases (hm : m ∈ T) (hf : follow nodes m ps = 0) (hf' : follow nodes' m ps ≠ 0) :
    ∃ qs c, ps = qs ++ [c] ∧ follow nodes m qs = self ∧ name = some c := by
  induction ps generalizing m with
  | nil => exact absurd hf hf'
  | cons c ps ih =>
      simp only [follow, ha.old m hm] at hf hf'
      by_cases hnew : m = self ∧ vfsLookup nodes m c = 0 ∧ name = some c
      · rw [if_pos hnew, if_neg ha.nonnull] at hf'
        cases ps with
        | nil => exact ⟨[], c, rfl, hnew.1, hnew.2.2⟩
        | cons d ps =>
            rw [follow, if_pos (ha.new d)] at hf'
            exact absurd rfl hf'
      · simp only [hnew, ↓reduceIte] at hf'
        by_cases h0 : vfsLookup nodes m c = 0
        · simp [h0] at hf'
        · simp only [h0, ↓reduceIte] at hf hf'
          obtain ⟨qs, d, rfl, hq, hd⟩ := ih (h.lookup hm h0).1 hf hf'
          refine ⟨c :: qs, d, rfl, ?_, hd⟩
          rw [follow, if_neg h0, hq]

end Adds

/-- A change of a vnode that leaves its place in the tree. -/
structure KeepsPlace (f : Vnode → Vnode) : Prop where
  links : ∀ v, (f v).next = v.next ∧ (f v).child = v.child ∧ (f v).parent = v.parent
  name : ∀ v, (f v).name = v.name
  type : ∀ v, (f v).type = v.type

/-- The new vnode is found in its directory, whatever its other fields are set to. -/
theorem Created.adds {s s' : State H} {d : U64} {new : Vnode} {f : Vnode → Vnode} (hs : Created inUse s s' self n d new)
    (h : FsInv inUse role T s) (hself : self ∈ T) (hf : KeepsPlace f) :
    Adds s.nodes (Function.update s'.nodes n (f (s'.nodes n))) T self n new.name ∧
      (Function.update s'.nodes n (f (s'.nodes n)) n).type = new.type := by
  have hn := h.notMem_created hs
  have hnew : s'.nodes n = new := by
    rw [hs.nodes]
    exact h.tree.link_new hself hn hs.unlinked
  have hlookup : ∀ m ∈ insert n T, ∀ c, vfsLookup (Function.update s'.nodes n (f (s'.nodes n))) m c = vfsLookup s'.nodes m c := by
    have hfield : ∀ {α : Type} (g : Vnode → α), (∀ v, g (f v) = g v) → ∀ p,
        g (Function.update s'.nodes n (f (s'.nodes n)) p) = g (s'.nodes p) := by
      intro α g hg p
      by_cases hp : p = n
      · rw [hp, Function.update_self, hg]
      · rw [Function.update_of_ne hp]
    exact fun m hm c => (h.created hself hs).tree.lookup_congr hm (fun p _ => ⟨hfield _ (fun v => (hf.links v).1) p,
      hfield _ (fun v => (hf.links v).2.1) p, hfield _ (fun v => (hf.links v).2.2) p⟩) (fun p _ => hfield _ hf.name p) c
  refine ⟨⟨hs.vnode.1, fun m hm c => ?_, fun c => ?_⟩, ?_⟩
  · rw [hlookup m (.inr hm), hs.nodes]
    exact h.tree.lookup_link hself hn hs.vnode.1 hs.unlinked hm c
  · rw [hlookup n (.inl rfl), hs.nodes]
    exact h.tree.lookup_link_new hself hn hs.unlinked c
  · rw [Function.update_self, hf.type, hnew]

/-! ## The loop over the components -/

theorem Unpacking.strtok_eq {str t last : U64} {mem : Mem} (h : ShadowOS.strtok u.archive u.last str [slash] = (t, mem, last)) :
    u.strtok str = (t, { u with archive := mem, last := last }) := by
  simp only [Unpacking.strtok, h]

theorem Unpacking.string_token (h : TokenAt u.archive start stop p c) (hstop : stop < 2 ^ 64) : u.string p = c := by
  have hlen := h.stop
  exact h.string.readString (by rw [maxBytes]; omega)

/-- The walk follows the names that are there. It comes to the end of the path, or to the first name that is missing. -/
theorem ustarWalk_reach (A : Proc.Allocator H) (header : U64) (dir : Bool) {fuel : Nat} {token : U64}
    (h : Pending u.archive start stop token u.last cs) (hstop : stop < 2 ^ 64) (hn : n ≠ 0) (hfuel : cs.length < fuel) :
    (stuck u.fs.nodes n cs = none → ∃ u', ustarWalk A header dir fuel u n token = .ok (u', follow u.fs.nodes n cs, 0) ∧
      u'.fs = u.fs ∧ Left u'.archive start stop u'.last [] ∧ SameOutside start stop u.archive u'.archive) ∧
    ∀ p c rest, stuck u.fs.nodes n cs = some (p, c, rest) → ∃ u' t fuel', rest.length < fuel' ∧
      ustarWalk A header dir fuel u n token = ustarWalk A header dir (fuel' + 1) u' p t ∧ u'.fs = u.fs ∧
      Pending u'.archive start stop t u'.last (c :: rest) ∧ SameOutside start stop u.archive u'.archive := by
  induction cs generalizing u n token fuel with
  | nil =>
      obtain ⟨rfl, hleft⟩ := h
      obtain ⟨fuel, rfl⟩ := Nat.exists_eq_add_one_of_ne_zero (Nat.ne_of_gt hfuel)
      refine ⟨fun _ => ⟨u, ?_, rfl, hleft, .refl _ _ _⟩, fun p c rest hs => ?_⟩
      · simp only [ustarWalk, follow, ↓reduceIte]
      · cases hs
  | cons d cs ih =>
      obtain ⟨fuel, rfl⟩ := Nat.exists_eq_add_one_of_ne_zero (Nat.ne_of_gt (Nat.lt_of_le_of_lt (Nat.zero_le _) hfuel))
      obtain ⟨htok, hleft⟩ := h
      simp only [stuck, follow]
      by_cases h0 : vfsLookup u.fs.nodes n d = 0
      · simp only [h0, ↓reduceIte]
        refine ⟨fun hs => absurd hs (Option.some_ne_none _), fun p c rest hs => ?_⟩
        cases hs
        exact ⟨u, token, fuel, Nat.lt_of_succ_lt_succ hfuel, rfl, rfl, ⟨htok, hleft⟩, .refl _ _ _⟩
      · simp only [h0, ↓reduceIte]
        obtain ⟨t, mem, last, hres, hpend, hsame⟩ := hleft.strtok hstop
        have hstep : ustarWalk A header dir (fuel + 1) u n token =
            ustarWalk A header dir fuel { u with archive := mem, last := last } (vfsLookup u.fs.nodes n d) t := by
          simp only [ustarWalk, htok.nonnull, hn, ↓reduceIte, Unpacking.string_token htok hstop, ne_eq, h0, not_false_eq_true,
            Unpacking.strtok_eq hres]
        rw [hstep]
        obtain ⟨hfound, hmissing⟩ := ih (u := { u with archive := mem, last := last }) hpend h0 (Nat.lt_of_succ_lt_succ hfuel)
        refine ⟨fun hs => ?_, fun p c rest hs => ?_⟩
        · obtain ⟨u', hu', hfs, hl, hs'⟩ := hfound hs
          exact ⟨u', hu', hfs, hl, hsame.trans hs'⟩
        · obtain ⟨u', t', fuel', hf, hu', hfs, hp, hs'⟩ := hmissing p c rest hs
          exact ⟨u', t', fuel', hf, hu', hfs, hp, hsame.trans hs'⟩

theorem NameFits.ends (h : NameFits u header) : NameEnds u header := by
  have hshort := h.short
  have hinside := h.inside
  exact ⟨h.nonnull, by omega⟩

theorem NameEnds.string (h : NameEnds u header) : StringAt u.archive header (u.string header) := by
  have hstop := h.stop
  refine stringAt_readString ?_
  rw [Unpacking.string] at hstop
  rw [maxBytes] at hstop ⊢
  omega

/-- The name is the string at the header, without a "./" at its start. -/
theorem NameEnds.name (h : NameEnds u header) : StringAt u.archive (u.name header) (withoutDot (u.string header)) ∧
    u.name header ≠ 0 ∧ header.toNat ≤ (u.name header).toNat ∧
    (u.name header).toNat + (withoutDot (u.string header)).length = header.toNat + (u.string header).length := by
  have hstop := h.stop
  have hstring := h.string
  have h2 : header + 1 + 1 = header + 2 := by
    rw [BitVec.add_assoc]
    rfl
  unfold Unpacking.name withoutDot
  rcases hs : u.string header with _ | ⟨a, _ | ⟨b, s⟩⟩
  · rw [hs] at hstring
    change u.archive header = 0 at hstring
    have hne : ¬ (u.archive header = 46 ∧ u.archive (header + 1) = slash) := by
      rw [hstring]
      exact fun hc => absurd hc.1 (by decide)
    rw [if_neg hne]
    exact ⟨hstring, h.nonnull, le_rfl, rfl⟩
  · rw [hs] at hstring
    obtain ⟨ha, ha0, hstring'⟩ := hstring
    change u.archive (header + 1) = 0 at hstring'
    have hne : ¬ (u.archive header = 46 ∧ u.archive (header + 1) = slash) := by
      rw [hstring']
      exact fun hc => absurd hc.2 (by decide)
    rw [if_neg hne, if_neg (by simp)]
    exact ⟨⟨ha, ha0, hstring'⟩, h.nonnull, le_rfl, rfl⟩
  · rw [hs] at hstring hstop
    obtain ⟨ha, ha0, hb, hb0, ht⟩ := hstring
    rw [ha, hb]
    by_cases hdot : a = 46 ∧ b = slash
    · have hdot' : (a :: b :: s).take 2 = [46, slash] := by
        rw [hdot.1, hdot.2]
        rfl
      rw [if_pos hdot, if_pos hdot']
      simp only [List.length_cons, List.drop_succ_cons, List.drop_zero] at hstop ⊢
      have hnat : (header + 2).toNat = header.toNat + 2 := by
        rw [BitVec.toNat_add]
        change (header.toNat + 2) % 2 ^ 64 = _
        omega
      refine ⟨h2 ▸ ht, fun hc => ?_, by omega, by omega⟩
      rw [hc] at hnat
      change 0 = _ at hnat
      omega
    · have hdot' : ¬ (a :: b :: s).take 2 = [46, slash] := by
        intro hc
        simp only [List.take_succ_cons, List.take_zero, List.cons.injEq, and_true] at hc
        exact hdot hc
      rw [if_neg hdot, if_neg hdot']
      exact ⟨⟨ha, ha0, hb, hb0, ht⟩, h.nonnull, le_rfl, rfl⟩

theorem NameEnds.string_name (h : NameEnds u header) : u.string (u.name header) = withoutDot (u.string header) := by
  obtain ⟨hs, _, hlow, hhigh⟩ := h.name
  have hstop := h.stop
  exact hs.readString (by rw [maxBytes]; omega)

/-- The first call of `strtok`. -/
theorem NameEnds.strtok (h : NameEnds u header) (hpath : u.path header ≠ []) :
    ∃ u₁ t, u.strtok (u.name header) = (t, u₁) ∧ u₁.fs = u.fs ∧
      Pending u₁.archive header.toNat (header.toNat + (u.string header).length) t u₁.last (u.path header) ∧
      SameOutside header.toNat (header.toNat + (u.string header).length) u.archive u₁.archive := by
  obtain ⟨hs, h0, hlow, hhigh⟩ := h.name
  have hstop := h.stop
  obtain ⟨c, cs, hc⟩ := List.exists_cons_of_ne_nil hpath
  rw [hc]
  rw [Unpacking.path, h.string_name] at hc
  obtain ⟨t, mem, last, hres, htok, hleft, hsame⟩ := strtok_cons u.last hs h0 (by omega) hc
  rw [hhigh] at htok hleft hsame
  exact ⟨_, t, u.strtok_eq hres, rfl, ⟨htok.mono hlow le_rfl, hleft.mono hlow⟩, hsame.mono hlow le_rfl⟩

/-- The bytes of the name of an entry. -/
def Unpacking.SameBytes (header : U64) (u u' : Unpacking H) : Prop :=
  SameOutside header.toNat (header.toNat + (u.string header).length) u.archive u'.archive

section Entry

variable (hends : NameEnds u header) (hpath : u.path header ≠ []) (hdot : u.string (u.name header) ≠ [46])
include hends hpath hdot

/-- An entry starts with a walk over its components. -/
theorem ustarEntry_walk (A : Proc.Allocator H) (root : U64) : ∃ u₁ t, u₁.fs = u.fs ∧
    Pending u₁.archive header.toNat (header.toNat + (u.string header).length) t u₁.last (u.path header) ∧
    u.SameBytes header u₁ ∧ (u.path header).length < maxBytes ∧
    ustarEntry A root u header = (do
      let (u₂, parent, token) ← ustarWalk A header (u.dir header) maxBytes u₁ root t
      if u.dir header then .ok u₂
      else
        let (filename, u₃) := u₂.strtok token
        if filename ≠ 0 ∧ u₃.string filename ≠ [] then ustarFile A u₃ header parent (u₃.string filename) (u.fileSize header)
        else .ok u₃) := by
  obtain ⟨u₁, t, hfirst, hfs, hpend, hsame⟩ := hends.strtok hpath
  have hne : u.string (u.name header) ≠ [] := by
    intro hc
    rw [Unpacking.path, hc] at hpath
    exact hpath tokens_nil
  refine ⟨u₁, t, hfs, hpend, hsame, ?_, ?_⟩
  · obtain ⟨_, _, _, hlen⟩ := hends.name
    have hle := length_tokens_le (withoutDot (u.string header))
    have hstop := hends.stop
    rw [Unpacking.path, hends.string_name, maxBytes]
    omega
  · simp only [ustarEntry, hne, hdot, or_self, ↓reduceIte, hfirst]

variable (hroot : root ≠ 0)
include hroot

/-- With every component there, nothing is created. -/
theorem ustarEntry_found (A : Proc.Allocator H) (h : stuck u.fs.nodes root (u.path header) = none) :
    ∃ u', ustarEntry A root u header = .ok u' ∧ u'.fs = u.fs ∧ u.SameBytes header u' := by
  obtain ⟨u₁, t, hfs, hpend, hsame, hfuel, hentry⟩ := ustarEntry_walk hends hpath hdot A root
  have hstop := hends.stop
  rw [← hfs] at h
  obtain ⟨u₂, hwalk, hfs₂, hleft, hsame₂⟩ := (ustarWalk_reach A header (u.dir header) hpend hstop hroot hfuel).1 h
  rw [hentry, hwalk]
  by_cases hdir : u.dir header = true
  · exact ⟨u₂, if_pos hdir, hfs₂.trans hfs, hsame.trans hsame₂⟩
  · obtain ⟨t', mem, last, hres, ⟨rfl, _⟩, hsame₃⟩ := hleft.strtok hstop
    refine ⟨{ u₂ with archive := mem, last := last }, ?_, hfs₂.trans hfs, (hsame.trans hsame₂).trans hsame₃⟩
    simp only [bind, Except.bind, hdir, ↓reduceIte, Unpacking.strtok_eq hres, ne_eq, not_true_eq_false, false_and,
      Bool.false_eq_true]

variable (hstuck : stuck u.fs.nodes root (u.path header) = some (p, c, rest))
include hstuck

/-- A directory is created for the first component that is missing. After that the walk goes on below the null pointer, if
there are more components. -/
theorem ustarEntry_dir (A : Proc.Allocator H) (hdir : u.dir header = true) : ∃ u₁, u₁.fs = u.fs ∧ u.SameBytes header u₁ ∧
    (∀ why, ustarDir A u₁ header p c = .error why → ustarEntry A root u header = .error why) ∧
    ∀ u₂, ustarDir A u₁ header p c = .ok u₂ →
      (rest = [] → ∃ u', ustarEntry A root u header = .ok u' ∧ u'.fs = u₂.fs ∧ u.SameBytes header u') ∧
      (rest ≠ [] → ustarEntry A root u header = .error (.stop .null)) := by
  obtain ⟨u₁, t, hfs, hpend, hsame, hfuel, hentry⟩ := ustarEntry_walk hends hpath hdot A root
  have hstop := hends.stop
  rw [← hfs] at hstuck
  obtain ⟨u₂, t', fuel, hfuel', hwalk, hfs₂, ⟨htok, hleft⟩, hsame₂⟩ :=
    (ustarWalk_reach A header (u.dir header) hpend hstop hroot hfuel).2 p c rest hstuck
  obtain ⟨_, _, _, hp, hmissing⟩ := stuck_eq_some hroot hstuck
  rw [← hfs₂] at hmissing
  have hstep : ustarWalk A header true (fuel + 1) u₂ p t' = (do
      let u ← ustarDir A u₂ header p c
      ustarWalk A header true fuel (u.strtok 0).2 0 (u.strtok 0).1) := by
    simp only [ustarWalk, htok.nonnull, hp, ↓reduceIte, Unpacking.string_token htok hstop, hmissing, ne_eq, not_true_eq_false]
  rw [hentry, hwalk, hdir, hstep]
  refine ⟨u₂, hfs₂.trans hfs, hsame.trans hsame₂, fun why hwhy => ?_, fun u₃ hu₃ => ?_⟩
  · rw [hwhy]
    rfl
  · rw [hu₃]
    obtain ⟨harch, hlast⟩ := ustarDir_keeps hu₃
    rw [← harch, ← hlast] at hleft
    obtain ⟨t'', mem, last, hres, hpend₃, hsame₃⟩ := hleft.strtok hstop
    rw [harch] at hsame₃
    have hnext : ((Except.ok u₃ : Except (Leave H) (Unpacking H)) >>= fun u =>
        ustarWalk A header true fuel (u.strtok 0).2 0 (u.strtok 0).1) =
          ustarWalk A header true fuel { u₃ with archive := mem, last := last } 0 t'' := by
      change ustarWalk A header true fuel (u₃.strtok 0).2 0 (u₃.strtok 0).1 = _
      rw [Unpacking.strtok_eq hres]
    rw [hnext]
    obtain ⟨fuel, rfl⟩ := Nat.exists_eq_add_one_of_ne_zero (Nat.ne_of_gt (Nat.lt_of_le_of_lt (Nat.zero_le _) hfuel'))
    refine ⟨fun hrest => ?_, fun hrest => ?_⟩
    · subst hrest
      obtain ⟨rfl, _⟩ := hpend₃
      exact ⟨_, rfl, rfl, (hsame.trans hsame₂).trans hsame₃⟩
    · obtain ⟨d, ds, rfl⟩ := List.exists_cons_of_ne_nil hrest
      have ht := hpend₃.1.nonnull
      simp only [ustarWalk, ht, ↓reduceIte]
      rfl

/-- A file is created for the first component that is missing. -/
theorem ustarEntry_file (A : Proc.Allocator H) (hdir : u.dir header = false) : ∃ u₁, u₁.fs = u.fs ∧ u.SameBytes header u₁ ∧
    ustarEntry A root u header = ustarFile A u₁ header p c (u.fileSize header) := by
  obtain ⟨u₁, t, hfs, hpend, hsame, hfuel, hentry⟩ := ustarEntry_walk hends hpath hdot A root
  have hstop := hends.stop
  rw [← hfs] at hstuck
  obtain ⟨u₂, t', fuel, hfuel', hwalk, hfs₂, ⟨htok, hleft⟩, hsame₂⟩ :=
    (ustarWalk_reach A header (u.dir header) hpend hstop hroot hfuel).2 p c rest hstuck
  obtain ⟨_, _, _, hp, hmissing⟩ := stuck_eq_some hroot hstuck
  rw [← hfs₂] at hmissing
  have hstep : ustarWalk A header false (fuel + 1) u₂ p t' = .ok (u₂, p, t') := by
    simp only [ustarWalk, htok.nonnull, hp, ↓reduceIte, Unpacking.string_token htok hstop, hmissing, ne_eq, not_true_eq_false,
      Bool.false_eq_true]
  obtain ⟨t'', mem, last, hres, htok₃, hsame₃⟩ := htok.strtok u₂.last hstop
  have hname : (⟨u₂.fs, mem, last⟩ : Unpacking H).string t'' = c := Unpacking.string_token htok₃ hstop
  refine ⟨⟨u₂.fs, mem, last⟩, hfs₂.trans hfs, (hsame.trans hsame₂).trans hsame₃, ?_⟩
  rw [hentry, hwalk, hdir, hstep]
  simp only [bind, Except.bind, Bool.false_eq_true, ↓reduceIte, Unpacking.strtok_eq hres, hname, ne_eq, htok₃.nonnull,
    htok₃.ne_nil, not_false_eq_true, and_self]

end Entry

/-! ## New directories and files -/

/-- The fields that an entry sets in a new directory. -/
def Unpacking.dirNode (u : Unpacking H) (header : U64) (node : Vnode) : Vnode :=
  { node with ops := some .ramfs, mode := u.mode header, creationTime := u.mtime header }

/-- The fields that an entry sets in a new file. -/
def Unpacking.fileNode (u : Unpacking H) (header : U64) (fileSize : U32) (data : U64) (node : Vnode) : Vnode :=
  { u.dirNode header node with data := data, size := fileSize.setWidth 64 }

theorem Unpacking.dirNode_keepsPlace (u : Unpacking H) (header : U64) : KeepsPlace (u.dirNode header) :=
  ⟨fun _ => ⟨rfl, rfl, rfl⟩, fun _ => rfl, fun _ => rfl⟩

theorem Unpacking.fileNode_keepsPlace (u : Unpacking H) (header : U64) (fileSize : U32) (data : U64) :
    KeepsPlace (u.fileNode header fileSize data) := ⟨fun _ => ⟨rfl, rfl, rfl⟩, fun _ => rfl, fun _ => rfl⟩

/-- A file gets its bytes. -/
def Unpacking.fill (u : Unpacking H) (header : U64) (fileSize : U32) (file data bytes : U64) (fs : State H) : State H :=
  { fs with
    blocks := Function.update fs.blocks bytes
      (copyTo (fs.blocks bytes) 0 (fun i => u.archive (header + 512 + BitVec.ofNat 64 i)) fileSize.toNat)
    ramfs := Function.update fs.ramfs data ⟨bytes, fileSize.setWidth 64⟩
    records := Function.update fs.records data (some .ramfsData)
    nodes := Function.update fs.nodes file (u.fileNode header fileSize data (fs.nodes file)) }

/-- What a request for memory gives: a block that was not in use, or null. -/
structure Requested (inUse : H → Set U64) (s s' : State H) (p : U64) : Prop where
  heap : inUse s.heap ⊆ inUse s'.heap
  block : p ≠ 0 → p ∉ inUse s.heap ∧ p ∈ inUse s'.heap

theorem kmalloc_requested {s s' : State H} {k : U64} (hA : Proc.AllocatorSpec A inUse) (hk : s.kmalloc A k = (p, s')) :
    s'.toVfs = s.toVfs ∧ Requested inUse s s' p := by
  simp only [State.kmalloc] at hk
  obtain ⟨rfl, rfl⟩ := Prod.mk.inj hk
  exact ⟨rfl, hA.kept_of rfl, hA.fresh_of rfl⟩

theorem kmallocBlock_requested {s s' : State H} {k : U64} (hA : Proc.AllocatorSpec A inUse)
    (hk : s.kmallocBlock A k = (p, s')) : Requested inUse s s' p := by
  rcases hk' : s.kmalloc A k with ⟨q, s₁⟩
  obtain ⟨_, hreq⟩ := kmalloc_requested hA hk'
  simp only [State.kmallocBlock, hk'] at hk
  obtain ⟨rfl, rfl⟩ := Prod.mk.inj hk
  split
  · exact hreq
  · exact ⟨hreq.heap, hreq.block⟩

theorem kmallocBlock_nodes {s s' : State H} {k : U64} (hk : s.kmallocBlock A k = (p, s')) :
    s'.nodes = s.nodes ∧ s'.ramfs = s.ramfs ∧ s'.mounts = s.mounts ∧ s'.rootMount = s.rootMount := by
  rcases kmallocBlock_cases hk with ⟨_, hs⟩ | ⟨_, hs⟩
  · rw [hs]
    exact ⟨rfl, rfl, rfl, rfl⟩
  · rw [hs]
    exact ⟨rfl, rfl, rfl, rfl⟩

theorem kmallocBlock_records {s s' : State H} {k : U64} (hk : s.kmallocBlock A k = (p, s')) :
    s'.records = s.records ∧ s'.devfsRoot = s.devfsRoot := by
  rcases kmallocBlock_cases hk with ⟨_, hs⟩ | ⟨_, hs⟩
  · rw [hs]
    exact ⟨rfl, rfl⟩
  · rw [hs]
    exact ⟨rfl, rfl⟩

section Create

variable (hA : Proc.AllocatorSpec A inUse) (h : FsInv inUse role T u.fs) (hp : p ∈ T)
include hA h hp

theorem FsInv.createVnode (c : CString) (type : U32) :
    (∃ fs', vfsCreateVnode A u.fs p c type = .ok (0, fs') ∧ Untouched inUse u.fs fs' ∧
      ¬ (CanCreate u.fs.nodes p c ∧ Memory A u.fs c)) ∨
    ∃ fs' n d new, vfsCreateVnode A u.fs p c type = .ok (n, fs') ∧ Created inUse u.fs fs' p n d new ∧
      CanCreate u.fs.nodes p c ∧ new.type = type ∧ new.name = if Memory A u.fs c then some c else none := by
  obtain ⟨n, fs', hres, ⟨rfl, hsame, hno, _⟩ | ⟨d, new, hs, hcan, htype, _, hname, _⟩⟩ :=
    vfsCreateVnode_cases c type hA (h.ne_zero hp) (h.mem_inUse hp) (h.unlocked p hp) (h.dirs p hp)
  · exact .inl ⟨fs', hres, hsame, fun hc => hno hc.2 hc.1⟩
  · exact .inr ⟨fs', n, d, new, hres, hs, hcan, htype, hname⟩

theorem FsInv.ustarDir_cases (header : U64) (c : CString) :
    (∃ fs', ustarDir A u header p c = .error (.ret fs') ∧ Untouched inUse u.fs fs' ∧
      ¬ (CanCreate u.fs.nodes p c ∧ Memory A u.fs c)) ∨
    ∃ fs' n d new, ustarDir A u header p c =
        .ok { u with fs := fs'.setNode n (u.dirNode header (fs'.nodes n)) } ∧ Created inUse u.fs fs' p n d new ∧
      CanCreate u.fs.nodes p c ∧ new.type = vnodeDir ∧ new.name = if Memory A u.fs c then some c else none := by
  rcases h.createVnode hA hp c vnodeDir with ⟨fs', hres, hrest⟩ | ⟨fs', n, d, new, hres, hs, hrest⟩
  · refine .inl ⟨fs', ?_, hrest⟩
    simp only [ustarDir, hres, ↓reduceIte]
  · refine .inr ⟨fs', n, d, new, ?_, hs, hrest⟩
    simp only [ustarDir, hres, hs.vnode.1, ↓reduceIte]
    rfl

theorem FsInv.ustarFile_cases (header : U64) (c : CString) (fileSize : U32) :
    (∃ fs', ustarFile A u header p c fileSize = .error (.ret fs') ∧ Untouched inUse u.fs fs' ∧
      ¬ (CanCreate u.fs.nodes p c ∧ Memory A u.fs c)) ∨
    ∃ fs' n d new, Created inUse u.fs fs' p n d new ∧ CanCreate u.fs.nodes p c ∧ new.type = vnodeFile ∧
      new.name = (if Memory A u.fs c then some c else none) ∧
      ((∃ fs'', ustarFile A u header p c fileSize = .error (.ret fs'') ∧ SameVfs inUse fs' fs'') ∨
        ∃ data fs₁ bytes fs₂, fs'.kmalloc A ramfsDataSize = (data, fs₁) ∧ data ≠ 0 ∧
          fs₁.kmallocBlock A (fileSize.setWidth 64) = (bytes, fs₂) ∧ bytes ≠ 0 ∧
          ustarFile A u header p c fileSize = .ok { u with fs := u.fill header fileSize n data bytes fs₂ }) := by
  rcases h.createVnode hA hp c vnodeFile with ⟨fs', hres, hrest⟩ | ⟨fs', n, d, new, hres, hs, hcan, htype, hname⟩
  · refine .inl ⟨fs', ?_, hrest⟩
    simp only [ustarFile, hres, ↓reduceIte]
  · refine .inr ⟨fs', n, d, new, hs, hcan, htype, hname, ?_⟩
    rcases hk₁ : fs'.kmalloc A ramfsDataSize with ⟨data, fs₁⟩
    rcases hk₂ : fs₁.kmallocBlock A (fileSize.setWidth 64) with ⟨bytes, fs₂⟩
    obtain ⟨hvfs₁, hreq₁⟩ := kmalloc_requested hA hk₁
    have hreq₂ := kmallocBlock_requested hA hk₂
    simp only [ustarFile, hres, hs.vnode.1, ↓reduceIte, hk₁]
    by_cases hd : data = 0
    · exact .inl ⟨fs₁, if_pos hd, hvfs₁, hreq₁.heap⟩
    · simp only [hd, ↓reduceIte, hk₂]
      by_cases hb : bytes = 0
      · have hvfs₂ : fs₂.toVfs = fs₁.toVfs := (kmallocBlock_cases hk₂).elim And.right fun hc => absurd hb hc.1
        refine .inl ⟨fs₂.kfree A data, if_pos hb, hvfs₂.trans hvfs₁, fun q hq => ?_⟩
        exact hA.freed _ _ _ ⟨hreq₂.heap (hreq₁.heap hq), fun hc => (hreq₁.block hd).1 (hc ▸ hq)⟩
      · refine .inr ⟨data, fs₁, bytes, fs₂, rfl, hd, hk₂, hb, ?_⟩
        rw [if_neg hb]
        rfl

end Create

/-! ## The invariant over an archive -/

namespace FsInv

variable {s s' : State H} {d b : U64}

/-- A new directory is a vnode of the tree. -/
theorem dirNode (h : FsInv inUse role T s) (hn : n ∈ T) (hops : (s.nodes n).ops = some .ramfs) (u : Unpacking H) (header : U64) :
    FsInv inUse role T (s.setNode n (u.dirNode header (s.nodes n))) := by
  refine h.congr (fun v _ => ?_) (fun _ _ _ _ => rfl) rfl rfl h.used
  by_cases hv : v = n
  · subst hv
    simp only [State.setNode, Function.update_self]
    exact ⟨rfl, rfl, rfl, rfl, rfl, rfl, rfl, hops.symm, rfl⟩
  · simp only [State.setNode, Function.update_of_ne hv]
    exact .refl _

/-- A file may get other data, in blocks that were not in use. -/
theorem fill (h : FsInv inUse role T s) (hn : n ∈ T) (hd : d ∉ inUse s.heap) (hb : b ∉ inUse s.heap) (hdb : d ≠ b)
    (hheap : insert d (insert b (inUse s.heap)) ⊆ inUse s'.heap) (u : Unpacking H) (header : U64) (fileSize : U32)
    (hnodes : s'.nodes = s.nodes) (hramfs : s'.ramfs = s.ramfs) (hmounts : s'.mounts = s.mounts)
    (hroot : s'.rootMount = s.rootMount) :
    FsInv inUse (Function.update (Function.update role d (some (.data n))) b (some (.bytes d))) T
      (u.fill header fileSize n d b s') := by
  have hrole : ∀ p r, role p = some r →
      Function.update (Function.update role d (some (.data n))) b (some (.bytes d)) p = some r := by
    intro p r hp
    have hpu : p ∈ inUse s.heap := h.used p (by rw [hp]; simp)
    have hpd : p ≠ d := fun hc => hd (hc ▸ hpu)
    have hpb : p ≠ b := fun hc => hb (hc ▸ hpu)
    rw [Function.update_of_ne hpb, Function.update_of_ne hpd, hp]
  -- a vnode of the tree is the file, or is as it was
  have hnode : ∀ v, (u.fill header fileSize n d b s').nodes v =
      if v = n then u.fileNode header fileSize d (s.nodes n) else s.nodes v := by
    intro v
    simp only [Unpacking.fill, hnodes, Function.update_apply]
  have hlinks : ∀ v, ((u.fill header fileSize n d b s').nodes v).next = (s.nodes v).next ∧
      ((u.fill header fileSize n d b s').nodes v).child = (s.nodes v).child ∧
      ((u.fill header fileSize n d b s').nodes v).parent = (s.nodes v).parent := by
    intro v
    rw [hnode]
    split
    · rename_i hv
      subst hv
      exact ⟨rfl, rfl, rfl⟩
    · exact ⟨rfl, rfl, rfl⟩
  have hdata : ∀ v ∈ T, v ≠ n → (s.nodes v).ops = some .ramfs → (s.nodes v).data ≠ 0 → (s.nodes v).data ≠ d :=
    fun v hv _ hops h0 hc => hd (hc ▸ h.data_inUse hv hops h0)
  refine ⟨?_, ?_, ?_, ?_, fun v hv => ?_, fun v hv => ?_, fun v hv => ?_, fun v hv => ?_, fun v hv => ?_, fun v hv => ?_,
    fun p hp => hheap ?_⟩
  · change VnodeTree _ (s'.mounts s'.rootMount).root T
    rw [hmounts, hroot]
    exact h.tree.congr fun p _ => hlinks p
  · change s'.rootMount ≠ 0
    rw [hroot]
    exact h.rootMount
  · change ((u.fill header fileSize n d b s').nodes (s'.mounts s'.rootMount).root).mount = s'.rootMount
    rw [hmounts, hroot, hnode]
    split
    · rename_i hv
      rw [← h.mount, ← hv]
      rfl
    · exact h.mount
  · change ∃ later, Chain (fun m => (s'.mounts m).next) 0 s'.rootMount (s'.rootMount :: later) ∧
      ∀ M ∈ later, (s'.mounts M).root = 0 ∨ (s'.mounts M).root ∈ T
    rw [hmounts, hroot]
    exact h.mounts
  · rw [hnode]
    split
    · exact h.unlocked n hn
    · exact h.unlocked v hv
  · rw [hnode]
    split
    · exact fun _ => by simp [Unpacking.fileNode, Unpacking.dirNode]
    · exact h.dirs v hv
  · rw [hnode]
    split
    · exact fun hc => by simp [Unpacking.fileNode, Unpacking.dirNode] at hc
    · exact h.devs v hv
  · exact hrole v _ (h.vnodes v hv)
  · rw [hnode]
    split
    · rename_i hv'
      subst hv'
      intro _ _
      change Function.update _ b _ d = _
      rw [Function.update_of_ne hdb, Function.update_self]
    · exact fun hops h0 => hrole _ _ (h.data v hv hops h0)
  · rw [hnode]
    simp only [Unpacking.fill, hramfs]
    split
    · intro _ _ _
      simp only [Unpacking.fileNode, Function.update_self]
    · rename_i hvn
      intro hops h0
      rw [Function.update_of_ne (hdata v hv hvn hops h0)]
      exact fun hb' => hrole _ _ (h.bytes v hv hops h0 hb')
  · by_cases hpb : p = b
    · exact .inr (.inl hpb)
    · by_cases hpd : p = d
      · exact .inl hpd
      · rw [Function.update_of_ne hpb, Function.update_of_ne hpd] at hp
        exact .inr (.inr (h.used p hp))

/-- The mounts are those of before, and the vnodes of the tree are still in it. -/
structure Extends (inUse : H → Set U64) (T : Set U64) (s s' : State H) (role' : U64 → Option Role) (T' : Set U64) : Prop where
  inv : FsInv inUse role' T' s'
  subset : T ⊆ T'
  mounts : s'.mounts = s.mounts
  rootMount : s'.rootMount = s.rootMount

end FsInv

/-- Where the unpacking goes on or returns, the invariant holds of a tree that has the vnodes of `T`. -/
def Keeps (I : State H → Set U64 → Prop) (T : Set U64) : Except (Leave H) (Unpacking H) → Prop
  | .ok u => ∃ T', T ⊆ T' ∧ I u.fs T'
  | .error (.ret fs) => ∃ T', T ⊆ T' ∧ I fs T'
  | .error (.stop _) => True

/-- What an invariant needs to hold over whole archives: lookups stay in the tree, and new directories and files keep it. -/
structure OverArchives (A : Proc.Allocator H) (I : State H → Set U64 → Prop) : Prop where
  lookup : ∀ {s T p c}, I s T → p ∈ T → vfsLookup s.nodes p c ≠ 0 → vfsLookup s.nodes p c ∈ T
  dir : ∀ {u T p} header c, I u.fs T → p ∈ T → Keeps I T (ustarDir A u header p c)
  file : ∀ {u T p} header c fileSize, I u.fs T → p ∈ T → Keeps I T (ustarFile A u header p c fileSize)

namespace OverArchives

variable {I : State H → Set U64 → Prop}

theorem ustarFile_null (u : Unpacking H) (header : U64) (c : CString) (fileSize : U32) :
    ustarFile A u header 0 c fileSize = .error (.stop .null) := by
  simp only [ustarFile, vfsCreateVnode, ↓reduceIte]
  rfl

/-- The walk stays in the tree, or is at the null pointer. -/
theorem walk (h : OverArchives A I) (header : U64) (dir : Bool) (fuel : Nat) (token : U64) (hI : I u.fs T)
    (hp : p = 0 ∨ p ∈ T) :
    (∀ u' p' token', ustarWalk A header dir fuel u p token = .ok (u', p', token') →
      ∃ T', T ⊆ T' ∧ I u'.fs T' ∧ (p' = 0 ∨ p' ∈ T')) ∧
    ∀ fs, ustarWalk A header dir fuel u p token = .error (.ret fs) → ∃ T', T ⊆ T' ∧ I fs T' := by
  induction fuel generalizing u p token T with
  | zero =>
      refine ⟨fun u' p' token' hres => ?_, fun fs hres => ?_⟩
      · cases hres
        exact ⟨T, subset_rfl, hI, hp⟩
      · cases hres
  | succ fuel ih =>
      simp only [ustarWalk]
      split
      · refine ⟨fun u' p' token' hres => ?_, fun fs hres => ?_⟩
        · cases hres
          exact ⟨T, subset_rfl, hI, hp⟩
        · cases hres
      · split
        · exact ⟨fun u' p' token' hres => (by cases hres), fun fs hres => (by cases hres)⟩
        · rename_i hp0
          have hpT := hp.resolve_left hp0
          split
          · rename_i hfound
            exact ih (u := (u.strtok 0).2) _ hI (.inr (h.lookup hI hpT hfound))
          · split
            · have hkeeps := h.dir header (u.string token) hI hpT
              cases hdir : ustarDir A u header p (u.string token) with
              | error why =>
                  rw [hdir] at hkeeps
                  refine ⟨fun u' p' token' hres => (by cases hres), fun fs hres => ?_⟩
                  cases hres
                  exact hkeeps
              | ok u₁ =>
                  rw [hdir] at hkeeps
                  obtain ⟨T₁, hT₁, hI₁⟩ := hkeeps
                  obtain ⟨hok, hret⟩ := ih (u := (u₁.strtok 0).2) (u₁.strtok 0).1 hI₁ (.inl rfl)
                  refine ⟨fun u' p' token' hres => ?_, fun fs hres => ?_⟩
                  · obtain ⟨T', hT', hI'⟩ := hok u' p' token' hres
                    exact ⟨T', hT₁.trans hT', hI'⟩
                  · obtain ⟨T', hT', hI'⟩ := hret fs hres
                    exact ⟨T', hT₁.trans hT', hI'⟩
            · refine ⟨fun u' p' token' hres => ?_, fun fs hres => (by cases hres)⟩
              cases hres
              exact ⟨T, subset_rfl, hI, hp⟩

theorem entry (h : OverArchives A I) (header : U64) (hI : I u.fs T) (hroot : root ∈ T) :
    Keeps I T (ustarEntry A root u header) := by
  simp only [ustarEntry]
  split
  · exact ⟨T, subset_rfl, hI⟩
  · obtain ⟨hok, hret⟩ := h.walk (u := (u.strtok (u.name header)).2) header (u.dir header) maxBytes
      (u.strtok (u.name header)).1 hI (.inr hroot)
    cases hwalk : ustarWalk A header (u.dir header) maxBytes (u.strtok (u.name header)).2 root
      (u.strtok (u.name header)).1 with
    | error why =>
        cases why with
        | ret fs => exact hret fs hwalk
        | stop why => trivial
    | ok r =>
        obtain ⟨u₁, p, token⟩ := r
        obtain ⟨T₁, hT₁, hI₁, hp⟩ := hok u₁ p token hwalk
        simp only [bind, Except.bind]
        split
        · exact ⟨T₁, hT₁, hI₁⟩
        · split
          · rcases hp with rfl | hp
            · rw [ustarFile_null]
              trivial
            · have hkeeps := h.file (u := (u₁.strtok token).2) header ((u₁.strtok token).2.string (u₁.strtok token).1)
                (u.fileSize header) hI₁ hp
              revert hkeeps
              cases ustarFile A (u₁.strtok token).2 header p ((u₁.strtok token).2.string (u₁.strtok token).1)
                (u.fileSize header) with
              | ok u₂ =>
                  rintro ⟨T', hT', hI'⟩
                  exact ⟨T', hT₁.trans hT', hI'⟩
              | error why =>
                  cases why with
                  | ret fs =>
                      rintro ⟨T', hT', hI'⟩
                      exact ⟨T', hT₁.trans hT', hI'⟩
                  | stop why => exact id
          · exact ⟨T₁, hT₁, hI₁⟩

/-- The invariant holds when the loop over the headers returns. -/
theorem loop (h : OverArchives A I) {data size offset : U64} {fuel : Nat} {fs : State H} (hI : I u.fs T) (hroot : root ∈ T)
    (hres : ustarLoop A root data size fuel u offset = .ok fs) : ∃ T', T ⊆ T' ∧ I fs T' := by
  induction fuel generalizing u offset T with
  | zero => cases hres
  | succ fuel ih =>
      simp only [ustarLoop] at hres
      split at hres
      · cases hres
        exact ⟨T, subset_rfl, hI⟩
      · split at hres
        · cases hres
          exact ⟨T, subset_rfl, hI⟩
        · have hkeeps := h.entry (data + offset) hI hroot
          split at hres
          · rename_i hentry
            rw [hentry] at hkeeps
            cases hres
            exact hkeeps
          · cases hres
          · rename_i hentry
            rw [hentry] at hkeeps
            obtain ⟨T₁, hT₁, hI₁⟩ := hkeeps
            obtain ⟨T', hT', hI'⟩ := ih hI₁ (hT₁ hroot) hres
            exact ⟨T', hT₁.trans hT', hI'⟩

end OverArchives

namespace FsInv

variable {s s' : State H} {d b : U64}

/-- The file in the tree, with its bytes in new blocks. -/
theorem filled {data bytes : U64} {fileSize : U32} {fs' fs₁ fs₂ : State H} (hA : Proc.AllocatorSpec A inUse)
    (h : FsInv inUse role T fs') (hn : n ∈ T) (hk₁ : fs'.kmalloc A ramfsDataSize = (data, fs₁)) (hd : data ≠ 0)
    (hk₂ : fs₁.kmallocBlock A (fileSize.setWidth 64) = (bytes, fs₂)) (hb : bytes ≠ 0) (u : Unpacking H) (header : U64) :
    FsInv inUse (Function.update (Function.update role data (some (.data n))) bytes (some (.bytes data))) T
      (u.fill header fileSize n data bytes fs₂) := by
  obtain ⟨hvfs, hreq₁⟩ := kmalloc_requested hA hk₁
  have hreq₂ := kmallocBlock_requested hA hk₂
  obtain ⟨hnodes, hramfs, hmounts, hroot⟩ := kmallocBlock_nodes hk₂
  rw [hvfs] at hnodes hramfs hmounts hroot
  obtain ⟨hd₀, hd₁⟩ := hreq₁.block hd
  obtain ⟨hb₁, hb₂⟩ := hreq₂.block hb
  refine h.fill hn hd₀ (fun hc => hb₁ (hreq₁.heap hc)) (fun hc => hb₁ (hc ▸ hd₁)) ?_ u header fileSize hnodes hramfs hmounts
    hroot
  rintro q (rfl | rfl | hq)
  · exact hreq₂.heap hd₁
  · exact hb₂
  · exact hreq₂.heap (hreq₁.heap hq)

/-- The invariant holds over archives, and the mounts stay. -/
theorem overArchives (hA : Proc.AllocatorSpec A inUse) (s₀ : State H) :
    OverArchives A fun s T => (∃ role, FsInv inUse role T s) ∧ s.mounts = s₀.mounts ∧ s.rootMount = s₀.rootMount where
  lookup := by
    rintro s T p c ⟨⟨role, h⟩, _⟩ hp hfound
    exact (h.tree.lookup hp hfound).1
  dir := by
    rintro u T p header c ⟨⟨role, h⟩, hmounts, hroot⟩ hp
    rcases h.ustarDir_cases hA hp header c with ⟨fs', he, hsame, _⟩ | ⟨fs', n, d, new, he, hs, _⟩
    · rw [he]
      exact ⟨T, subset_rfl, ⟨role, h.untouched hsame⟩, hsame.mounts.trans hmounts, hsame.rootMount.trans hroot⟩
    · rw [he]
      have hops : (fs'.nodes n).ops = some .ramfs := by
        rw [hs.nodes, h.tree.link_new hp (h.notMem_created hs) hs.unlinked]
        exact hs.fields.2.1
      exact ⟨_, Set.subset_insert n T, ⟨_, (h.created hp hs).dirNode (.inl rfl) hops u header⟩, hs.mounts.trans hmounts,
        hs.rootMount.trans hroot⟩
  file := by
    rintro u T p header c fileSize ⟨⟨role, h⟩, hmounts, hroot⟩ hp
    rcases h.ustarFile_cases hA hp header c fileSize with
      ⟨fs', he, hsame, _⟩ | ⟨fs', n, d, new, hs, _, _, _, ⟨fs'', he, hsame⟩ | ⟨data, fs₁, bytes, fs₂, hk₁, hd, hk₂, hb, he⟩⟩
    · rw [he]
      exact ⟨T, subset_rfl, ⟨role, h.untouched hsame⟩, hsame.mounts.trans hmounts, hsame.rootMount.trans hroot⟩
    · rw [he]
      refine ⟨_, Set.subset_insert n T, ⟨_, (h.created hp hs).same hsame⟩, ?_, ?_⟩
      · rw [hsame.vfs, hs.mounts, hmounts]
      · rw [hsame.vfs, hs.rootMount, hroot]
    · rw [he]
      obtain ⟨_, _, hmounts₂, hroot₂⟩ := kmallocBlock_nodes hk₂
      rw [(kmalloc_requested hA hk₁).1] at hmounts₂ hroot₂
      exact ⟨_, Set.subset_insert n T, ⟨_, (h.created hp hs).filled hA (.inl rfl) hk₁ hd hk₂ hb u header⟩,
        hmounts₂.trans (hs.mounts.trans hmounts), hroot₂.trans (hs.rootMount.trans hroot)⟩

theorem ustarEntry (hA : Proc.AllocatorSpec A inUse) (h : FsInv inUse role T u.fs) (hroot : root ∈ T)
    (hres : ustarEntry A root u header = .ok u') : ∃ role' T', Extends inUse T u.fs u'.fs role' T' := by
  have hkeeps := (overArchives hA u.fs).entry header ⟨⟨role, h⟩, rfl, rfl⟩ hroot
  rw [hres] at hkeeps
  obtain ⟨T', hT', ⟨role', h'⟩, hmounts, hroot⟩ := hkeeps
  exact ⟨role', T', h', hT', hmounts, hroot⟩

end FsInv

end ShadowOS.Fs
