import ShadowOS.Fs.Lemmas.Unpack
import ShadowOS.Fs.UstarTheorems

/-!
# Theorems about the entries of an archive
-/

namespace ShadowOS.Fs

open Proc (bumpAllocator)

variable {H : Type} {A : Proc.Allocator H} {inUse : H → Set U64} {role : U64 → Option Role} {T : Set U64}
  {nodes nodes' : U64 → Vnode} {root n p header data size : U64} {c : CString} {cs qs rest : List CString} {u : Unpacking H}

/-! ## Places -/

theorem follow_take_ne (hn : n ≠ 0) (h : follow nodes n cs ≠ 0) (i : Nat) : follow nodes n (cs.take i) ≠ 0 := by
  intro hc
  rw [← List.take_append_drop i cs, follow_append hn, if_pos hc] at h
  exact h rfl

theorem DirPlaced.refl (hn : root ≠ 0) (h : follow nodes root cs ≠ 0) : DirPlaced nodes nodes root cs where
  there i _ := follow_take_ne hn h i
  new i _ hc := absurd hc (follow_take_ne hn h i)
  kept _ _ := rfl

/-- A path of directories is complete once the last one is created. -/
theorem Adds.dirPlaced_iff {name : Option CString} (ha : Adds nodes nodes' T p n name) (h : VnodeTree nodes root T)
    (hq : follow nodes root qs = p) (hp : p ≠ 0) (hc : vfsLookup nodes p c = 0) (hname : name = none ∨ name = some c)
    (htype : (nodes' n).type = vnodeDir) : DirPlaced nodes nodes' root (qs ++ [c]) ↔ name = some c := by
  have hlen : (qs ++ [c]).length = qs.length + 1 := by simp
  have hfull : (qs ++ [c]).take (qs.length + 1) = qs ++ [c] := List.take_of_length_le hlen.le
  have hpre : ∀ i ≤ qs.length, follow nodes root ((qs ++ [c]).take i) ≠ 0 := by
    intro i hi
    rw [List.take_append_of_le_length hi]
    exact follow_take_ne h.root_ne (hq ▸ hp) i
  constructor
  · intro hd
    have hthere := hd.there (qs.length + 1) hlen.ge
    rw [hfull] at hthere
    obtain ⟨qs', c', _, _, hc'⟩ := ha.follow_cases h h.root_mem (by rw [follow_concat h.root_ne, hq, if_neg hp, hc]) hthere
    exact hname.resolve_left (by rw [hc']; simp)
  · intro hname
    have hnew := ha.follow_new h h.root_mem hq hp hc hname
    refine ⟨fun i hi => ?_, fun i hi h0 => ?_, fun ps hps => ha.follow_of_ne h h.root_mem hps⟩
    · rcases Nat.lt_or_ge qs.length i with hlt | hle
      · rw [List.take_of_length_le (by omega), hnew]
        exact ha.nonnull
      · rw [ha.follow_of_ne h h.root_mem (hpre i hle)]
        exact hpre i hle
    · rcases Nat.lt_or_ge qs.length i with hlt | hle
      · rw [List.take_of_length_le (by omega), hnew]
        exact htype
      · exact absurd h0 (hpre i hle)

/-- The only new path is the one of the vnode that was created. -/
theorem Adds.filePlaced_iff {name : Option CString} (rest : List CString) (ha : Adds nodes nodes' T p n name) (h : VnodeTree nodes root T)
    (hq : follow nodes root qs = p) (hp : p ≠ 0) (hc : vfsLookup nodes p c = 0) (hname : name = none ∨ name = some c) :
    FilePlaced nodes nodes' root (qs ++ c :: rest) ↔ (name = some c → rest = []) := by
  constructor
  · intro hf hname
    have hnew := ha.follow_new h h.root_mem hq hp hc hname
    have hsame := hf (qs ++ [c]) (by rw [follow_concat h.root_ne, hq, if_neg hp, hc]) (by rw [hnew]; exact ha.nonnull)
    rw [List.append_cancel_left_eq, List.cons.injEq] at hsame
    exact hsame.2.symm
  · intro hrest ps h0 hps
    obtain ⟨qs', c', rfl, hq', hc'⟩ := ha.follow_cases h h.root_mem h0 hps
    have hcc : c' = c := by
      rcases hname with hn | hn
      · rw [hn] at hc'
        cases hc'
      · rw [hn] at hc'
        exact (Option.some.inj hc').symm
    subst hcc
    rw [hrest hc', h.follow_inj (hq' ▸ hp) (hq'.trans hq.symm)]

section Entry

variable (hA : Proc.AllocatorSpec A inUse) (h : FsInv inUse role T u.fs) (htree : VnodeTree u.fs.nodes root T)
  (hends : NameEnds u header) (hpath : u.path header ≠ []) (hdot : u.string (u.name header) ≠ [46])
  (hstuck : stuck u.fs.nodes root (u.path header) = some (p, c, rest))
include hA h htree hends hpath hdot hstuck

/-- A directory that can be created is at its place, unless there are more components to come. -/
theorem dirEntry_after (hdir : u.dir header = true) :
    (∃ fs', ustarEntry A root u header = .error (.ret fs') ∧ ¬ (CanCreate u.fs.nodes p c ∧ Memory A u.fs c)) ∨
    rest ≠ [] ∧ ustarEntry A root u header = .error (.stop .null) ∨
    ∃ u' n name, rest = [] ∧ ustarEntry A root u header = .ok u' ∧ Adds u.fs.nodes u'.fs.nodes T p n name ∧
      CanCreate u.fs.nodes p c ∧ name = (if Memory A u.fs c then some c else none) ∧ (u'.fs.nodes n).type = vnodeDir := by
  obtain ⟨qs, _, hq, hp0, _⟩ := stuck_eq_some htree.root_ne hstuck
  have hp : p ∈ T := hq ▸ htree.follow_mem htree.root_mem (hq ▸ hp0)
  obtain ⟨u₁, hfs, _, herr, hok⟩ := ustarEntry_dir hends hpath hdot htree.root_ne hstuck A hdir
  have h₁ : FsInv inUse role T u₁.fs := hfs ▸ h
  rcases h₁.ustarDir_cases hA hp header c with ⟨fs', he, _, hno⟩ | ⟨fs', n, d, new, he, hs, hcan, htype, hname⟩
  · rw [hfs] at hno
    exact .inl ⟨fs', herr _ he, hno⟩
  · rw [hfs] at hcan hname
    obtain ⟨hlast, hmore⟩ := hok _ he
    by_cases hrest : rest = []
    · obtain ⟨u', hu', hfs', _⟩ := hlast hrest
      obtain ⟨ha, ht⟩ := hs.adds h₁ hp (u₁.dirNode_keepsPlace header)
      have hnodes : u'.fs.nodes = Function.update fs'.nodes n (u₁.dirNode header (fs'.nodes n)) := by
        rw [hfs']
        rfl
      rw [hfs] at ha
      rw [← hnodes] at ha ht
      exact .inr (.inr ⟨u', n, new.name, hrest, hu', ha, hcan, hname, ht.trans htype⟩)
    · exact .inr (.inl ⟨hrest, hmore hrest⟩)

/-- A file has its place whether or not its bytes could be allocated. -/
theorem fileEntry_after (hdir : u.dir header = false) :
    (∃ fs', fsAfter (ustarEntry A root u header) = some fs' ∧ Untouched inUse u.fs fs' ∧
      ¬ (CanCreate u.fs.nodes p c ∧ Memory A u.fs c)) ∨
    ∃ fs' n name, fsAfter (ustarEntry A root u header) = some fs' ∧ Adds u.fs.nodes fs'.nodes T p n name ∧
      CanCreate u.fs.nodes p c ∧ name = if Memory A u.fs c then some c else none := by
  obtain ⟨qs, _, hq, hp0, _⟩ := stuck_eq_some htree.root_ne hstuck
  have hp : p ∈ T := hq ▸ htree.follow_mem htree.root_mem (hq ▸ hp0)
  obtain ⟨u₁, hfs, _, hentry⟩ := ustarEntry_file hends hpath hdot htree.root_ne hstuck A hdir
  have h₁ : FsInv inUse role T u₁.fs := hfs ▸ h
  rw [hentry]
  rcases h₁.ustarFile_cases hA hp header c (u.fileSize header) with
    ⟨fs', he, hsame, hno⟩ | ⟨fs', n, d, new, hs, hcan, _, hname, hres⟩
  · rw [hfs] at hno hsame
    exact .inl ⟨fs', by rw [he]; rfl, hsame, hno⟩
  · rw [hfs] at hcan hname
    refine .inr ?_
    have hadds : ∀ {f : Vnode → Vnode}, KeepsPlace f →
        Adds u.fs.nodes (Function.update fs'.nodes n (f (fs'.nodes n))) T p n new.name := by
      intro f hf
      have ha := (hs.adds h₁ hp hf).1
      rwa [hfs] at ha
    rcases hres with ⟨fs'', he, hsame⟩ | ⟨data, fs₁, bytes, fs₂, hk₁, _, hk₂, _, he⟩
    · refine ⟨fs'', n, new.name, by rw [he]; rfl, ?_, hcan, hname⟩
      have ha := hadds (f := id) ⟨fun _ => ⟨rfl, rfl, rfl⟩, fun _ => rfl, fun _ => rfl⟩
      rwa [id_eq, Function.update_eq_self, ← congrArg Vfs.nodes hsame.vfs] at ha
    · refine ⟨_, n, new.name, by rw [he]; rfl, ?_, hcan, hname⟩
      have hnodes : fs₂.nodes = fs'.nodes := (kmallocBlock_nodes hk₂).1.trans (congrArg Vfs.nodes (kmalloc_requested hA hk₁).1)
      simp only [Unpacking.fill, hnodes]
      exact hadds (u₁.fileNode_keepsPlace header (u.fileSize header) data)

theorem dirEntry_placed_iff (hdir : u.dir header = true) :
    (∃ u', ustarEntry A root u header = .ok u' ∧ DirPlaced u.fs.nodes u'.fs.nodes root (u.path header)) ↔
      rest = [] ∧ CanCreate u.fs.nodes p c ∧ Memory A u.fs c := by
  obtain ⟨qs, hcs, hq, hp0, hmissing⟩ := stuck_eq_some htree.root_ne hstuck
  rcases dirEntry_after hA h htree hends hpath hdot hstuck hdir with
    ⟨fs', he, hno⟩ | ⟨hrest, he⟩ | ⟨u', n, name, hrest, he, ha, hcan, hname, htype⟩
  · rw [he]
    exact iff_of_false (fun ⟨_, hc, _⟩ => by cases hc) fun hc => hno hc.2
  · rw [he]
    exact iff_of_false (fun ⟨_, hc, _⟩ => by cases hc) fun hc => hrest hc.1
  · have hplaced := ha.dirPlaced_iff htree hq hp0 hmissing (by rw [hname]; split <;> simp) htype
    rw [hcs, hrest, he]
    simp only [Except.ok.injEq, exists_eq_left', hplaced, hname, hcan, true_and]
    by_cases hmem : Memory A u.fs c
    · simp [hmem]
    · simp [hmem]

theorem fileEntry_placed_iff (hdir : u.dir header = false) :
    (∃ fs', fsAfter (ustarEntry A root u header) = some fs' ∧ FilePlaced u.fs.nodes fs'.nodes root (u.path header)) ↔
      (CanCreate u.fs.nodes p c → Memory A u.fs c → rest = []) := by
  obtain ⟨qs, hcs, hq, hp0, hmissing⟩ := stuck_eq_some htree.root_ne hstuck
  rcases fileEntry_after hA h htree hends hpath hdot hstuck hdir with ⟨fs', he, hsame, hno⟩ | ⟨fs', n, name, he, ha, hcan, hname⟩
  · refine iff_of_true ⟨fs', he, fun ps h0 hps => ?_⟩ fun hcan hmem => absurd ⟨hcan, hmem⟩ hno
    have hnodes : ∀ v ∈ T, fs'.nodes v = u.fs.nodes v := fun v hv => hsame.nodes v (h.mem_inUse hv)
    have hlookup : ∀ m ∈ T, ∀ c', vfsLookup fs'.nodes m c' = vfsLookup u.fs.nodes m c' := fun m hm c' =>
      htree.lookup_congr hm (fun q hq => by rw [hnodes q hq]; exact ⟨rfl, rfl, rfl⟩) (fun q hq => by rw [hnodes q hq]) c'
    rw [htree.follow_congr htree.root_mem hlookup] at hps
    exact absurd h0 hps
  · have hplaced := ha.filePlaced_iff rest htree hq hp0 hmissing (by rw [hname]; split <;> simp)
    rw [he, hcs]
    simp only [Option.some.injEq, exists_eq_left', hplaced, hname, hcan, forall_const]
    by_cases hmem : Memory A u.fs c
    · simp [hmem]
    · simp [hmem]

/-- Where only the last component is missing, the entry is placed there. -/
theorem entry_placedAt (hrest : rest = []) (hcan : CanCreate u.fs.nodes p c) (hmem : Memory A u.fs c) :
    PlacedAt A root u header (u.string (u.name header)) := by
  obtain ⟨qs, hcs, hq, hp0, hmissing⟩ := stuck_eq_some htree.root_ne hstuck
  have hnone : follow u.fs.nodes root (qs ++ [c]) = 0 := by rw [follow_concat htree.root_ne, hq, if_neg hp0, hmissing]
  have hadds : ∃ fs' n, fsAfter (ustarEntry A root u header) = some fs' ∧ Adds u.fs.nodes fs'.nodes T p n (some c) := by
    cases hdir : u.dir header with
    | true =>
        rcases dirEntry_after hA h htree hends hpath hdot hstuck hdir with
          ⟨fs', _, hno⟩ | ⟨hmore, _⟩ | ⟨u', n, name, _, he, ha, _, hname, _⟩
        · exact absurd ⟨hcan, hmem⟩ hno
        · exact absurd hrest hmore
        · rw [hname, if_pos hmem] at ha
          exact ⟨u'.fs, n, by rw [he]; rfl, ha⟩
    | false =>
        rcases fileEntry_after hA h htree hends hpath hdot hstuck hdir with ⟨fs', _, _, hno⟩ | ⟨fs', n, name, he, ha, _, hname⟩
        · exact absurd ⟨hcan, hmem⟩ hno
        · rw [hname, if_pos hmem] at ha
          exact ⟨fs', n, he, ha⟩
  obtain ⟨fs', n, he, ha⟩ := hadds
  have hplaced := (ha.filePlaced_iff [] htree hq hp0 hmissing (.inr rfl)).mpr fun _ => rfl
  have hnew := ha.follow_new htree htree.root_mem hq hp0 hmissing rfl
  have htokens : tokens (u.string (u.name header)) = qs ++ [c] := by
    rw [← hrest]
    exact hcs
  rw [PlacedAt, htokens]
  exact ⟨fs', he, hnone, by rw [hnew]; exact ha.nonnull, hplaced⟩

end Entry

/-- An entry is placed as it should be exactly when it fits. -/
theorem entryPlaced_iff (hA : Proc.AllocatorSpec A inUse) (h : FsInv inUse role T u.fs)
    (htree : VnodeTree u.fs.nodes root T) (hends : NameEnds u header) (hpath : u.path header ≠ [])
    (hdot : u.string (u.name header) ≠ [46]) : EntryPlaced A root u header ↔ EntryFits A root u header := by
  have hroot := htree.root_ne
  unfold EntryPlaced EntryFits
  cases hstuck : stuck u.fs.nodes root (u.path header) with
  | none =>
      obtain ⟨u', hu', hfs, _⟩ := ustarEntry_found hends hpath hdot hroot A hstuck
      rw [stuck_eq_none_iff hroot] at hstuck
      refine iff_of_true ?_ nofun
      split
      · exact ⟨u', hu', by rw [hfs]; exact .refl hroot hstuck⟩
      · refine ⟨u'.fs, by rw [hu']; rfl, fun ps h0 hps => ?_⟩
        rw [hfs] at hps
        exact absurd h0 hps
  | some r =>
      obtain ⟨p, c, rest⟩ := r
      have hone : ∀ P : U64 → CString → List CString → Prop,
          (∀ n c' rest', some (p, c, rest) = some (n, c', rest') → P n c' rest') ↔ P p c rest := by
        intro P
        refine ⟨fun hP => hP p c rest rfl, fun hP n c' rest' he => ?_⟩
        cases he
        exact hP
      rw [hone]
      cases hdir : u.dir header with
      | true => exact dirEntry_placed_iff hA h htree hends hpath hdot hstuck hdir
      | false => exact fileEntry_placed_iff hA h htree hends hpath hdot hstuck hdir

/-- The tree between two entries. -/
def UnpackInv (inUse : H → Set U64) (root : U64) (s : Unpacking H × U64) : Prop :=
  ∃ role T, FsInv inUse role T s.1.fs ∧ (s.1.fs.mounts s.1.fs.rootMount).root = root

theorem UnpackInv.turn (hA : Proc.AllocatorSpec A inUse) {s s' : Unpacking H × U64} (h : UnpackInv inUse root s)
    (hturn : ustarTurn A root data size s () = some s') : UnpackInv inUse root s' := by
  obtain ⟨u, offset⟩ := s
  obtain ⟨role, T, hinv, rfl⟩ := h
  simp only [ustarTurn] at hturn
  split at hturn
  · cases hturn
  · split at hturn
    · cases hturn
    · split at hturn
      · cases hturn
      · rename_i u' hentry
        cases hturn
        obtain ⟨role', T', he⟩ := hinv.ustarEntry hA hinv.tree.root_mem hentry
        exact ⟨role', T', he.inv, by rw [he.mounts, he.rootMount]⟩

/-- Each entry of an archive is placed as it should be exactly when it fits into the tree that the entries before it have
made. -/
theorem ustar_entries_placed_iff (hA : Proc.AllocatorSpec A inUse) (h : FsInv inUse role T u.fs) (data size : U64) (n : Nat) :
    let root := (u.fs.mounts u.fs.rootMount).root
    AllSteps (ustarTurn A root data size) (fun s _ => HasEntry data size s → EntryPlaced A root s.1 (data + s.2)) (u, 0)
        (List.replicate n ()) ↔
      AllSteps (ustarTurn A root data size) (fun s _ => HasEntry data size s → EntryFits A root s.1 (data + s.2)) (u, 0)
        (List.replicate n ()) := by
  intro root
  have hstart : UnpackInv inUse root (u, 0) := ⟨role, T, h, rfl⟩
  have hinv : AllStates (ustarTurn A root data size) (UnpackInv inUse root) (u, 0) (List.replicate n ()) :=
    allStates_of_invariant (fun hs hturn => hs.turn hA hturn) hstart
  have hiff : ∀ {s : Unpacking H × U64}, UnpackInv inUse root s → HasEntry data size s →
      (EntryPlaced A root s.1 (data + s.2) ↔ EntryFits A root s.1 (data + s.2)) := by
    rintro s ⟨role, T, hs, hr⟩ ⟨_, _, hfits, hpath, hdot⟩
    exact entryPlaced_iff hA hs (hr ▸ hs.tree) hfits.ends hpath hdot
  exact ⟨.mono_states (fun hs hp he => (hiff hs he).mp (hp he)) hinv,
    .mono_states (fun hs hp he => (hiff hs he).mpr (hp he)) hinv⟩

theorem sampleFs_inv : FsInv (fun heap : U64 => {p | p < heap}) (Function.update (fun _ => none) 0x800 (some .vnode)) {0x800}
    sampleFs := by
  have hone : ∀ {P : U64 → Prop}, P 0x800 → ∀ v ∈ ({0x800} : Set U64), P v := by
    rintro P h v rfl
    exact h
  refine ⟨⟨rfl, by simp, hone ⟨[], by decide, by simp⟩⟩, by decide, by decide, ⟨[], by decide, by simp⟩,
    hone (by decide), hone (by decide), hone (by decide), hone (by decide),
    hone (by decide), hone (by decide), fun p hp => ?_⟩
  by_cases h : p = 0x800
  · rw [h]
    decide
  · rw [Function.update_of_ne h] at hp
    exact absurd rfl hp

/-- An archive with one entry, at the address 0x1000. -/
def entryArchive (typeflag : U8) (name : CString) : Mem := fun p =>
  if p = 0x109c then typeflag else name.getD (p - 0x1000).toNat 0

theorem ustar_entries_placed_iff_sample :
    AllSteps (ustarTurn bumpAllocator 0x800 0x1000 512)
      (fun s _ => HasEntry 0x1000 512 s → EntryPlaced bumpAllocator 0x800 s.1 (0x1000 + s.2))
      (⟨sampleFs, entryArchive 53 [97, 47], 0⟩, 0) [()] := by
  refine (ustar_entries_placed_iff (u := ⟨sampleFs, entryArchive 53 [97, 47], 0⟩) Proc.bumpAllocator_spec sampleFs_inv
    0x1000 512 1).mpr ⟨fun _ n c rest hs => ?_, fun _ _ => trivial⟩
  have hstuck : stuck sampleFs.nodes 0x800 ((⟨sampleFs, entryArchive 53 [97, 47], 0⟩ : Unpacking U64).path (0x1000 + 0)) =
      some (0x800, [97], []) := by
    decide
  cases hstuck.symm.trans hs
  have hdir : (⟨sampleFs, entryArchive 53 [97, 47], 0⟩ : Unpacking U64).dir (0x1000 + 0) = true := by decide
  rw [if_pos hdir]
  exact ⟨rfl, ⟨by decide, by decide, by decide⟩, by decide⟩

theorem entryArchive_hasEntry {typeflag : U8} (h : typeflag = 53 ∨ typeflag = 48) :
    HasEntry 0x1000 512 (⟨sampleFs, entryArchive typeflag [97, 47, 98], 0⟩, 0) := by
  rcases h with rfl | rfl
  · exact ⟨by decide, by decide, ⟨by decide, by decide, by decide⟩, by decide, by decide⟩
  · exact ⟨by decide, by decide, ⟨by decide, by decide, by decide⟩, by decide, by decide⟩

/-- In an empty root the directory "a/b" is looked up below the null pointer, and the file "a/b" becomes a file "a". -/
theorem ustar_entries_misplaced :
    (HasEntry 0x1000 512 (⟨sampleFs, entryArchive 53 [97, 47, 98], 0⟩, 0) ∧
      ¬ EntryPlaced bumpAllocator 0x800 ⟨sampleFs, entryArchive 53 [97, 47, 98], 0⟩ 0x1000) ∧
    HasEntry 0x1000 512 (⟨sampleFs, entryArchive 48 [97, 47, 98], 0⟩, 0) ∧
      ¬ EntryPlaced bumpAllocator 0x800 ⟨sampleFs, entryArchive 48 [97, 47, 98], 0⟩ 0x1000 := by
  refine ⟨⟨entryArchive_hasEntry (.inl rfl), fun hc => ?_⟩, entryArchive_hasEntry (.inr rfl), fun hc => ?_⟩
  · have hdir : (⟨sampleFs, entryArchive 53 [97, 47, 98], 0⟩ : Unpacking U64).dir 0x1000 = true := by decide
    have hstop : (ustarEntry bumpAllocator 0x800 ⟨sampleFs, entryArchive 53 [97, 47, 98], 0⟩ 0x1000).isOk = false := by
      decide
    rw [EntryPlaced, if_pos hdir] at hc
    obtain ⟨u', hu', _⟩ := hc
    rw [hu'] at hstop
    cases hstop
  · have hdir : (⟨sampleFs, entryArchive 48 [97, 47, 98], 0⟩ : Unpacking U64).dir 0x1000 = false := by decide
    have hnew : (fsAfter (ustarEntry bumpAllocator 0x800 ⟨sampleFs, entryArchive 48 [97, 47, 98], 0⟩ 0x1000)).any
        (fun fs => follow fs.nodes 0x800 [[97]] ≠ 0) = true := by
      decide
    have hpath : (⟨sampleFs, entryArchive 48 [97, 47, 98], 0⟩ : Unpacking U64).path 0x1000 = [[97], [98]] := by
      decide
    rw [EntryPlaced, if_neg (by rw [hdir]; decide)] at hc
    obtain ⟨fs', hfs', hplaced⟩ := hc
    rw [hfs', Option.any_some, decide_eq_true_eq] at hnew
    have hsame := hplaced [[97]] (by decide) hnew
    rw [hpath] at hsame
    cases hsame

/-! ## Paths of the format -/

/-- A "./" at the start of a path. -/
theorem take_dot_iff {path : CString} : path.take 2 = [46, slash] ↔ ∃ s, path = 46 :: slash :: s := by
  constructor
  · intro h
    exact ⟨path.drop 2, by rw [← List.take_append_drop 2 path, h, List.drop_append_of_le_length (by simp)]; simp⟩
  · rintro ⟨s, rfl⟩
    rfl

theorem withoutDot_of_not {path : CString} (h : path.take 2 ≠ [46, slash]) : withoutDot path = path := if_neg h

/-- A "./" at the start has one of the slashes. -/
theorem count_withoutDot (path : CString) :
    (withoutDot path).count slash + (if path.take 2 = [46, slash] then 1 else 0) = path.count slash := by
  by_cases h : path.take 2 = [46, slash]
  · obtain ⟨s, rfl⟩ := take_dot_iff.mp h
    have hdot : withoutDot (46 :: slash :: s) = s := rfl
    rw [if_pos h, hdot, List.count_cons_of_ne (by decide), List.count_cons_self]
  · rw [if_neg h, withoutDot_of_not h, Nat.add_zero]

theorem length_withoutDot (path : CString) :
    (withoutDot path).length + (if path.take 2 = [46, slash] then 2 else 0) = path.length := by
  by_cases h : path.take 2 = [46, slash]
  · obtain ⟨s, rfl⟩ := take_dot_iff.mp h
    rw [if_pos h]
    rfl
  · rw [if_neg h, withoutDot_of_not h, Nat.add_zero]

/-- A path without the slash that the format puts after a prefix is not the one of the format. -/
theorem withoutDot_eq_iff (name front : CString) {more : CString} (hmore : slash ∉ more) (hlong : more ≠ [] → 2 ≤ name.length) :
    withoutDot (name ++ more) = withoutDot (if front = [] then name else front ++ slash :: name) ↔
      (front = [] ∨ front = [46] ∧ name.take 2 ≠ [46, slash]) ∧ more = [] := by
  have hdot : (name ++ more).take 2 = name.take 2 := by
    by_cases hm : more = []
    · rw [hm, List.append_nil]
    · exact List.take_append_of_le_length (hlong hm)
  have hcount := count_withoutDot (name ++ more)
  have hlen := length_withoutDot (name ++ more)
  rw [List.count_append, List.count_eq_zero.mpr hmore, hdot] at hcount
  rw [List.length_append, hdot] at hlen
  by_cases hf : front = []
  · simp only [hf, ↓reduceIte, true_or, true_and]
    constructor
    · intro he
      have hlen' := length_withoutDot name
      rw [he] at hlen
      exact List.eq_nil_of_length_eq_zero (by omega)
    · rintro rfl
      rw [List.append_nil]
  · simp only [hf, ↓reduceIte, false_or]
    constructor
    · intro he
      have hcount' := count_withoutDot (front ++ slash :: name)
      rw [← he, List.count_append, List.count_cons_self] at hcount'
      -- only a "./" can make up for the slash after the prefix
      have hfront : (front ++ slash :: name).take 2 = [46, slash] := by
        by_contra hc
        rw [if_neg hc] at hcount'
        omega
      rw [if_pos hfront] at hcount'
      have hname : name.take 2 ≠ [46, slash] := by
        intro hc
        rw [if_pos hc] at hcount
        omega
      have hslash : slash ∉ front := List.count_eq_zero.mp (by omega)
      obtain ⟨s, hs⟩ := take_dot_iff.mp hfront
      have hone : front = [46] := by
        rcases front with _ | ⟨a, _ | ⟨b, t⟩⟩
        · exact absurd rfl hf
        · rw [List.singleton_append, List.cons.injEq] at hs
          rw [hs.1]
        · rw [List.cons_append, List.cons_append, List.cons.injEq, List.cons.injEq] at hs
          exact absurd (by rw [hs.2.1]; simp) hslash
      refine ⟨⟨hone, hname⟩, ?_⟩
      have hrest : withoutDot (front ++ slash :: name) = name := by rw [hone]; rfl
      rw [hrest, withoutDot_of_not (by rw [hdot]; exact hname)] at he
      exact List.append_right_eq_self.mp he
    · rintro ⟨⟨rfl, hname⟩, rfl⟩
      rw [List.append_nil, withoutDot_of_not hname]
      rfl

/-- The string at a header is its name field, and after a name of 100 bytes the digits of the mode. -/
theorem Header.string (h : Header u header) : ∃ more, u.string header = u.nameField header ++ more ∧ slash ∉ more ∧
    more.length < 8 ∧ (more ≠ [] → (u.nameField header).length = 100) ∧
    (more = [] ↔ (u.nameField header).length < 100 ∨ u.archive (header + 100) = 0) := by
  obtain ⟨digits, hdigits, hlen, hoctal⟩ := h.mode
  have hsplit := readString_add u.archive 100 (2 ^ 64 - 100) header
  have hle : (u.nameField header).length ≤ 100 := length_readString_le _ _ _
  change u.string header = if (u.nameField header).length = 100 then
    u.nameField header ++ readString u.archive (2 ^ 64 - 100) (header + 100) else u.nameField header at hsplit
  by_cases hfull : (u.nameField header).length = 100
  · rw [if_pos hfull, hdigits.readString (by omega)] at hsplit
    refine ⟨digits, hsplit, fun hc => absurd (hoctal _ hc).1 (by decide), hlen, fun _ => hfull, ?_⟩
    rw [hfull]
    simp only [Nat.lt_irrefl, false_or]
    cases digits with
    | nil => exact iff_of_true rfl hdigits
    | cons b s =>
        obtain ⟨hb, hb0, _⟩ := hdigits
        rw [hb]
        exact iff_of_false (by simp) hb0
  · rw [if_neg hfull] at hsplit
    refine ⟨[], by rw [hsplit, List.append_nil], by simp, by simp, fun hc => absurd rfl hc, iff_of_true rfl (.inl (by omega))⟩

theorem Header.ends (h : Header u header) : NameEnds u header := by
  obtain ⟨more, hs, _, hlen, _⟩ := h.string
  have hle : (u.nameField header).length ≤ 100 := length_readString_le _ _ _
  have hinside := h.inside
  refine ⟨h.nonnull, ?_⟩
  rw [hs, List.length_append]
  omega

theorem Header.followsFormat_iff (h : Header u header) : FollowsFormat u header ↔ PlainName u header := by
  obtain ⟨more, hs, hmore, _, hfull, hnil⟩ := h.string
  have hle : (u.nameField header).length ≤ 100 := length_readString_le _ _ _
  have hpath := withoutDot_eq_iff (u.nameField header) (u.prefixField header) hmore fun hc => by rw [hfull hc]; decide
  rw [← hs, ← h.ends.string_name] at hpath
  rw [PlainName, ← hnil]
  constructor
  · rintro ⟨hp, _⟩
    exact hpath.mp hp
  · intro hc
    refine ⟨hpath.mpr hc, ?_⟩
    rw [hs, hc.2, List.append_nil]
    exact hle

/-- An entry is placed under the string at its header, and that is the path of the format exactly when the prefix is empty, or
"." before a name without a "./", and the name has fewer than 100 bytes or is followed by a zero. -/
theorem ustar_path_follows_format_iff (hA : Proc.AllocatorSpec A inUse) (h : FsInv inUse role T u.fs) (hheader : Header u header) :
    let root := (u.fs.mounts u.fs.rootMount).root
    (∀ p c, u.string (u.name header) ≠ [46] → stuck u.fs.nodes root (u.path header) = some (p, c, []) →
      CanCreate u.fs.nodes p c → Memory A u.fs c → PlacedAt A root u header (u.string (u.name header))) ∧
    (FollowsFormat u header ↔ PlainName u header) := by
  refine ⟨fun p c hdot hstuck hcan hmem => ?_, hheader.followsFormat_iff⟩
  have hpath : u.path header ≠ [] := by
    intro hc
    rw [hc] at hstuck
    cases hstuck
  exact entry_placedAt hA h h.tree hheader.ends hpath hdot hstuck rfl hcan hmem

theorem ustar_path_follows_format_iff_sample :
    PlacedAt bumpAllocator 0x800 ⟨sampleFs, entryArchive 53 [97, 47], 0⟩ 0x1000 [97, 47] ∧
      FollowsFormat ⟨sampleFs, entryArchive 53 [97, 47], 0⟩ 0x1000 := by
  have hheader : Header ⟨sampleFs, entryArchive 53 [97, 47], 0⟩ 0x1000 :=
    ⟨by decide, by decide, by decide, [], by decide, by decide, by simp⟩
  have hstring : (⟨sampleFs, entryArchive 53 [97, 47], 0⟩ : Unpacking U64).string
      ((⟨sampleFs, entryArchive 53 [97, 47], 0⟩ : Unpacking U64).name 0x1000) = [97, 47] := by
    decide
  obtain ⟨hplaced, hformat⟩ := ustar_path_follows_format_iff Proc.bumpAllocator_spec sampleFs_inv hheader
  rw [hstring] at hplaced
  exact ⟨hplaced 0x800 [97] (by decide) (by decide) ⟨by decide, by decide, by decide⟩
    (by decide), hformat.mpr ⟨.inl (by decide), .inl (by decide)⟩⟩

/-- A file "b" with the prefix "a". -/
def prefixArchive : Mem := fun p => if p = 0x1000 then 98 else if p = 0x1159 then 97 else if p = 0x109c then 48 else 0

/-- A file with a name of 100 bytes and the mode 7. -/
def longNameArchive : Mem := fun p =>
  if (p - 0x1000).toNat < 100 then 97 else if p = 0x1064 then 55 else if p = 0x109c then 48 else 0

/-- The prefix is dropped, and the digits of the mode are taken for a part of the name. -/
theorem ustar_path_not_of_format :
    (Header ⟨sampleFs, prefixArchive, 0⟩ 0x1000 ∧ ¬ FollowsFormat ⟨sampleFs, prefixArchive, 0⟩ 0x1000) ∧
      Header ⟨sampleFs, longNameArchive, 0⟩ 0x1000 ∧ ¬ FollowsFormat ⟨sampleFs, longNameArchive, 0⟩ 0x1000 := by
  refine ⟨⟨⟨by decide, by decide, by decide, [], by decide, by decide, by simp⟩, fun hc => ?_⟩,
    ⟨by decide, by decide, by decide, [55], by decide, by decide, by simp⟩, fun hc => ?_⟩
  · exact absurd hc.path (by decide)
  · exact absurd hc.inField (by decide)

end ShadowOS.Fs
