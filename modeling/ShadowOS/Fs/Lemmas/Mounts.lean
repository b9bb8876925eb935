import ShadowOS.Fs.Devfs
import ShadowOS.Fs.Lemmas.Lookup

/-!
# The list of mounts
-/

namespace ShadowOS.Fs

variable {H : Type} {A : Proc.Allocator H} {inUse : H → Set U64} {s s' : State H} {role : U64 → Option Role} {T : Set U64}
  {later : List U64} {path : CString} {M mp ty : U64}

/-! ## The invariant -/

/-- The blocks of the mounts: their records and their strings. Of the first one only the record counts. -/
def mountBlocks (s : Vfs) (later : List U64) : List U64 :=
  s.rootMount :: later.flatMap fun M => [M, (s.mounts M).mountpointAt, (s.mounts M).typeAt]

/-- The mounts are a list with links in both directions, each in blocks of its own. -/
structure Mounted (inUse : H → Set U64) (role : U64 → Option Role) (later : List U64) (s : State H) : Prop where
  chain : Chain (fun m => (s.mounts m).next) 0 s.rootMount (s.rootMount :: later)
  back : Back (fun m => (s.mounts m).prev) 0 (s.rootMount :: later)
  nodup : (mountBlocks s.toVfs later).Nodup
  blocks : ∀ p ∈ mountBlocks s.toVfs later, p ≠ 0 ∧ p ∈ inUse s.heap ∧ role p = none

/-- The new mount is linked after the last one. -/
def linkMount (mounts : U64 → Mount) (rootMount M : U64) (path : CString) (mp ty : U64) : U64 → Mount :=
  let current := lastFrom (fun m => (mounts m).next) 0 maxCells rootMount
  let mounts := Function.update mounts M ⟨0, 0, current, path, mp, ty⟩
  Function.update mounts current { mounts current with next := M }

/-- The path is no mountpoint yet, and leads to a directory. -/
def CanMount (s : Vfs) (path : CString) : Prop :=
  findFrom (fun m => (s.mounts m).next) 0 (fun m => (s.mounts m).mountpoint = path) maxCells s.rootMount = 0 ∧
    vfsLazyLookup s s.rootMount (some path) ≠ 0 ∧
    (s.nodes (vfsLazyLookup s s.rootMount (some path))).type = vnodeDir

/-- A mount was added, in three blocks that were not in use. -/
structure NewMount (inUse : H → Set U64) (s s' : State H) (path : CString) (M mp ty : U64) : Prop where
  vfs : s'.toVfs = { s.toVfs with mounts := linkMount s.mounts s.rootMount M path mp ty }
  fresh : ∀ p ∈ [M, mp, ty], p ≠ 0 ∧ p ∉ inUse s.heap ∧ p ∈ inUse s'.heap
  nodup : [M, mp, ty].Nodup
  heap : inUse s.heap ⊆ inUse s'.heap

/-- What `vfs_mount` can do. -/
theorem vfsMount_cases (hA : Proc.AllocatorSpec A inUse) (path : CString) (typeLength : Nat)
    (hres : vfsMount A s path typeLength = (M, s')) :
    M = 0 ∧ SameVfs inUse s s' ∧ (CanMount s.toVfs path → Proc.Failed A inUse s'.heap) ∨
      CanMount s.toVfs path ∧ ∃ mp ty, NewMount inUse s s' path M mp ty := by
  rcases hk₁ : A.kmalloc s.mm s.heap mountSize with ⟨p, mm₁, heap₁⟩
  rcases hk₂ : A.kmalloc mm₁ heap₁ (BitVec.ofNat 64 (path.length + 1)) with ⟨q, mm₂, heap₂⟩
  rcases hk₃ : A.kmalloc mm₂ heap₂ (BitVec.ofNat 64 (typeLength + 1)) with ⟨t, mm₃, heap₃⟩
  have hheap₁ := hA.kept_of hk₁
  have hheap₂ := hA.kept_of hk₂
  have hheap₃ := hA.kept_of hk₃
  simp only [vfsMount, State.kmalloc, hk₁, hk₂, hk₃] at hres
  split at hres
  · rename_i hused
    obtain ⟨rfl, rfl⟩ := Prod.mk.inj hres
    exact .inl ⟨rfl, ⟨rfl, subset_rfl⟩, fun hc => absurd hc.1 hused⟩
  · rename_i hused
    split at hres
    · rename_i hdir
      obtain ⟨rfl, rfl⟩ := Prod.mk.inj hres
      exact .inl ⟨rfl, ⟨rfl, subset_rfl⟩, fun hc => hdir.elim (fun h0 => absurd h0 hc.2.1) fun ht => absurd hc.2.2 ht⟩
    · rename_i hdir
      rw [not_or, not_not] at hdir
      split at hres
      · rename_i hp
        obtain ⟨rfl, rfl⟩ := Prod.mk.inj hres
        exact .inl ⟨rfl, ⟨rfl, hheap₁⟩, fun _ => Proc.failed_of hk₁ hp⟩
      · rename_i hp
        obtain ⟨hp₀, hp₁⟩ := hA.fresh_of hk₁ hp
        split at hres
        · rename_i hq
          obtain ⟨rfl, rfl⟩ := Prod.mk.inj hres
          refine .inl ⟨rfl, ⟨rfl, fun x hx => ?_⟩, fun _ => (Proc.failed_of hk₂ hq).mono fun h0 => ?_⟩
          · exact hA.freed _ _ _ ⟨hheap₂ (hheap₁ hx), fun hc => hp₀ (hc ▸ hx)⟩
          · exact hA.freed _ _ _ ⟨h0, fun hc => hp hc.symm⟩
        · rename_i hq
          obtain ⟨hq₁, hq₂⟩ := hA.fresh_of hk₂ hq
          split at hres
          · rename_i ht
            obtain ⟨rfl, rfl⟩ := Prod.mk.inj hres
            refine .inl ⟨rfl, ⟨rfl, fun x hx => ?_⟩, fun _ => (Proc.failed_of hk₃ ht).mono fun h0 => ?_⟩
            · refine hA.freed _ _ _ ⟨hA.freed _ _ _ ⟨hheap₃ (hheap₂ (hheap₁ hx)), ?_⟩, fun hc => hp₀ (hc ▸ hx)⟩
              exact fun hc => hq₁ (hc ▸ hheap₁ hx)
            · exact hA.freed _ _ _ ⟨hA.freed _ _ _ ⟨h0, fun hc => hq hc.symm⟩, fun hc => hp hc.symm⟩
          · rename_i ht
            obtain ⟨ht₂, ht₃⟩ := hA.fresh_of hk₃ ht
            obtain ⟨rfl, rfl⟩ := Prod.mk.inj hres
            refine .inr ⟨⟨not_not.mp hused, hdir⟩, q, t, rfl, ?_, ?_, fun x hx => hheap₃ (hheap₂ (hheap₁ hx))⟩
            · simp only [List.forall_mem_cons, List.not_mem_nil, false_imp_iff, implies_true, and_true]
              exact ⟨⟨hp, hp₀, hheap₃ (hheap₂ hp₁)⟩, ⟨hq, fun hc => hq₁ (hheap₁ hc), hheap₃ hq₂⟩,
                ht, fun hc => ht₂ (hheap₂ (hheap₁ hc)), ht₃⟩
            · have hpq : p ≠ q := fun hc => hq₁ (hc ▸ hp₁)
              have hpt : p ≠ t := fun hc => ht₂ (hc ▸ hheap₂ hp₁)
              have hqt : q ≠ t := fun hc => ht₂ (hc ▸ hq₂)
              simp [hpq, hpt, hqt]

/-! ## A new mount -/

theorem linkMount_new (mounts : U64 → Mount) (rootMount : U64) (path : CString) (mp ty : U64)
    (hM : M ≠ lastFrom (fun m => (mounts m).next) 0 maxCells rootMount) :
    linkMount mounts rootMount M path mp ty M =
      ⟨0, 0, lastFrom (fun m => (mounts m).next) 0 maxCells rootMount, path, mp, ty⟩ := by
  simp only [linkMount, Function.update_of_ne hM, Function.update_self]

/-- Only the link of an old mount changes. -/
theorem linkMount_old (mounts : U64 → Mount) (rootMount : U64) (path : CString) (mp ty : U64) {X : U64} (hX : X ≠ M) :
    ∃ next, linkMount mounts rootMount M path mp ty X = { mounts X with next := next } := by
  simp only [linkMount]
  generalize lastFrom (fun m => (mounts m).next) 0 maxCells rootMount = last
  by_cases hl : X = last
  · rw [← hl, Function.update_self, Function.update_of_ne hX]
    exact ⟨M, rfl⟩
  · rw [Function.update_of_ne hl, Function.update_of_ne hX]
    exact ⟨(mounts X).next, rfl⟩

namespace Mounted

theorem same (h : Mounted inUse role later s) (hs : SameVfs inUse s s') : Mounted inUse role later s' := by
  refine ⟨?_, ?_, ?_, fun p hp => ?_⟩
  · rw [hs.vfs]
    exact h.chain
  · rw [hs.vfs]
    exact h.back
  · rw [hs.vfs]
    exact h.nodup
  · rw [hs.vfs] at hp
    obtain ⟨hp0, hpu, hpr⟩ := h.blocks p hp
    exact ⟨hp0, hs.heap hpu, hpr⟩

/-- The mounts stay, and the blocks that were in use keep their roles. -/
theorem keep {role' : U64 → Option Role} (h : Mounted inUse role later s) (hmounts : s'.mounts = s.mounts)
    (hroot : s'.rootMount = s.rootMount) (hheap : inUse s.heap ⊆ inUse s'.heap)
    (hrole : ∀ p ∈ inUse s.heap, role' p = role p) : Mounted inUse role' later s' := by
  have hblocks : mountBlocks s'.toVfs later = mountBlocks s.toVfs later := by simp only [mountBlocks, hmounts, hroot]
  refine ⟨?_, ?_, ?_, fun p hp => ?_⟩
  · rw [hmounts, hroot]
    exact h.chain
  · rw [hmounts, hroot]
    exact h.back
  · rw [hblocks]
    exact h.nodup
  · rw [hblocks] at hp
    obtain ⟨hp0, hpu, hpr⟩ := h.blocks p hp
    exact ⟨hp0, hheap hpu, (hrole p hpu).trans hpr⟩

/-- A mount gets another root. -/
theorem setRoot (h : Mounted inUse role later s) (hroot : s'.rootMount = s.rootMount) (hheap : s'.heap = s.heap)
    {v : U64} (hmounts : s'.mounts = Function.update s.mounts M { s.mounts M with root := v }) :
    Mounted inUse role later s' := by
  have hsame : ∀ X, (s'.mounts X).next = (s.mounts X).next ∧ (s'.mounts X).prev = (s.mounts X).prev ∧
      (s'.mounts X).mountpointAt = (s.mounts X).mountpointAt ∧ (s'.mounts X).typeAt = (s.mounts X).typeAt := by
    intro X
    rw [hmounts]
    by_cases hX : X = M
    · rw [hX, Function.update_self]
      exact ⟨rfl, rfl, rfl, rfl⟩
    · rw [Function.update_of_ne hX]
      exact ⟨rfl, rfl, rfl, rfl⟩
  have hblocks : mountBlocks s'.toVfs later = mountBlocks s.toVfs later := by
    simp only [mountBlocks, hroot, fun X => (hsame X).2.2.1, fun X => (hsame X).2.2.2]
  refine ⟨?_, ?_, ?_, ?_⟩
  · rw [hroot]
    exact h.chain.congr fun X _ => (hsame X).1
  · rw [hroot]
    exact h.back.congr fun X _ => (hsame X).2.1
  · rw [hblocks]
    exact h.nodup
  · rw [hblocks, hheap]
    exact h.blocks

theorem mem_blocks {X : U64} (hX : X ∈ s.rootMount :: later) : X ∈ mountBlocks s.toVfs later := by
  rcases List.mem_cons.mp hX with rfl | hX
  · exact List.mem_cons_self
  · exact List.mem_cons_of_mem _ (List.mem_flatMap.mpr ⟨X, hX, List.mem_cons_self⟩)

theorem last (h : Mounted inUse role later s) :
    ∃ rs, s.rootMount :: later = rs ++ [lastFrom (fun m => (s.mounts m).next) 0 maxCells s.rootMount] :=
  h.chain.lastFrom_eq h.chain.2.1 (length_le_maxCells h.chain.nodup)

theorem push (h : Mounted inUse role later s) (hused : ∀ p, role p ≠ none → p ∈ inUse s.heap)
    (hs : NewMount inUse s s' path M mp ty) : Mounted inUse role (later ++ [M]) s' := by
  have hnew : ∀ p ∈ [M, mp, ty], p ∉ mountBlocks s.toVfs later :=
    fun p hp hc => (hs.fresh p hp).2.1 (h.blocks p hc).2.1
  have hM : ∀ X ∈ s.rootMount :: later, X ≠ M := fun X hX hc => hnew M List.mem_cons_self (hc ▸ mem_blocks hX)
  obtain ⟨rs, hrs⟩ := h.last
  have hlink : s'.mounts = linkMount s.mounts s.rootMount M path mp ty := by rw [hs.vfs]
  have hroot : s'.rootMount = s.rootMount := by rw [hs.vfs]
  have hMl : M ≠ lastFrom (fun m => (s.mounts m).next) 0 maxCells s.rootMount := (hM _ (by rw [hrs]; simp)).symm
  have hMnew := linkMount_new s.mounts s.rootMount path mp ty hMl
  have hold := fun {X} (hX : X ∈ s.rootMount :: later) =>
    linkMount_old s.mounts s.rootMount path mp ty (hM X hX)
  -- the blocks of the old mounts are the same
  have hblocks : mountBlocks s'.toVfs (later ++ [M]) = mountBlocks s.toVfs later ++ [M, mp, ty] := by
    simp only [mountBlocks, hroot, hlink, List.flatMap_append, List.flatMap_cons, List.flatMap_nil, hMnew, List.cons_append,
      List.append_nil]
    congr 2
    refine List.flatMap_congr fun X hX => ?_
    obtain ⟨next, hX'⟩ := hold (List.mem_cons_of_mem _ hX)
    rw [hX']
  refine ⟨?_, ?_, ?_, ?_⟩
  · rw [hroot, hlink]
    have hnext : (fun m => (linkMount s.mounts s.rootMount M path mp ty m).next) =
        Function.update (Function.update (fun m => (s.mounts m).next) M 0)
          (lastFrom (fun m => (s.mounts m).next) 0 maxCells s.rootMount) M := by
      funext X
      simp only [linkMount]
      generalize lastFrom (fun m => (s.mounts m).next) 0 maxCells s.rootMount = last
      by_cases hl : X = last
      · rw [hl, Function.update_self, Function.update_self]
      · rw [Function.update_of_ne hl, Function.update_of_ne hl]
        by_cases hXM : X = M
        · rw [hXM, Function.update_self, Function.update_self]
        · rw [Function.update_of_ne hXM, Function.update_of_ne hXM]
    have hchain := h.chain
    rw [hrs] at hchain
    rw [hnext, ← List.cons_append, hrs, List.append_assoc]
    exact hchain.snoc (hs.fresh M List.mem_cons_self).1 fun hc => hM M (hrs ▸ hc) rfl
  · rw [hroot, hlink, ← List.cons_append]
    refine Back.append.mpr ⟨h.back.congr fun X hX => ?_, ?_, trivial⟩
    · obtain ⟨next, hX'⟩ := hold hX
      rw [hX']
    · show (linkMount s.mounts s.rootMount M path mp ty M).prev = _
      rw [hMnew, hrs, List.getLast?_concat, Option.getD_some]
  · rw [hblocks]
    refine List.nodup_append.mpr ⟨h.nodup, hs.nodup, fun p hp q hq hpq => hnew q hq (hpq ▸ hp)⟩
  · intro p hp
    rw [hblocks] at hp
    rcases List.mem_append.mp hp with hp | hp
    · obtain ⟨hp0, hpu, hpr⟩ := h.blocks p hp
      exact ⟨hp0, hs.heap hpu, hpr⟩
    · obtain ⟨hp0, hpn, hpu⟩ := hs.fresh p hp
      exact ⟨hp0, hpu, by by_contra hc; exact hpn (hused p hc)⟩

/-- The old mounts keep their roots. -/
theorem root_old (h : Mounted inUse role later s) (hs : NewMount inUse s s' path M mp ty) :
    ∀ X ∈ s.rootMount :: later, (s'.mounts X).root = (s.mounts X).root := by
  intro X hX
  have hXM : X ≠ M := fun hc => (hs.fresh M List.mem_cons_self).2.1 (hc ▸ (h.blocks X (mem_blocks hX)).2.1)
  obtain ⟨next, hX'⟩ := linkMount_old s.mounts s.rootMount path mp ty hXM
  have hlink : s'.mounts = linkMount s.mounts s.rootMount M path mp ty := by rw [hs.vfs]
  rw [hlink, hX']

end Mounted

namespace FsInv

/-- The list of mounts is the one of the invariant. -/
theorem later_mem (h : FsInv inUse role T s) (hm : Mounted inUse role later s) :
    ∀ X ∈ later, (s.mounts X).root = 0 ∨ (s.mounts X).root ∈ T := by
  obtain ⟨later', hchain, hlater⟩ := h.mounts
  have hsame : later' = later := (List.cons.inj (hchain.unique hm.chain)).2
  rwa [← hsame]

/-- The mounts change, but for the root of the root mount. -/
theorem setMounts {mounts : U64 → Mount} (h : FsInv inUse role T s) (hnodes : s'.nodes = s.nodes) (hramfs : s'.ramfs = s.ramfs)
    (hroot : s'.rootMount = s.rootMount) (hmounts : s'.mounts = mounts)
    (hsame : (mounts s.rootMount).root = (s.mounts s.rootMount).root)
    (hchain : Chain (fun m => (mounts m).next) 0 s.rootMount (s.rootMount :: later))
    (hlater : ∀ X ∈ later, (mounts X).root = 0 ∨ (mounts X).root ∈ T) (hheap : inUse s.heap ⊆ inUse s'.heap) :
    FsInv inUse role T s' := by
  refine ⟨?_, ?_, ?_, ⟨later, ?_, ?_⟩, ?_, ?_, ?_, h.vnodes, ?_, ?_, fun p hp => hheap (h.used p hp)⟩
  · rw [hnodes, hmounts, hroot, hsame]
    exact h.tree
  · rw [hroot]
    exact h.rootMount
  · rw [hnodes, hmounts, hroot, hsame]
    exact h.mount
  · rw [hmounts, hroot]
    exact hchain
  · rw [hmounts]
    exact hlater
  · rw [hnodes]
    exact h.unlocked
  · rw [hnodes]
    exact h.dirs
  · rw [hnodes]
    exact h.devs
  · rw [hnodes]
    exact h.data
  · rw [hnodes, hramfs]
    exact h.bytes

theorem newMount (h : FsInv inUse role T s) (hm : Mounted inUse role later s) (hs : NewMount inUse s s' path M mp ty) :
    FsInv inUse role T s' := by
  have hroot : s'.rootMount = s.rootMount := by rw [hs.vfs]
  have hlink : s'.mounts = linkMount s.mounts s.rootMount M path mp ty := by rw [hs.vfs]
  have hchain := (hm.push h.used hs).chain
  rw [hroot] at hchain
  obtain ⟨rs, hrs⟩ := hm.last
  have hMl : M ≠ lastFrom (fun m => (s.mounts m).next) 0 maxCells s.rootMount := by
    intro hc
    refine (hs.fresh M List.mem_cons_self).2.1 (hm.blocks M (Mounted.mem_blocks ?_)).2.1
    rw [hrs, ← hc]
    simp
  refine h.setMounts (by rw [hs.vfs]) (by rw [hs.vfs]) hroot rfl (hm.root_old hs _ List.mem_cons_self) hchain
    (fun X hX => ?_) hs.heap
  · rcases List.mem_append.mp hX with hX | hX
    · rw [hm.root_old hs X (List.mem_cons_of_mem _ hX)]
      exact h.later_mem hm X hX
    · rw [List.mem_singleton.mp hX, hlink, linkMount_new s.mounts s.rootMount path mp ty hMl]
      exact .inl rfl

end FsInv

end ShadowOS.Fs
