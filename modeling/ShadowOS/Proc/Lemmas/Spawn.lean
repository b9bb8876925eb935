import ShadowOS.Mm.Lemmas.VmaRun
import ShadowOS.Proc.Lemmas.Elf

/-!
# The pagemap of a new process
-/

namespace ShadowOS.Proc

open Mm

variable {k k' : Mm.State} {all free : List Frame} {lab : Labels} {r s h : Frame}

/-! ## Two pagemaps -/

/-- The pagemap `r` of a process and the pagemap `s` of the kernel. -/
structure Roots (k : Mm.State) (all free : List Frame) (lab : Labels) (r s : Frame) : Prop where
  owned : Owned k all free lab
  pm : lab r = some (r, [])
  kernel : lab s = some (s, [])
  kernel_eq : k.kernelPagemap = k.higherHalf s.1

/-- Where the two pagemaps share no table, the process ends up with the translations `T` and the kernel keeps its own. -/
structure Moves (r s : Frame) (T : U64 → U64) (m m' : Mem) : Prop where
  sees : ∀ i, Sees m' s r i ↔ Sees m s r i
  own : ∀ {v}, ¬ Sees m s r (ix v 39) → translation m' r v = T v
  kernel : ∀ {v}, ¬ Sees m s r (ix v 39) → translation m' s v = translation m s v

theorem Moves.refl (r s : Frame) (m : Mem) : Moves r s (translation m r) m m :=
  ⟨fun _ => Iff.rfl, fun _ => rfl, fun _ => rfl⟩

theorem Moves.trans {T T' : U64 → U64} {m m₁ m₂ : Mem} (h : Moves r s T m m₁) (h' : Moves r s T' m₁ m₂) :
    Moves r s T' m m₂ where
  sees i := (h'.sees i).trans (h.sees i)
  own hv := h'.own (fun hc => hv ((h.sees _).mp hc))
  kernel hv := (h'.kernel (fun hc => hv ((h.sees _).mp hc))).trans (h.kernel hv)

theorem Moves.congr {T T' : U64 → U64} {m m' : Mem} (h : Moves r s T m m')
    (he : ∀ v, ¬ Sees m s r (ix v 39) → T v = T' v) : Moves r s T' m m' :=
  ⟨h.sees, fun hv => (h.own hv).trans (he _ hv), h.kernel⟩

/-- Through a table that both share, both find the same frame. -/
theorem translation_of_sees {m : Mem} {v : U64} (h : Sees m s r (ix v 39)) : translation m s v = translation m r v := by
  rcases h with rfl | ⟨_, he⟩
  · rfl
  · simp only [translation, Format.look, path, Format.walk, he]

theorem translation_and_addrMask (m : Mem) (r : Frame) (v : U64) : ∃ e, translation m r v = e &&& addrMask :=
  ⟨_, look_eq_flagged m.word r (path v) (ix v 12)⟩

theorem mapFlags_and_addrMask (user : Bool) : mapFlags user &&& addrMask = 0 := by
  cases user
  · decide
  · decide

theorem or_mapFlags_and_addrMask (e : U64) (user : Bool) : (e ||| mapFlags user) &&& addrMask = e &&& addrMask := by
  rw [BitVec.and_or_distrib_right, mapFlags_and_addrMask]
  exact BitVec.or_zero

theorem mapRange_oom {dest src start size flags offset : U64} {fuel : Nat}
    (hoom : (mapRange dest src start size flags fuel offset k).outOfMemory = false) : k.outOfMemory = false := by
  induction fuel generalizing offset k with
  | zero => exact hoom
  | succ fuel ih =>
      simp only [mapRange] at hoom
      split at hoom
      · have hk := ih hoom
        split at hk
        · exact vmmMap_oom hk
        · exact hk
      · exact hoom

theorem not_onPages_zero (start v : U64) : ¬ OnPages start 0 v := by
  rintro ⟨j, hj, _⟩
  exact absurd hj (Nat.not_lt_zero j)

theorem onPages_succ (start : U64) (n : Nat) (v : U64) :
    OnPages start (n + 1) v ↔ pageNo v = pageNo start ∨ OnPages (start + pageSize) n v := by
  have hnext : ∀ j, start + BitVec.ofNat 64 (j + 1) * pageSize = start + pageSize + BitVec.ofNat 64 j * pageSize := by
    intro j
    rw [BitVec.ofNat_add, BitVec.add_mul, BitVec.add_comm (BitVec.ofNat 64 j * pageSize), BitVec.add_assoc]
    rw [BitVec.one_mul]
  constructor
  · rintro ⟨j, hj, hv⟩
    cases j with
    | zero => exact .inl (by simpa using hv)
    | succ j => exact .inr ⟨j, by omega, by rw [← hnext]; exact hv⟩
  · rintro (hv | ⟨j, hj, hv⟩)
    · exact ⟨0, by omega, by simpa using hv⟩
    · exact ⟨j + 1, by omega, by rw [hnext]; exact hv⟩

namespace Roots

/-- One page of the process is mapped. -/
theorem vmmMap {virt phys flags : U64} (hp : Roots k all free lab r s)
    (hoom : (Mm.vmmMap k (k.higherHalf r.1) virt phys flags).outOfMemory = false) :
    ∃ k' free' lab', Mm.vmmMap k (k.higherHalf r.1) virt phys flags = k' ∧ Roots k' all free' lab' r s ∧ SameGlobals k k' ∧
      Moves r s (fun v => if pageNo v = pageNo virt then (phys ||| flags) &&& addrMask else translation k.mem r v)
        k.mem k'.mem := by
  obtain ⟨free', lab', ho, hg, _, hm⟩ := hp.owned.vmmMap hp.pm (.inr hoom)
  refine ⟨_, free', lab', rfl, ⟨ho, hg.keep hp.pm, hg.keep hp.kernel, ?_⟩, hg.globals, hm.sees_iff hp.pm hp.kernel,
    fun {v} _ => ?_, fun {v} hv => ?_⟩
  · rw [hg.globals.kernel, hp.kernel_eq, hg.globals.higherHalf]
  · have hl := hm.look hp.pm v
    simp only [Sees, true_or, and_true] at hl
    exact hl
  · have hl := hm.look hp.kernel v
    rw [if_neg] at hl
    · exact hl
    · rintro ⟨hno, hs⟩
      rw [← ix_congr hno] at hs
      exact hv hs

/-- The pages of a range that the kernel has are copied. -/
theorem mapRange {start size offset : U64} {n fuel : Nat} (user : Bool) (hp : Roots k all free lab r s)
    (hsize : size.toNat = offset.toNat + 4096 * n) (hfuel : n ≤ fuel)
    (hoom : (Proc.mapRange (k.higherHalf r.1) k.kernelPagemap start size (mapFlags user) fuel offset k).outOfMemory = false) :
    ∃ k' free' lab', Proc.mapRange (k.higherHalf r.1) k.kernelPagemap start size (mapFlags user) fuel offset k = k' ∧
      Roots k' all free' lab' r s ∧ SameGlobals k k' ∧
      Moves r s (fun v => if OnPages (start + offset) n v ∧ translation k.mem s v ≠ 0 then translation k.mem s v
        else translation k.mem r v) k.mem k'.mem := by
  have hpage : pageSize.toNat = 4096 := rfl
  induction n generalizing k free lab offset fuel with
  | zero =>
      have hge : ¬ offset < size := by
        rw [BitVec.lt_def]
        omega
      have hres : Proc.mapRange (k.higherHalf r.1) k.kernelPagemap start size (mapFlags user) fuel offset k = k := by
        cases fuel with
        | zero => rfl
        | succ fuel => simp only [Proc.mapRange, hge, ↓reduceIte]
      refine ⟨k, free, lab, hres, hp, .refl k, (Moves.refl r s k.mem).congr fun v _ => ?_⟩
      rw [if_neg fun hc => not_onPages_zero _ v hc.1]
  | succ n ih =>
      obtain ⟨fuel, rfl⟩ : ∃ f, fuel = f + 1 := ⟨fuel - 1, by omega⟩
      have hlt : offset < size := by
        rw [BitVec.lt_def]
        omega
      have hnext : size.toNat = (offset + pageSize).toNat + 4096 * n := by
        have := size.isLt
        rw [BitVec.toNat_add, hpage, Nat.mod_eq_of_lt (by omega)]
        omega
      have hadd : start + (offset + pageSize) = start + offset + pageSize := (BitVec.add_assoc _ _ _).symm
      have hphys := virtToPhys_eq k s (start + offset)
      rw [← hp.kernel_eq] at hphys
      simp only [Proc.mapRange, hlt, ↓reduceIte, hphys] at hoom ⊢
      by_cases hz : translation k.mem s (start + offset) = 0
      · simp only [hz, ne_eq, not_true_eq_false, ↓reduceIte] at hoom ⊢
        obtain ⟨k', free', lab', he, hp', hg, hm⟩ := ih hp hnext (by omega) hoom
        refine ⟨k', free', lab', he, hp', hg, hm.congr fun v _ => if_congr ?_ rfl rfl⟩
        rw [onPages_succ, hadd, or_and_right]
        refine (or_iff_right ?_).symm
        rintro ⟨hv, hne⟩
        rw [translation_congr hv, hz] at hne
        exact hne rfl
      · simp only [ne_eq, hz, not_false_eq_true, ↓reduceIte] at hoom ⊢
        obtain ⟨k₁, free₁, lab₁, he₁, hp₁, hg₁, hm₁⟩ := hp.vmmMap (mapRange_oom hoom)
        rw [he₁, ← hg₁.higherHalf, ← hg₁.kernel] at hoom ⊢
        obtain ⟨k', free', lab', he, hp', hg, hm⟩ := ih hp₁ hnext (by omega) hoom
        refine ⟨k', free', lab', he, hp', hg₁.trans hg, (hm₁.trans hm).congr fun v hv => ?_⟩
        simp only [hm₁.kernel hv, hm₁.own hv, onPages_succ, hadd]
        by_cases hno : pageNo v = pageNo (start + offset)
        · -- what is written is the kernel's own frame
          have hsame := translation_congr hno k.mem s
          obtain ⟨e, he⟩ := translation_and_addrMask k.mem s (start + offset)
          have hor : (translation k.mem s (start + offset) ||| mapFlags user) &&& addrMask =
              translation k.mem s (start + offset) := by
            rw [or_mapFlags_and_addrMask, he, BitVec.and_assoc, BitVec.and_self]
          simp only [hno, ↓reduceIte, true_or, hor, hsame, ne_eq, hz, not_false_eq_true, and_true, ite_self]
        · simp only [hno, ↓reduceIte, false_or]

/-- The mappings of the kernel's data. A later one wins over an earlier one. -/
theorem spawnMaps (hp : Roots k all free lab r s) (user : Bool) (proc procs : U64)
    (hoom : (Proc.spawnMaps k user (k.higherHalf r.1) proc procs).outOfMemory = false) :
    ∃ k', Proc.spawnMaps k user (k.higherHalf r.1) proc procs = k' ∧ SameGlobals k k' ∧
      Moves r s (fun v => if Copied procs v ∧ translation k.mem s v ≠ 0 then translation k.mem s v
        else if pageNo v = pageNo proc then proc &&& addrMask else translation k.mem r v) k.mem k'.mem := by
  simp only [Proc.spawnMaps, mapRangeToPagemap] at hoom ⊢
  obtain ⟨k₁, _, _, he₁, hp₁, hg₁, hm₁⟩ := hp.vmmMap (mapRange_oom (mapRange_oom hoom))
  rw [he₁, ← hg₁.higherHalf] at hoom ⊢
  obtain ⟨k₂, _, _, he₂, hp₂, hg₂, hm₂⟩ := hp₁.mapRange (n := 4) user rfl (by decide) (mapRange_oom hoom)
  rw [he₂, ← hg₂.higherHalf] at hoom ⊢
  obtain ⟨k₃, _, _, he₃, _, hg₃, hm₃⟩ := hp₂.mapRange (n := 16) user rfl (by decide) hoom
  refine ⟨k₃, he₃, (hg₁.trans hg₂).trans hg₃, ((hm₁.trans hm₂).trans hm₃).congr fun v hv => ?_⟩
  have hv₁ : ¬ Sees k₁.mem s r (ix v 39) := fun hc => hv ((hm₁.sees _).mp hc)
  have hprocs : procs + 0 = procs := BitVec.add_zero _
  have hstart : (0x1000 + 0 : U64) = vmaStart := rfl
  simp only [hm₂.own hv₁, hm₂.kernel hv₁, hm₁.own hv, hm₁.kernel hv, or_mapFlags_and_addrMask, Copied, or_and_right, hprocs,
    hstart]
  by_cases hheap : OnPages vmaStart 16 v ∧ translation k.mem s v ≠ 0
  · rw [if_pos hheap, if_pos (.inr hheap)]
  · rw [if_neg hheap]
    exact if_congr (or_iff_left hheap).symm rfl rfl

/-- The stack of a new process starts where the kernel's heap does, and its pages get frames of their own. -/
theorem spawnStack {user : Bool} {vmaCtx stack : U64} (hp : Roots k all free lab r s) (hr0 : k.higherHalf r.1 ≠ 0)
    (hres : Proc.spawnStack k user (k.higherHalf r.1) = some (vmaCtx, stack, k')) (hoom : k'.outOfMemory = false) :
    stack = vmaStart ∧ ∃ free' lab', Roots k' all free' lab' r s ∧ SameGlobals k k' ∧
      (∀ {f}, Held all free lab f → Held all free' lab' f) ∧
      (∀ {v}, OnPages vmaStart 4 v → ∃ d ∈ free, translation k'.mem r v = d.1) ∧
      ∃ T, Moves r s T k.mem k'.mem ∧ ∀ {v}, ¬ OnPages vmaStart 4 v → T v = translation k.mem r v := by
  rcases hcreate : vmaCreateContext k (k.higherHalf r.1) with ⟨ctx, k₁⟩
  simp only [Proc.spawnStack, hcreate, Option.bind_eq_bind, Option.pure_def, Option.bind_eq_some_iff,
    Option.some.injEq] at hres
  obtain ⟨⟨ptr, k₂⟩, halloc, hres⟩ := hres
  simp only [Prod.mk.injEq] at hres
  obtain ⟨_, rfl, rfl⟩ := hres
  obtain ⟨free₁, c, a, hl, hsize, hnext, hg₁, hm₁⟩ := hp.owned.vmaCreateContext hp.pm hr0 hcreate (vmaAlloc_oom halloc hoom)
  rw [← hl.ctx_eq] at halloc
  obtain ⟨b, free₂, free', lab', hptr, hfree, _, _, ho, hg, _, _, _, _, _, hload⟩ := hl.owned.vmaAlloc hl.pm hl.pm0 hl.ctxHeld
    hl.held hl.held hl.ne hl.pagemap hl.root (hl.findGap_idle hnext) halloc (.inr hoom)
  have hstack : ptr = vmaStart := by
    rw [hptr, hl.start, hsize]
    exact BitVec.add_zero _
  subst hstack
  have hl' := hload (mapFlags_and_addrMask user)
  have hpages : ∀ {v}, pageNo v ∈ pagesFrom vmaStart 0 stackSize.toNat ↔ OnPages vmaStart 4 v := by
    intro v
    constructor
    · rintro ⟨j, _, hj, hv⟩
      exact ⟨j, by simpa [stackSize] using hj, hv⟩
    · rintro ⟨j, hj, hv⟩
      exact ⟨j, Nat.zero_le j, by simpa [stackSize] using hj, hv⟩
  -- the context is no table, so the tables are as they were
  have hnot : ∀ f, lab f ≠ none → f ∉ ({f | f ∈ free} : Set Frame) := fun f hf hc => (hp.owned.held f hf).1 hc
  have hword : ∀ n, lab n ≠ none → k₁.mem.word n = k.mem.word n := fun n hn => funext (hm₁.word (hnot n hn))
  have hsees : ∀ i, Sees k₁.mem s r i ↔ Sees k.mem s r i := by
    intro i
    simp only [Sees, hword s (by simp [hp.kernel]), hword r (by simp [hp.pm])]
  have hlook : ∀ {n}, lab n = some (n, []) → ∀ v, translation k₁.mem n v = translation k.mem n v := fun hn v =>
    hp.owned.tables.look_congr hword hn (by simp [path])
  have hgl : SameGlobals k k₂ := hg₁.globals.trans ⟨hg.globals.hhdm, hg.globals.pages, hg.globals.kernel, hg.globals.oom⟩
  refine ⟨rfl, free', lab', ⟨ho, hg.keep hp.pm, hg.keep hp.kernel, ?_⟩, hgl, fun hf => hg.held (hg₁.held hf),
    fun {v} hv => ?_, translation k₂.mem r, ⟨fun i => (hl'.sees hp.kernel i).trans (hsees i), fun _ => rfl,
    fun {v} hv => ?_⟩, fun {v} hv => ?_⟩
  · rw [hgl.kernel, hp.kernel_eq, hgl.higherHalf]
  · obtain ⟨d, hd, hdf, _⟩ := hl'.page (hpages.mpr hv)
    exact ⟨d, hg₁.free_sub (by rw [hfree]; exact List.mem_append_left _ hdf), hd⟩
  · rw [hl'.other hp.kernel fun hc => hv ((hsees _).mp hc.2), hlook hp.kernel]
  · rw [hl'.notMem hp.pm fun hc => hv (hpages.mp hc), hlook hp.pm]

end Roots

/-- The pagemap `r` of a process beside the kernel's pagemap `s`, whose heap has the frame `h` at its start. -/
structure Beside (k : Mm.State) (all free : List Frame) (lab : Labels) (r s h : Frame) : Prop where
  owned : Owned k all free lab
  pm : lab r = some (r, [])
  pm0 : k.higherHalf r.1 ≠ 0
  kernel : lab s = some (s, [])
  kernel_eq : k.kernelPagemap = k.higherHalf s.1
  apart : ¬ Sees k.mem s r (ix vmaStart 39)
  heap : translation k.mem s vmaStart = h.1
  held : Held all free lab h

theorem Beside.roots (hb : Beside k all free lab r s h) : Roots k all free lab r s :=
  ⟨hb.owned, hb.pm, hb.kernel, hb.kernel_eq⟩

theorem Beside.heap_ne_zero (hb : Beside k all free lab r s h) : h.1 ≠ 0 := hb.owned.stack.nonzero h hb.held.mem

/-- The mappings of the kernel's data bring its heap. -/
theorem Beside.spawnMaps (hb : Beside k all free lab r s h) (user : Bool) (proc procs : U64)
    (hoom : (Proc.spawnMaps k user (k.higherHalf r.1) proc procs).outOfMemory = false) :
    ∃ k', Proc.spawnMaps k user (k.higherHalf r.1) proc procs = k' ∧ SameGlobals k k' ∧
      translation k'.mem r vmaStart = h.1 := by
  obtain ⟨k', he, hg, hm⟩ := hb.roots.spawnMaps user proc procs hoom
  have hcopied : Copied procs vmaStart := .inr ⟨0, by decide, rfl⟩
  refine ⟨k', he, hg, ?_⟩
  rw [hm.own hb.apart, if_pos ⟨hcopied, by rw [hb.heap]; exact hb.heap_ne_zero⟩, hb.heap]

/-- The first page of the stack gets a frame other than that of the heap. -/
theorem Beside.spawnStack {user : Bool} {vmaCtx stack : U64} (hb : Beside k all free lab r s h)
    (hres : Proc.spawnStack k user (k.higherHalf r.1) = some (vmaCtx, stack, k')) (hoom : k'.outOfMemory = false) :
    stack = vmaStart ∧ ∃ free' lab', Beside k' all free' lab' r s h ∧ SameGlobals k k' ∧
      translation k'.mem r vmaStart ≠ h.1 := by
  obtain ⟨hstack, free', lab', hp, hg, hheld, hpage, T, hm, _⟩ := hb.roots.spawnStack hb.pm0 hres hoom
  refine ⟨hstack, free', lab', ⟨hp.owned, hp.pm, ?_, hp.kernel, hp.kernel_eq, ?_, ?_, hheld hb.held⟩, hg, fun he => ?_⟩
  · rw [hg.higherHalf]
    exact hb.pm0
  · rw [hm.sees]
    exact hb.apart
  · rw [hm.kernel hb.apart, hb.heap]
  · obtain ⟨d, hdf, hd⟩ := hpage (v := vmaStart) ⟨0, by decide, rfl⟩
    rw [hd] at he
    rw [Subtype.ext he] at hdf
    exact hb.held.notFree hdf

/-! ## From a new pagemap to a loaded one -/

/-- A new pagemap has nothing in the lower half, so it shares no table there. -/
theorem Beside.create {pm : U64} (hown : Owned k all free lab) (hs : lab s = some (s, []))
    (hk : k.kernelPagemap = k.higherHalf s.1) (hk0 : k.kernelPagemap ≠ 0) (hheap : translation k.mem s vmaStart = h.1)
    (hheld : Held all free lab h) (hres : vmmNewPagemap k = (pm, k')) (hoom : k'.outOfMemory = false) :
    ∃ free' lab' r, pm = k'.higherHalf r.1 ∧ Beside k' all free' lab' r s h := by
  obtain ⟨k₁, free', r, hfree, he, ho, hg, hr, hm, hw⟩ := hown.vmmNewPagemap hs hk hk0 (.inr (vmmNewPagemap_oom hres hoom))
  rw [hres] at he
  obtain ⟨rfl, rfl⟩ := Prod.mk.inj he
  have hrf : r ∈ free := by rw [hfree]; simp
  have hsr : s ≠ r := by
    rintro rfl
    rw [hs] at hr
    cases hr
  have hhr : h ≠ r := by
    rintro rfl
    exact hheld.notFree hrf
  refine ⟨free', _, r, rfl, ho, by simp, ?_, by simp [hsr, hs], ?_, ?_, ?_, ?_⟩
  · rw [hg.higherHalf]
    exact hown.stack.mapped r (hown.stack.sub hrf)
  · rw [hg.kernel, hk, hg.higherHalf]
  · have hz : k'.mem.word r (ix vmaStart 39) = 0 := by
      rw [hw, if_neg (by decide)]
    simp only [Sees, hsr, hz, pte_next_absent (by decide : (0 : U64) &&& 1 = 0), ne_eq, not_true_eq_false, false_and,
      or_self, not_false_eq_true]
  · rw [← hheap]
    exact hown.look_frame hm (by rintro f rfl; exact hr) hs vmaStart
  · refine ⟨hheld.mem, fun hc => hheld.notFree (by rw [hfree]; exact List.mem_append_left _ hc), ?_⟩
    rw [if_neg hhr]
    exact hheld.notTable

theorem elfLoadBinary_oom {image : Mem} {pm entry : U64} (hres : elfLoadBinary k image pm = (entry, k')) (hentry : entry ≠ 0)
    (hoom : k'.outOfMemory = false) : k.outOfMemory = false := by
  simp only [elfLoadBinary] at hres
  split at hres
  · split at hres
    · rename_i k₁ hload
      obtain ⟨_, rfl⟩ := Prod.mk.inj hres
      exact elfLoadSegments_oom hload hoom
    · exact absurd (Prod.mk.inj hres).1.symm hentry
  · exact absurd (Prod.mk.inj hres).1.symm hentry

/-- Loading a program leaves the lower half of the kernel alone. -/
theorem Beside.elfLoad {image : Mem} {entry : U64} (hb : Beside k all free lab r s h)
    (hres : elfLoadBinary k image (k.higherHalf r.1) = (entry, k')) (hentry : entry ≠ 0) (hoom : k'.outOfMemory = false) :
    ∃ free' lab', Beside k' all free' lab' r s h ∧ SameGlobals k k' := by
  simp only [elfLoadBinary] at hres
  split at hres
  · split at hres
    · rename_i k₁ hload
      obtain ⟨_, rfl⟩ := Prod.mk.inj hres
      obtain ⟨k₁', free', lab', hload', ho, hg, hl, _⟩ := elfLoadSegments_loaded image hb.owned hb.pm (.inr ⟨k₁, hload, hoom⟩)
      cases hload.symm.trans hload'
      refine ⟨free', lab', ⟨ho, hg.keep hb.pm, ?_, hg.keep hb.kernel, ?_, ?_, ?_, hg.held hb.held⟩, hg.globals⟩
      · rw [hg.globals.higherHalf]
        exact hb.pm0
      · rw [hg.globals.kernel, hb.kernel_eq, hg.globals.higherHalf]
      · rw [hl.sees hb.kernel]
        exact hb.apart
      · rw [hl.other hb.kernel (fun hc => hb.apart hc.2), hb.heap]
    · exact absurd (Prod.mk.inj hres).1.symm hentry
  · exact absurd (Prod.mk.inj hres).1.symm hentry

/-! ## The heap -/

variable {H : Type}

/-- What `kmalloc` does to memory: it may take frames and map them on the kernel's heap, and leaves the rest alone. -/
structure KmallocSpec (A : Allocator H) : Prop where
  oom : ∀ k heap n, (A.kmalloc k heap n).2.1.outOfMemory = false → k.outOfMemory = false
  beside : ∀ {k heap n all free lab r s h}, Beside k all free lab r s h → (A.kmalloc k heap n).2.1.outOfMemory = false →
    ∃ free' lab' h', Beside (A.kmalloc k heap n).2.1 all free' lab' r s h' ∧ SameGlobals k (A.kmalloc k heap n).2.1

theorem spawnMaps_oom {user : Bool} {pm proc procs : U64} (hoom : (spawnMaps k user pm proc procs).outOfMemory = false) :
    k.outOfMemory = false := vmmMap_oom (mapRange_oom (mapRange_oom hoom))

theorem spawnStack_oom {user : Bool} {pm vmaCtx stack : U64} (hres : spawnStack k user pm = some (vmaCtx, stack, k'))
    (hoom : k'.outOfMemory = false) : k.outOfMemory = false := by
  rcases hcreate : vmaCreateContext k pm with ⟨ctx, k₁⟩
  simp only [spawnStack, hcreate, Option.bind_eq_bind, Option.pure_def, Option.bind_eq_some_iff, Option.some.injEq] at hres
  obtain ⟨⟨ptr, k₂⟩, halloc, hres⟩ := hres
  simp only [Prod.mk.injEq] at hres
  obtain ⟨_, _, rfl⟩ := hres
  exact pmmRequestPage_oom (vmaCreateContext_oom hcreate (vmaAlloc_oom halloc hoom))

end ShadowOS.Proc
