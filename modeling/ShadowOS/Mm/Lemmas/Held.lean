import ShadowOS.Mm.Lemmas.Vmm

/-!
# Frames in use

Frames that were handed out and are no page tables: records of the kernel and data. Mapping and unmapping leave
them alone, and who holds one may write it.
-/

namespace ShadowOS.Mm

variable {k k' : State} {all free free' : List Frame} {lab lab' : Labels} {f g : Frame}

/-- The frame `f` came from the free stack and is in use, but not as a page table. -/
structure Held (all free : List Frame) (lab : Labels) (f : Frame) : Prop where
  mem : f ∈ all
  notFree : f ∉ free
  notTable : lab f = none

namespace Grows

theorem free_sub (h : Grows k free lab k' free' lab') : free' ⊆ free := by
  obtain ⟨used, he, _⟩ := h.taken
  rw [he]
  exact List.subset_append_left _ _

theorem notTable (h : Grows k free lab k' free' lab') (hf : f ∉ free) (hl : lab f = none) : lab' f = none := by
  obtain ⟨used, he, hu⟩ := h.taken
  by_contra hc
  rcases hu f hc with hx | hx
  · exact hx hl
  · exact hf (by rw [he]; simp [hx])

theorem held (h : Grows k free lab k' free' lab') (hf : Held all free lab f) : Held all free' lab' f :=
  ⟨hf.mem, fun hc => hf.notFree (h.free_sub hc), h.notTable hf.notFree hf.notTable⟩

theorem byte (h : Grows k free lab k' free' lab') (hf : Held all free lab f) {x : U64} (hx : Frame.of x = f) :
    k'.mem x = k.mem x := by
  refine h.mem x ?_
  rw [hx]
  rintro (hc | hc)
  · exact hc (h.notTable hf.notFree hf.notTable)
  · exact hf.notFree hc

theorem word (h : Grows k free lab k' free' lab') (hf : Held all free lab f) (i : Fin 512) :
    k'.mem.word f i = k.mem.word f i := by
  refine h.mem.word ?_ i
  rintro (hc | hc)
  · exact hc (h.notTable hf.notFree hf.notTable)
  · exact hf.notFree hc

/-- Frames that were free at the start may be written at the end. -/
theorem write (h : Grows k free lab k' free' lab') {m : Mem} {S : Set Frame} (hm : Mem.EqOutside S k'.mem m)
    (hS : ∀ f ∈ S, f ∈ free) : Grows k free lab { k' with mem := m } free' lab' :=
  ⟨⟨h.globals.hhdm, h.globals.pages, h.globals.kernel, h.globals.oom⟩, h.taken, h.keep,
    h.mem.trans (hm.mono fun f hf => .inr (hS f hf))⟩

end Grows

namespace Owned

theorem mapped (h : Owned k all free lab) (hf : Held all free lab f) : k.higherHalf f.1 ≠ 0 :=
  h.stack.mapped f hf.mem

theorem higherHalf_inj (k : State) : k.higherHalf f.1 = k.higherHalf g.1 ↔ f = g := by
  rw [State.higherHalf, State.higherHalf, BitVec.add_left_inj, Subtype.val_inj]

/-- A request that does not run out gives a zeroed frame. -/
theorem requestPage (h : Owned k all free lab) (hoom : 1 ≤ free.length ∨ (pmmRequestPage k).2.outOfMemory = false) :
    ∃ k' free' f, free = free' ++ [f] ∧ pmmRequestPage k = (f.1, k') ∧ Owned k' all free' lab ∧
      Grows k free lab k' free' lab ∧ Held all free' lab f ∧ f.1 ≠ 0 ∧ k'.mem = k.mem.fill f.1 0 4096 := by
  rcases List.eq_nil_or_concat free with rfl | ⟨free', f, rfl⟩
  · rw [h.request_none] at hoom
    simp at hoom
  · rw [List.concat_eq_append] at h ⊢
    have hf : f ∈ all := h.stack.sub (by simp)
    have hnd := h.stack.nodup
    rw [List.nodup_append'] at hnd
    obtain ⟨k', heq, ho, hg, hm, hl, _⟩ := h.request
    refine ⟨k', free', f, rfl, heq, ho, ⟨hg, ⟨[f], rfl, fun _ => .inl⟩, fun hx => hx, ?_⟩,
      ⟨hf, fun hc => hnd.2.2 hc (by simp), hl⟩, h.stack.nonzero f hf, hm⟩
    rw [hm]
    refine (Mem.EqOutside.fill k.mem f 0 le_rfl).mono ?_
    rintro g rfl
    exact .inr (by simp)

/-- A frame in use may be released: memory changes in the stack array only. -/
theorem releasePage (h : Owned k all free lab) (hf : Held all free lab f) :
    ∃ k', pmmReleasePage k f.1 = k' ∧ Owned k' all (free ++ [f]) lab ∧ SameGlobals k k' ∧
      Mem.EqOutside {g | k.IsArray all.length g} k.mem k'.mem := by
  obtain ⟨v, s, c, he⟩ := h.stack.release_eq hf.mem hf.notFree
  have hmem : Mem.EqOutside {g | k.IsArray all.length g} k.mem (pmmReleasePage k f.1).mem := by
    rw [he]
    exact (h.stack.caches v s c).pageStack.push_mem hf.mem hf.notFree
  refine ⟨_, rfl, ⟨h.stack.release hf.mem hf.notFree, h.tables.congr (fun n hn => ?_), h.small, fun g hg => ?_⟩, ?_, hmem⟩
  · funext i
    exact hmem.word (fun hc => (h.held n hn).2 hc) i
  · have ha : (pmmReleasePage k f.1).IsArray all.length g ↔ k.IsArray all.length g := by
      rw [he]
      exact Iff.rfl
    rw [ha]
    refine ⟨fun hc => ?_, (h.held g hg).2⟩
    rw [List.mem_append, List.mem_singleton] at hc
    rcases hc with hc | rfl
    · exact (h.held g hg).1 hc
    · exact hg hf.notTable
  · rw [he]
    exact ⟨rfl, rfl, rfl, rfl⟩

/-- Who holds a frame may write it. -/
theorem write (h : Owned k all free lab) {m : Mem} {S : Set Frame} (hm : Mem.EqOutside S k.mem m)
    (hS : ∀ f ∈ S, Held all free lab f) : Owned { k with mem := m } all free lab :=
  h.frame hm (fun f hf => ⟨(hS f hf).notTable, h.stack.not_isArray (hS f hf).mem⟩)

/-- Translations do not depend on the frames that are held. -/
theorem look_write (h : Owned k all free lab) {m : Mem} {S : Set Frame} (hm : Mem.EqOutside S k.mem m)
    (hS : ∀ f ∈ S, Held all free lab f) {r : Frame} (hr : lab r = some (r, [])) (v : U64) :
    pte.look m.word r (path v) (ix v 12) = pte.look k.mem.word r (path v) (ix v 12) :=
  h.look_frame hm (fun f hf => (hS f hf).notTable) hr v

end Owned

/-! ## Fields of records -/

/-- The field at offset `d` of the record in frame `f`. -/
theorem physical_field (k : State) (f : Frame) (i : Fin 512) {d : U64} (hd : d = 8 * BitVec.ofNat 64 i.1) :
    k.physical (k.higherHalf f.1 + d) = f.slot i := by
  rw [State.physical_higherHalf_add, hd, Frame.slot]

theorem physical_field_zero (k : State) (f : Frame) : k.physical (k.higherHalf f.1) = f.slot 0 := by
  rw [State.physical_higherHalf, Frame.slot]
  exact (BitVec.add_zero _).symm

theorem load_field (k : State) (f : Frame) (i : Fin 512) {d : U64} (hd : d = 8 * BitVec.ofNat 64 i.1) :
    k.load (k.higherHalf f.1 + d) = k.mem.word f i := by
  rw [State.load, physical_field k f i hd, Mem.word]

theorem load_field_zero (k : State) (f : Frame) : k.load (k.higherHalf f.1) = k.mem.word f 0 := by
  rw [State.load, physical_field_zero, Mem.word]

theorem store_field (k : State) (f : Frame) (i : Fin 512) {d : U64} (hd : d = 8 * BitVec.ofNat 64 i.1) (v : U64) :
    k.store (k.higherHalf f.1 + d) v = { k with mem := k.mem.store64 (f.slot i) v } := by
  rw [State.store, physical_field k f i hd]

theorem memset_frame (k : State) (f : Frame) (c : U8) (n : Nat) :
    k.memset (k.higherHalf f.1) c n = { k with mem := k.mem.fill f.1 c n } := by
  rw [State.memset, State.physical_higherHalf]

theorem store_field_zero (k : State) (f : Frame) (v : U64) :
    k.store (k.higherHalf f.1) v = { k with mem := k.mem.store64 (f.slot 0) v } := by
  rw [State.store, physical_field_zero]

/-! ## New pagemaps -/

/-- A frame in use becomes a root. Its entries are empty or those of another root. -/
theorem Owned.addRoot {r s : Frame} (h : Owned k all free lab) (hr : Held all free lab r) (hs : lab s = some (s, []))
    (hword : ∀ i, k.mem.word r i = 0 ∨ k.mem.word r i = k.mem.word s i) :
    Owned k all free (fun f => if f = r then some (r, []) else lab f) := by
  have hold : ∀ {f l}, lab f = some l → f ≠ r := by
    rintro f l hf rfl
    rw [hr.notTable] at hf
    cases hf
  have hlab : ∀ {f l}, (if f = r then some (r, []) else lab f) = some l → f = r ∧ l = (r, []) ∨ lab f = some l := by
    intro f l hf
    split at hf
    · exact .inl ⟨‹_›, (Option.some.inj hf).symm⟩
    · exact .inr hf
  have hkeep : ∀ {f l}, lab f = some l → (if f = r then some (r, []) else lab f) = some l := by
    intro f l hf
    rw [if_neg (hold hf), hf]
  refine ⟨h.stack, ⟨fun hn => ?_, fun hn => ?_, fun {n o p i m} hn hp hm => ?_, fun {n m l} hn hm => ?_,
    fun {m o p i} hm => ?_⟩, h.small, fun f hf => ?_⟩
  · rcases hlab hn with ⟨rfl, hl⟩ | hn
    · exact (Prod.mk.inj hl).1
    · exact h.tables.root hn
  · rcases hlab hn with ⟨_, hl⟩ | hn
    · rw [(Prod.mk.inj hl).2]
      exact Nat.zero_le _
    · exact h.tables.depth hn
  · rcases hlab hn with ⟨rfl, hl⟩ | hn
    · rcases hword i with hz | hz
      · rw [hz, pte_next_absent (by decide)] at hm
        cases hm
      · rw [hz] at hm
        obtain ⟨o', ho', _⟩ := h.tables.step hs (by simp) hm
        rw [(Prod.mk.inj hl).2]
        exact ⟨o', hkeep ho', fun hc => absurd rfl hc⟩
    · obtain ⟨o', ho', he⟩ := h.tables.step hn hp hm
      exact ⟨o', hkeep ho', he⟩
  · rcases hlab hn with ⟨hnr, rfl⟩ | hn
    · rcases hlab hm with ⟨hmr, _⟩ | hm
      · rw [hnr, hmr]
      · exact absurd (h.tables.root hm).symm (hold hm)
    · rcases hlab hm with ⟨_, rfl⟩ | hm
      · exact absurd (h.tables.root hn).symm (hold hn)
      · exact h.tables.inj hn hm
  · rcases hlab hm with ⟨_, hl⟩ | hm
    · have := (Prod.mk.inj hl).2
      simp at this
    · obtain ⟨n, hn, he⟩ := h.tables.home hm
      exact ⟨n, hkeep hn, he⟩
  · by_cases hfr : f = r
    · rw [hfr]
      exact ⟨hr.notFree, h.stack.not_isArray hr.mem⟩
    · rw [if_neg hfr] at hf
      exact h.held f hf

theorem vmmNewPagemap_oom {pm : U64} (hres : vmmNewPagemap k = (pm, k')) (hoom : k'.outOfMemory = false) :
    (pmmRequestPage k).2.outOfMemory = false := by
  simp only [vmmNewPagemap] at hres
  split at hres
  · rw [← (Prod.mk.inj hres).2] at hoom
    exact hoom
  · split at hres
    · rw [← (Prod.mk.inj hres).2] at hoom
      exact hoom
    · rw [← (Prod.mk.inj hres).2] at hoom
      exact hoom

/-- A new pagemap is a root that has the upper entries of the kernel's. -/
theorem Owned.vmmNewPagemap {s : Frame} (h : Owned k all free lab) (hs : lab s = some (s, []))
    (hk : k.kernelPagemap = k.higherHalf s.1) (hk0 : k.kernelPagemap ≠ 0)
    (hoom : 1 ≤ free.length ∨ (pmmRequestPage k).2.outOfMemory = false) :
    ∃ k' free' r, free = free' ++ [r] ∧ Mm.vmmNewPagemap k = (k'.higherHalf r.1, k') ∧
      Owned k' all free' (fun f => if f = r then some (r, []) else lab f) ∧ SameGlobals k k' ∧ lab r = none ∧
      Mem.EqOutside {r} k.mem k'.mem ∧ ∀ i, k'.mem.word r i = if 256 ≤ i then k.mem.word s i else 0 := by
  obtain ⟨k₁, free₁, r, hfree, he₁, ho₁, hg₁, hr, _, hm₁⟩ := h.requestPage hoom
  have hr0 := ho₁.mapped hr
  have hsr : s ≠ r := by
    rintro rfl
    rw [hr.notTable] at hs
    cases hs
  have hk₁ : k₁.kernelPagemap = k₁.higherHalf s.1 := by
    rw [hg₁.globals.kernel, hk, hg₁.globals.higherHalf]
  have hphys : ∀ f : Frame, State.physical { k₁ with mem := k₁.mem.fill r.1 0 4096 } (k₁.higherHalf f.1 + 8 * 256) =
      f.slot 256 := fun f => physical_field { k₁ with mem := k₁.mem.fill r.1 0 4096 } f 256 rfl
  have hphys' : State.physical { k₁ with mem := k₁.mem.fill r.1 0 4096 } (k₁.kernelPagemap + 8 * 256) = s.slot 256 :=
    (congrArg (fun p => State.physical { k₁ with mem := k₁.mem.fill r.1 0 4096 } (p + 8 * 256)) hk₁).trans (hphys s)
  have hk₁0 : k₁.kernelPagemap ≠ 0 := by rwa [hg₁.globals.kernel]
  have hres : Mm.vmmNewPagemap k = (k₁.higherHalf r.1, { k₁ with
      mem := (k₁.mem.fill r.1 0 4096).copyFrom (r.slot 256) (k₁.mem.fill r.1 0 4096) (s.slot 256) (256 * 8) }) := by
    simp only [Mm.vmmNewPagemap, he₁, hr0, ↓reduceIte, memset_frame, ne_eq, hk₁0, not_false_eq_true, hphys, hphys']
  have hfill := Mem.EqOutside.fill k₁.mem r 0 le_rfl
  have hcopy := Mem.EqOutside.copyFrom (k₁.mem.fill r.1 0 4096) (k₁.mem.fill r.1 0 4096) r 256 (s.slot 256)
    (n := 256 * 8) (by decide)
  have hword := Mem.word_copyFrom (k₁.mem.fill r.1 0 4096) r s 256 r
  have hlen : 8 * (512 - (256 : Fin 512).1) = 256 * 8 := by decide
  rw [hlen] at hword
  generalize (k₁.mem.fill r.1 0 4096).copyFrom (r.slot 256) (k₁.mem.fill r.1 0 4096) (s.slot 256) (256 * 8) = m at *
  have hout : Mem.EqOutside {r} k₁.mem m := hfill.trans hcopy
  have hentry : ∀ i, m.word r i = if 256 ≤ i then k.mem.word s i else 0 := by
    intro i
    rw [hword i, Mem.word_fill_zero, Mem.word_fill_zero, hm₁, Mem.word_fill_zero]
    simp only [true_and, hsr, ↓reduceIte]
  have ho := ho₁.write hout (by rintro f rfl; exact hr)
  refine ⟨{ k₁ with mem := m }, free₁, r, hfree, hres, ho.addRoot hr hs (fun i => ?_),
    ⟨hg₁.globals.hhdm, hg₁.globals.pages, hg₁.globals.kernel, hg₁.globals.oom⟩, hr.notTable, ?_, hentry⟩
  · have hsi : m.word s i = k.mem.word s i := by
      rw [hout.word hsr i, hm₁, Mem.word_fill_zero, if_neg hsr]
    have hi := hentry i
    split at hi
    · exact .inr (hi.trans hsi.symm)
    · exact .inl hi
  · rw [hm₁] at hout
    exact (Mem.EqOutside.fill k.mem r 0 le_rfl).trans hout

end ShadowOS.Mm
