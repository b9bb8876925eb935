import ShadowOS.Mm.Lemmas.Kmalloc

/-!
# What `kfree` gives back

The block is taken out of its area, and the area out of the heap when it was the last one.
-/

namespace ShadowOS.Mm

variable {P : Type} {S : PageSource P} {held : P → Set PageRun} {h h' : Heap P} {A E : Area} {b : Block}
  {areas as bs : List Area} {pre post : List Block}

/-! ## An area less -/

namespace Relinked

theorem unlinkPrev {o : Option U64} (hp : Placed h.mem areas) (ho : ∀ a ∈ o, ∃ B ∈ areas, B.addr = a) (v : U64) :
    Relinked areas (fun a r => if o = some a then { r with next := v } else r) h
      (if o.getD 0 ≠ 0 then h.setMajorNext (o.getD 0) v else h) := by
  cases o with
  | none => exact (refl hp).congr fun B hB r => if_neg (by simp)
  | some a =>
      obtain ⟨B, hB, rfl⟩ := ho a rfl
      rw [if_pos (by exact (hp.ok B hB).fits.addr_ne_zero)]
      refine (setNext hp hB v).congr fun C hC r => ?_
      simp only [Option.some.injEq, eq_comm (a := B.addr)]

theorem unlinkNext {o : Option U64} (hp : Placed h.mem areas) (ho : ∀ a ∈ o, ∃ B ∈ areas, B.addr = a) (v : U64) :
    Relinked areas (fun a r => if o = some a then { r with prev := v } else r) h
      (if o.getD 0 ≠ 0 then h.setMajorPrev (o.getD 0) v else h) := by
  cases o with
  | none => exact (refl hp).congr fun B hB r => if_neg (by simp)
  | some a =>
      obtain ⟨B, hB, rfl⟩ := ho a rfl
      rw [if_pos (by exact (hp.ok B hB).fits.addr_ne_zero)]
      refine (setPrev hp hB v).congr fun C hC r => ?_
      simp only [Option.some.injEq, eq_comm (a := B.addr)]

/-- The links around an area lead past it. -/
theorem unlink (hr : h.Rep held (as ++ E :: bs)) {h₀ : Heap P} (hmem : h₀.mem = h.mem) :
    Relinked (as ++ E :: bs)
      (fun a r =>
        { r with
          next := if (as.map Area.addr).getLast? = some a then (h.major E.addr).next else r.next
          prev := if (bs.map Area.addr).head? = some a then (h.major E.addr).prev else r.prev })
      h₀ ((h₀.unlinkMajorPrev E.addr).unlinkMajorNext E.addr) := by
  have hE : E ∈ as ++ E :: bs := by simp
  have hp : Placed h₀.mem (as ++ E :: bs) := hmem ▸ hr.placed
  have hmajor : h₀.major E.addr = h.major E.addr := by rw [Heap.major, hmem, Heap.major]
  have hlinked := hr.linked
  rw [List.map_append, List.map_cons] at hlinked
  have hnext : (h.major E.addr).next = (bs.map Area.addr).head?.getD 0 := hlinked.next_eq
  have hprev : (h.major E.addr).prev = (as.map Area.addr).getLast?.getD 0 := hlinked.prev_eq
  have hlast : (as.map Area.addr).getLast? ≠ some E.addr := fun hmem => by
    have hnd := (List.nodup_append.mp hlinked.nodup).2.2
    exact hnd _ (List.mem_of_getLast? hmem) _ List.mem_cons_self rfl
  have hmemPrev : ∀ a ∈ (as.map Area.addr).getLast?, ∃ B ∈ as ++ E :: bs, B.addr = a := fun a ha => by
    obtain ⟨B, hB, rfl⟩ := List.mem_map.mp (List.mem_of_getLast? ha)
    exact ⟨B, by simp [hB], rfl⟩
  have hmemNext : ∀ a ∈ (bs.map Area.addr).head?, ∃ B ∈ as ++ E :: bs, B.addr = a := fun a ha => by
    obtain ⟨B, hB, rfl⟩ := List.mem_map.mp (List.mem_of_head? ha)
    exact ⟨B, by simp [hB], rfl⟩
  have e := unlinkPrev hp hmemPrev (h.major E.addr).next
  rw [← hprev] at e
  have hh₁ : h₀.unlinkMajorPrev E.addr =
      if (h.major E.addr).prev ≠ 0 then h₀.setMajorNext (h.major E.addr).prev (h.major E.addr).next else h₀ := by
    rw [Heap.unlinkMajorPrev, hmajor]
  rw [← hh₁] at e
  have hmajor₁ : (h₀.unlinkMajorPrev E.addr).major E.addr = h.major E.addr := by
    rw [e.major E hE, if_neg hlast, hmajor]
  have e' := e.trans (unlinkNext e.placed hmemNext (h.major E.addr).prev)
  rw [← hnext] at e'
  have hh₂ : (h₀.unlinkMajorPrev E.addr).unlinkMajorNext E.addr =
      if (h.major E.addr).next ≠ 0 then (h₀.unlinkMajorPrev E.addr).setMajorPrev (h.major E.addr).next (h.major E.addr).prev
      else h₀.unlinkMajorPrev E.addr := by
    rw [Heap.unlinkMajorNext, hmajor₁]
  rw [hh₂]
  refine e'.congr fun B hB r => ?_
  split <;> split <;> rfl

end Relinked

theorem Heap.Rep.removeMajor (hS : S.Ok held) (hr : h.Rep held (as ++ E :: bs)) (hempty : E.blocks = []) :
    (h.removeMajor S E.addr).Rep held (as ++ bs) ∧ Kept h.mem (h.removeMajor S E.addr).mem (as ++ bs) ∧
      (h.removeMajor S E.addr).errorCount = h.errorCount := by
  have hE : E ∈ as ++ E :: bs := by simp
  have hlinked := hr.linked
  rw [List.map_append, List.map_cons] at hlinked
  have e := Relinked.unlink hr (show (h.forgetMajor E.addr).mem = h.mem from rfl)
  obtain ⟨h₃, hh₃⟩ : ∃ h₃, ((h.forgetMajor E.addr).unlinkMajorPrev E.addr).unlinkMajorNext E.addr = h₃ := ⟨_, rfl⟩
  rw [hh₃] at e
  have hok₃ := e.placed.ok E hE
  have hsize : (h₃.major E.addr).size.setWidth 64 = BitVec.ofNat 64 E.bytes := by
    apply BitVec.eq_of_toNat_eq
    rw [BitVec.toNat_setWidth, hok₃.toNat_size, BitVec.toNat_ofNat]
  have hpages : (h₃.major E.addr).pages = E.pages := hok₃.pages
  rcases hfree : S.liballocFree h₃.pages h₃.mem E.addr E.pages with ⟨p', m'⟩
  have hres : h.removeMajor S E.addr =
      { h₃ with allocated := h₃.allocated - BitVec.ofNat 64 E.bytes, pages := p', mem := m' } := by
    simp only [Heap.removeMajor, hh₃, hpages, hfree, hsize]
  have hpages₃ : h₃.pages = h.pages := by rw [e.statics]; rfl
  have hheld : E.run ∈ held h₃.pages := by
    rw [hpages₃, hr.held]
    exact List.mem_map_of_mem hE
  obtain ⟨hheld', hag⟩ := hS.free hheld hfree
  have hne : ∀ B ∈ as ++ bs, B.run ≠ E.run := fun B hB he => by
    have hap := hr.apart_middle B hB
    have hmin := (hr.ok E hE).fits.min_pages
    rw [he] at hap
    simp only [PageRun.Apart, PageRun.start, PageRun.stop, Area.run] at hap
    omega
  have hagree : ∀ B ∈ as ++ bs, h₃.mem.Agree m' B.start B.stop := fun B hB => by
    refine hag B.run ?_
    rw [hheld', hpages₃, hr.held]
    exact ⟨List.mem_map_of_mem (Heap.Rep.mem_middle B hB), hne B hB⟩
  obtain ⟨h', hh'⟩ : ∃ h' : Heap P,
      { h₃ with allocated := h₃.allocated - BitVec.ofNat 64 E.bytes, pages := p', mem := m' } = h' := ⟨_, rfl⟩
  have hmem' : h'.mem = m' := by rw [← hh']
  have hmajor : ∀ B ∈ as ++ bs, h'.major B.addr = { h.major B.addr with
      next := if (as.map Area.addr).getLast? = some B.addr then (h.major E.addr).next else (h.major B.addr).next
      prev := if (bs.map Area.addr).head? = some B.addr then (h.major E.addr).prev else (h.major B.addr).prev } := fun B hB => by
    have hB' := Heap.Rep.mem_middle (A := E) B hB
    rw [Heap.Rep.major_of_agree (e.placed.ok B hB') (hmem' ▸ hagree B hB)]
    exact e.major B hB'
  have hmemAddr : ∀ {a : U64}, a ∈ as.map Area.addr ++ bs.map Area.addr → ∃ B ∈ as ++ bs, B.addr = a := fun ha => by
    rw [← List.map_append] at ha
    exact List.mem_map.mp ha
  have hlive : live (as ++ E :: bs) = live (as ++ bs) := by
    simp [live, hempty]
  rw [hres, hh']
  refine ⟨⟨?_, fun B hB => ?_, ?_, ?_, ?_, ?_, ?_⟩, ?_, ?_⟩
  · have hl := hlinked.take (fun a => (h'.major a).next) (fun a => (h'.major a).prev) (fun a ha => ?_)
      fun a ha => ?_
    · have hroot : h'.memRoot = (as.map Area.addr ++ bs.map Area.addr).head?.getD 0 := by
        have hroot₃ : h'.memRoot = if h.memRoot = E.addr then (h.major E.addr).next else h.memRoot := by
          rw [← hh', e.statics]
          rfl
        rw [hroot₃, hlinked.chain.eq_head]
        cases as with
        | nil =>
            rw [if_pos (by rfl)]
            exact hlinked.next_eq
        | cons B as =>
            have hnd := hlinked.nodup
            have hB : B.addr ≠ E.addr := by
              rw [List.map_cons, List.cons_append, List.nodup_cons] at hnd
              exact fun he => hnd.1 (he ▸ by simp)
            exact if_neg hB
      rw [← hroot, ← List.map_append] at hl
      exact hl
    · obtain ⟨B, hB, rfl⟩ := hmemAddr ha
      exact congrArg Major.next (hmajor B hB)
    · obtain ⟨B, hB, rfl⟩ := hmemAddr ha
      exact congrArg Major.prev (hmajor B hB)
  · exact (e.placed.ok B (Heap.Rep.mem_middle B hB)).of_agree (hmem' ▸ hagree B hB)
  · have happart := hr.apart
    rw [List.map_append, List.map_cons] at happart
    rw [List.map_append]
    exact happart.sublist (List.Sublist.append_left (List.sublist_cons_self _ _) _)
  · have hbest : h'.bestBet = if h.bestBet = E.addr then 0 else h.bestBet := by
      rw [← hh', e.statics]
      rfl
    rw [hbest]
    by_cases hb : h.bestBet = E.addr
    · exact .inl (if_pos hb)
    · rw [if_neg hb]
      refine hr.best.imp_right fun hmem => ?_
      rw [List.map_append, List.map_cons, List.mem_append, List.mem_cons] at hmem
      rw [List.map_append, List.mem_append]
      exact hmem.imp_right fun hmem => hmem.resolve_left hb
  · have halloc : h'.allocated = h.allocated - BitVec.ofNat 64 E.bytes := by
      rw [← hh', e.statics]
      rfl
    have hsum : ((as ++ E :: bs).map Area.bytes).sum = ((as ++ bs).map Area.bytes).sum + E.bytes := by
      simp only [List.map_append, List.map_cons, List.sum_append, List.sum_cons]
      omega
    rw [halloc, hr.allocated, hsum, BitVec.ofNat_add, BitVec.add_sub_cancel]
  · have hinuse : h'.inuse = h.inuse := by
      rw [← hh', e.statics]
      rfl
    rw [hinuse, hr.inuse, hlive]
  · have hp' : h'.pages = p' := by rw [← hh']
    rw [hp', hheld', hpages₃, hr.held]
    ext r
    simp only [List.map_append, List.map_cons, Set.mem_sdiff, Set.mem_singleton_iff]
    constructor
    · rintro ⟨hmem, hrun⟩
      have hmem' : r ∈ as.map Area.run ++ E.run :: bs.map Area.run := hmem
      rw [List.mem_append, List.mem_cons] at hmem'
      exact List.mem_append.mpr (hmem'.imp_right fun hmem => hmem.resolve_left hrun)
    · intro hmem
      have hmem' : r ∈ (as ++ bs).map Area.run := by rw [List.map_append]; exact hmem
      obtain ⟨B, hB, rfl⟩ := List.mem_map.mp hmem'
      refine ⟨?_, hne B hB⟩
      have := List.mem_map_of_mem (f := Area.run) (Heap.Rep.mem_middle (A := E) B hB)
      rw [List.map_append, List.map_cons] at this
      exact this
  · have hkept : Kept h.mem h₃.mem (as ++ bs) := fun b hb => e.kept b (hlive ▸ hb)
    rw [hmem']
    exact hkept.trans (.of_agree (fun B hB => e.placed.ok B (Heap.Rep.mem_middle B hB)) hagree)
  · rw [← hh', e.statics]
    rfl

/-! ## A block less -/

/-- The header of the block can be found, and says that it is none any more. -/
structure Dead (b : Block) (h : Heap P) : Prop where
  note : h.mem (b.ptr - 16) = b.note
  magic : (h.minor b.addr).magic = liballocDead

/-- The block is gone, and the others are as before. As long as the pages are held, it is marked. -/
structure Freed (held : P → Set PageRun) (areas : List Area) (b : Block) (h h' : Heap P) (areas' : List Area) : Prop where
  rep : h'.Rep held areas'
  full : Full areas'
  live : (live areas).Perm (b :: live areas')
  kept : Kept h.mem h'.mem areas'
  dead : ∀ B ∈ areas', B.start ≤ b.ptr.toNat → b.ptr.toNat < B.stop → Dead b h'
  errorCount : h'.errorCount = h.errorCount

theorem live_perm_remove : (live (as ++ A.withBlocks (pre ++ b :: post) :: bs)).Perm
    (b :: live (as ++ A.withBlocks (pre ++ post) :: bs)) := by
  simp only [live_append, live_cons, Area.blocks_withBlocks, List.append_assoc, List.cons_append]
  rw [← List.append_assoc, ← List.append_assoc]
  exact List.perm_middle

theorem Heap.Rep.removeMinor (hr : h.Rep held (as ++ A.withBlocks (pre ++ b :: post) :: bs)) :
    (h.removeMinor A.addr b.addr).Rep held (as ++ A.withBlocks (pre ++ post) :: bs) ∧
      Kept h.mem (h.removeMinor A.addr b.addr).mem (as ++ A.withBlocks (pre ++ post) :: bs) ∧
      Dead b (h.removeMinor A.addr b.addr) ∧ (h.removeMinor A.addr b.addr).errorCount = h.errorCount := by
  have hok := hr.ok _ (List.mem_append_right _ List.mem_cons_self)
  have hd := hok.removeMinor
  generalize h.removeMinor A.addr b.addr = h' at hd
  refine ⟨?_, fun c hc => ?_, ⟨hd.note, hd.dead⟩, ?_⟩
  · refine hr.replace (A := A.withBlocks (pre ++ b :: post)) rfl hd.ok hd.same.outside hd.next hd.prev (by rw [hd.statics]) ?_
    have hinuse : h'.inuse = h.inuse - b.size.setWidth 64 := by rw [hd.statics]
    have hperm : (live (as ++ A.withBlocks (pre ++ b :: post) :: bs)).Perm _ := live_perm_remove
    have hsum := hperm.map fun b : Block => b.size.toNat
    rw [hinuse, hr.inuse, hsum.sum_eq, List.map_cons, List.sum_cons, BitVec.ofNat_add, BitVec.add_comm, ← BitVec.ofNat_toNat,
      BitVec.add_sub_cancel]
  · refine hr.kept_of_same hd.same.outside hd.same.data c ?_
    exact live_perm_remove.mem_iff.mpr (List.mem_cons_of_mem _ hc)
  · rw [hd.statics]

theorem kfree_spec (hS : S.Ok held) (hr : h.Rep held areas) (hfull : Full areas) (hb : b ∈ live areas) :
    ∃ areas', Freed held areas b h (kfree S h b.ptr) areas' := by
  obtain ⟨A, hA, hbA⟩ := mem_live.mp hb
  obtain ⟨as, bs, rfl⟩ := List.append_of_mem hA
  obtain ⟨pre, post, hblocks⟩ := List.append_of_mem hbA
  have hok := hr.ok A hA
  have hbok := hok.blocks b hbA
  have hbounds := hok.fits.block_bounds hbA
  have hne : b.ptr ≠ 0 := fun h0 => by
    rw [h0] at hbounds
    simp at hbounds
  have hmin : h.unalign b.ptr - headerSize = b.addr := hbok.unalign
  have hmagic : (h.minor b.addr).magic = liballocMagic := hbok.magic
  have hmaj : (h.minor b.addr).block = A.addr := hbok.block
  have hAeq := Area.eq_withBlocks hblocks
  rw [hAeq] at hr hfull
  obtain ⟨hr₁, hkept₁, hdead₁, herr₁⟩ := hr.removeMinor
  obtain ⟨h₁, hh₁⟩ : ∃ h₁, h.removeMinor A.addr b.addr = h₁ := ⟨_, rfl⟩
  rw [hh₁] at hr₁ hkept₁ hdead₁ herr₁
  have hkfree : kfree S h b.ptr = if (h₁.major A.addr).first = 0 then h₁.removeMajor S A.addr else h₁.updateBestBet A.addr := by
    simp only [kfree, hne, ↓reduceIte, hmin, hmagic, ne_eq, not_true_eq_false, hmaj, hh₁]
  have hfirst : (h₁.major A.addr).first = ((pre ++ post).map Block.addr).head?.getD 0 :=
    (hr₁.ok _ (List.mem_append_right _ List.mem_cons_self)).linked.chain.eq_head
  have hothers : ∀ B ∈ as ++ bs, B.blocks ≠ [] := fun B hB => hfull B (Heap.Rep.mem_middle B hB)
  rw [hkfree, hfirst, hAeq]
  by_cases hempty : pre ++ post = []
  · rw [if_pos (by rw [hempty]; rfl)]
    obtain ⟨hr₂, hkept₂, herr₂⟩ := hr₁.removeMajor hS hempty
    have hlive : live (as ++ A.withBlocks (pre ++ post) :: bs) = live (as ++ bs) := by simp [live, hempty]
    refine ⟨as ++ bs, hr₂, hothers, hlive ▸ live_perm_remove, ?_, fun B hB hlo hhi => ?_, herr₂.trans herr₁⟩
    · have hkept : Kept h.mem h₁.mem (as ++ bs) := fun c hc => hkept₁ c (hlive ▸ hc)
      exact hkept.trans hkept₂
    · -- the block was in pages that are given back
      have hap : B.stop ≤ A.addr.toNat ∨ A.stop ≤ B.start := hr₁.apart_middle B hB
      omega
  · have hne' : ((pre ++ post).map Block.addr).head?.getD 0 ≠ 0 := by
      obtain ⟨c, cs, hcs⟩ := List.exists_cons_of_ne_nil hempty
      rw [hcs]
      have hc : c ∈ (A.withBlocks (pre ++ post)).blocks := by simp [hcs]
      exact (hr₁.ok _ (List.mem_append_right _ List.mem_cons_self)).fits.block_ne_zero hc
    rw [if_neg hne']
    have hbest : (h₁.updateBestBet A.addr).Rep held (as ++ A.withBlocks (pre ++ post) :: bs) ∧
        (h₁.updateBestBet A.addr).mem = h₁.mem ∧ (h₁.updateBestBet A.addr).errorCount = h₁.errorCount := by
      unfold Heap.updateBestBet
      split
      · dsimp only
        split
        · exact ⟨hr₁.setBest (A := A.withBlocks (pre ++ post)) (by simp), rfl, rfl⟩
        · exact ⟨hr₁, rfl, rfl⟩
      · exact ⟨hr₁, rfl, rfl⟩
    obtain ⟨hr₂, hmem, herr₂⟩ := hbest
    have hdead₂ : Dead b (h₁.updateBestBet A.addr) := ⟨hmem ▸ hdead₁.note, by rw [Heap.minor, hmem]; exact hdead₁.magic⟩
    refine ⟨_, hr₂, fun B hB => ?_, live_perm_remove, hmem ▸ hkept₁, fun _ _ _ _ => hdead₂, herr₂.trans herr₁⟩
    rcases List.mem_append.mp hB with hB | hB
    · exact hothers B (List.mem_append_left _ hB)
    · rcases List.mem_cons.mp hB with rfl | hB
      · exact hempty
      · exact hothers B (List.mem_append_right _ hB)

/-- The pointer of a block that is marked is noticed. -/
theorem Dead.kfree_eq (hd : Dead b h) (hne : b.ptr ≠ 0) : kfree S h b.ptr = { h with errorCount := h.errorCount + 1 } := by
  have hmin : h.unalign b.ptr - headerSize = b.addr := Block.unalign_of_note hd.note
  have hmagic : liballocDead ≠ liballocMagic := by decide
  have hbad : h.badMagic liballocDead = { h with errorCount := h.errorCount + 1 } := rfl
  simp only [kfree, hne, ↓reduceIte, hmin, hd.magic, ne_eq, hmagic, not_false_eq_true, hbad]

end ShadowOS.Mm
