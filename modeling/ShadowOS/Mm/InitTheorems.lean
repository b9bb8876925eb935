import ShadowOS.Mm.ExhaustionTheorems
import ShadowOS.Mm.Lemmas.PmmInit
import ShadowOS.Mm.Lemmas.Tables

/-!
# Theorems about setting up paging
-/

namespace ShadowOS.Mm

variable {memmap : List MemmapEntry} {mem : Mem} {hhdmOffset : U64} {layout : KernelLayout} {k k₁ k₂ : State}

/-! ## The loops -/

theorem mapPages_eq (pagemap : U64) (virt phys : U64 → U64) (flags stop : U64) (fuel : Nat) (a : U64) (k : State) :
    mapPages pagemap virt phys flags stop fuel a k =
      ((loopAddrs stop fuel a).map fun a => VmmOp.map (virt a) (phys a) flags).foldl (VmmOp.apply pagemap) k := by
  induction fuel generalizing a k with
  | zero => rfl
  | succ fuel ih =>
      rw [mapPages, loopAddrs]
      split
      · exact ih _ _
      · rfl

/-- The loop passes through the pages below its end. -/
theorem mem_loopAddrs {stop a b : U64} {fuel : Nat} (hstop : stop.toNat % 4096 = 0) (ha : a.toNat % 4096 = 0)
    (hfuel : stop.toNat ≤ a.toNat + 4096 * fuel) :
    b ∈ loopAddrs stop fuel a ↔ b.toNat % 4096 = 0 ∧ a.toNat ≤ b.toNat ∧ b.toNat < stop.toNat := by
  induction fuel generalizing a with
  | zero =>
      rw [loopAddrs]
      simp only [List.not_mem_nil, false_iff]
      omega
  | succ fuel ih =>
      have hlt := stop.isLt
      rw [loopAddrs]
      split
      · rename_i hlo
        rw [BitVec.lt_def] at hlo
        have hnext : (a + pageSize).toNat = a.toNat + 4096 := by
          have hp : pageSize.toNat = 4096 := rfl
          rw [BitVec.toNat_add, hp]
          omega
        rw [List.mem_cons, ih (by omega) (by omega), hnext, ← BitVec.toNat_inj]
        omega
      · rename_i hlo
        rw [BitVec.lt_def] at hlo
        simp only [List.not_mem_nil, false_iff]
        omega

theorem length_loopAddrs_le (stop : U64) {a : U64} (fuel : Nat) (hstop : stop.toNat % 4096 = 0) :
    4096 * (loopAddrs stop fuel a).length ≤ stop.toNat - a.toNat + 4095 := by
  induction fuel generalizing a with
  | zero => exact Nat.zero_le _
  | succ fuel ih =>
      have hlt := stop.isLt
      rw [loopAddrs]
      split
      · rename_i hlo
        rw [BitVec.lt_def] at hlo
        have hnext : (a + pageSize).toNat = a.toNat + 4096 := by
          have hp : pageSize.toNat = 4096 := rfl
          rw [BitVec.toNat_add, hp]
          omega
        have hih := ih (a := a + pageSize)
        rw [hnext] at hih
        rw [List.length_cons]
        omega
      · exact Nat.zero_le _

/-- `vmm_init` is the sequence of its maps under a new root. -/
theorem vmmInit_eq {page : U64} (h : pmmRequestPage k = (page, k₁)) : vmmInit layout k =
    if k₁.higherHalf page = 0 then none
    else some (vmmSwitchPagemap ((kernelOps layout k₁.hhdmOffset ++ directOps k₁.hhdmOffset).foldl
      (VmmOp.apply (k₁.higherHalf page)) (State.memset { k₁ with kernelPagemap := k₁.higherHalf page } (k₁.higherHalf page) 0 4096))
      (k₁.higherHalf page)) := by
  simp only [vmmInit, h, mapImage, mapPages_eq, kernelOps, directOps, imageOps, pagesOps, List.foldl_append]

theorem isMap_of_mem {op : VmmOp} (h : op ∈ kernelOps layout hhdmOffset ++ directOps hhdmOffset) : op.IsMap := by
  simp only [kernelOps, directOps, imageOps, pagesOps, List.mem_append, List.mem_map] at h
  rcases h with (((((⟨a, _, rfl⟩ | ⟨a, _, rfl⟩) | ⟨a, _, rfl⟩) | ⟨a, _, rfl⟩) | ⟨a, _, rfl⟩) | ⟨a, _, rfl⟩) | ⟨a, _, rfl⟩
  all_goals trivial

/-! ## The direct map -/

/-- A page shows the last operation on it, and that is one of the later operations if they have one on it. -/
theorem VmmOp.lookup_append (ops ops' : List VmmOp) (v : U64) :
    (∃ op ∈ ops', pageNo op.virt = pageNo v ∧ lookup (ops ++ ops') v = op.entry &&& addrMask) ∨
      (∀ op ∈ ops', pageNo op.virt ≠ pageNo v) ∧ lookup (ops ++ ops') v = lookup ops v := by
  rw [lookup, List.reverse_append, List.find?_append]
  cases hfind : ops'.reverse.find? fun op => pageNo op.virt = pageNo v with
  | none =>
      rw [List.find?_eq_none] at hfind
      exact .inr ⟨fun op hop hc => hfind op (List.mem_reverse.mpr hop) (decide_eq_true hc), rfl⟩
  | some op =>
      have hsame := List.find?_some hfind
      exact .inl ⟨op, List.mem_reverse.mp (List.mem_of_find?_eq_some hfind), of_decide_eq_true hsame, rfl⟩

/-- Pages have the same number in the direct map if they differ by a multiple of `2 ^ 48`. -/
theorem pageNo_direct_iff {p q : U64} (hp : p.toNat % 4096 = 0) (hq : q.toNat % 4096 = 0) :
    pageNo (p + hhdmOffset) = pageNo (q + hhdmOffset) ↔ p.toNat % 2 ^ 48 = q.toNat % 2 ^ 48 := by
  have hh := hhdmOffset.isLt
  rw [← BitVec.toNat_inj, pageNo_toNat, pageNo_toNat, BitVec.toNat_add, BitVec.toNat_add]
  omega

/-- The last maps of `vmm_init` make the pages below 4 GiB reached. -/
theorem lookup_eq_iff_reached {p : U64} (hp : p.toNat % 4096 = 0) (hsmall : p.toNat < 2 ^ 52) :
    VmmOp.lookup (kernelOps layout hhdmOffset ++ directOps hhdmOffset) (p + hhdmOffset) = p ↔ Reached layout hhdmOffset p := by
  have haddrs : ∀ b, b ∈ loopAddrs 0x100000000 (2 ^ 52) 0 ↔ b.toNat % 4096 = 0 ∧ b.toNat < 2 ^ 32 := by
    intro b
    rw [mem_loopAddrs (by decide) (by decide) (by decide)]
    simp only [BitVec.ofNat_eq_ofNat, BitVec.toNat_ofNat]
    omega
  rcases VmmOp.lookup_append (kernelOps layout hhdmOffset) (directOps hhdmOffset) (p + hhdmOffset) with
    ⟨op, hmem, hsame, heq⟩ | ⟨hnone, heq⟩
  · obtain ⟨q, hq, rfl⟩ := List.mem_map.mp hmem
    obtain ⟨hq0, hqlt⟩ := (haddrs q).mp hq
    have hmod := (pageNo_direct_iff hq0 hp).mp hsame
    rw [heq, VmmOp.entry, id, or_flags_and_addrMask (vmmPresent ||| vmmWrite) hq0 (by omega) (by decide), ← BitVec.toNat_inj,
      Reached]
    constructor
    · exact fun h => .inl (by omega)
    · rintro (h | h)
      · omega
      · omega
  · -- no page of the direct map is the page of `p`
    have hnot : ¬ p.toNat % 2 ^ 48 < 2 ^ 32 := by
      intro hlt
      have hq : (BitVec.ofNat 64 (p.toNat % 2 ^ 48)).toNat = p.toNat % 2 ^ 48 := by
        rw [BitVec.toNat_ofNat]
        omega
      refine hnone (.map (BitVec.ofNat 64 (p.toNat % 2 ^ 48) + hhdmOffset) (BitVec.ofNat 64 (p.toNat % 2 ^ 48))
        (vmmPresent ||| vmmWrite)) ?_ ?_
      · exact List.mem_map.mpr ⟨_, (haddrs _).mpr ⟨by omega, by omega⟩, rfl⟩
      · exact (pageNo_direct_iff (by omega) hp).mpr (by omega)
    rw [heq, Reached]
    constructor
    · exact fun h => .inr ⟨by omega, h⟩
    · rintro (h | h)
      · omega
      · exact h.2

/-! ## The tables -/

/-- With one root and nothing under it, all tables are under the root. -/
theorem PageStack.tabled {all free : List Frame} {r : Frame} (h : PageStack k all free) (hall : all = free ++ [r])
    (hmapped : ∀ f ∈ all, k.higherHalf f.1 ≠ 0) (hsmall : ∀ f ∈ all, f.1.toNat < 2 ^ 52) (hzero : ∀ i, k.mem.word r i = 0) :
    Tabled k all free (fun f => if f = r then some (r, []) else none) r [[]] := by
  refine ⟨⟨h, hmapped, .single fun i => ?_, hsmall, fun f hf => ?_⟩, if_pos rfl, fun {f o p} hf => ?_, fun {p} => ?_, ?_, ?_⟩
  · rw [hzero i]
    exact pte_next_absent (by decide)
  · have hnd := h.all_nodup
    rw [hall, List.nodup_append'] at hnd
    split at hf
    · rename_i he
      rw [he]
      exact ⟨fun hc => hnd.2.2 hc (by simp), h.not_isArray (by rw [hall]; simp)⟩
    · exact absurd rfl hf
  · split at hf
    · cases hf
      rfl
    · cases hf
  · rw [List.mem_singleton]
    constructor
    · rintro rfl
      exact ⟨r, if_pos rfl⟩
    · rintro ⟨f, hf⟩
      split at hf
      · cases hf
        rfl
      · cases hf
  · rw [hall]
    simp
  · rw [hall]
    exact List.prefix_append free [r]

theorem leaf_zero {m : Mem} {r : Frame} (h : ∀ i, m.word r i = 0) (v : U64) : leaf m r v = 0 := by
  have hnext : flaggedPte.next (m.word r (ix v 39)) = none := by
    rw [h]
    exact pte_next_absent (e := 0) (by decide)
  rw [leaf, path, Format.look_cons_none hnext]
  rfl

/-- The root is the frame from the top of the stack, and it holds zeros. -/
theorem PageStack.newRoot {all free : List Frame} {r : Frame} (h : PageStack k all all) (hall : all = free ++ [r])
    (hmapped : ∀ f ∈ all, k.higherHalf f.1 ≠ 0) (hsmall : ∀ f ∈ all, f.1.toNat < 2 ^ 52) :
    ∃ k', pmmRequestPage k = (r.1, k') ∧ SameGlobals k k' ∧
      ∃ k'', State.memset { k' with kernelPagemap := k'.higherHalf r.1 } (k'.higherHalf r.1) 0 4096 = k'' ∧
        Tabled k'' all free (fun f => if f = r then some (r, []) else none) r [[]] ∧ (∀ v, leaf k''.mem r v = 0) ∧
        k''.hhdmOffset = k.hhdmOffset ∧ k''.kernelPagemap = k.higherHalf r.1 ∧ k''.outOfMemory = k.outOfMemory := by
  have h' : Tables k all (free ++ [r]) fun _ => none := by
    rw [← hall]
    exact ⟨h, hmapped, ⟨nofun, nofun, nofun, nofun, nofun⟩, hsmall, fun f hf => absurd rfl hf⟩
  obtain ⟨k', he, ht, hg, hm, _⟩ := h'.request
  refine ⟨k', he, hg, _, rfl, ?_⟩
  have hr : r ∈ all := by
    rw [hall]
    simp
  have hs := ht.stack.frame (Mem.EqOutside.fill k'.mem r 0 le_rfl) (by rintro g rfl; exact ht.stack.not_isArray hr)
  have hzero : ∀ i, (k'.mem.fill r.1 0 4096).word r i = 0 := by
    intro i
    rw [Mem.word_fill_zero, if_pos rfl]
  have hset : State.memset { k' with kernelPagemap := k'.higherHalf r.1 } (k'.higherHalf r.1) 0 4096 =
      { k' with kernelPagemap := k'.higherHalf r.1, mem := k'.mem.fill r.1 0 4096 } := by
    rw [State.memset, show State.physical { k' with kernelPagemap := k'.higherHalf r.1 } (k'.higherHalf r.1) = r.1 from
      State.physical_higherHalf k' r.1]
  rw [hset]
  refine ⟨PageStack.tabled ⟨hs.sub, hs.nodup, hs.all_nodup, hs.idx, hs.max, hs.slot, hs.valid, hs.array, hs.fits, hs.apart⟩ hall
    (fun f hf => ?_) hsmall hzero, leaf_zero hzero, hg.hhdm, hg.higherHalf r.1, hg.oom⟩
  exact (hg.higherHalf f.1).trans_ne (hmapped f hf)

theorem Spent.foldl {pm : U64} {ops : List VmmOp} (h : Spent k) (hops : ∀ op ∈ ops, op.IsMap) :
    Spent (ops.foldl (VmmOp.apply pm) k) := by
  induction ops generalizing k with
  | nil => exact h
  | cons op ops ih =>
      rw [List.forall_mem_cons] at hops
      cases op with
      | map virt phys flags => exact ih (h.vmmMap pm virt phys flags) hops.2
      | unmap virt => exact hops.1.elim

/-- If the frames have run out, the maps have left none. -/
theorem Spent.freePages_foldl {pm : U64} {ops : List VmmOp} (h : Spent k) (hops : ∀ op ∈ ops, op.IsMap)
    (ho : (ops.foldl (VmmOp.apply pm) k).outOfMemory = true) (pm' : U64) :
    (vmmSwitchPagemap (ops.foldl (VmmOp.apply pm) k) pm').freePages = [] :=
  freePages_of_idx (h.foldl hops ho)

theorem VmmOp.foldl_oom {ops : List VmmOp} (h : k.outOfMemory = true) (pm : U64) :
    (ops.foldl (VmmOp.apply pm) k).outOfMemory = true := by
  induction ops generalizing k with
  | nil => exact h
  | cons op ops ih =>
      refine ih (by_contra fun hc => ?_)
      rw [VmmOp.apply_oom (Bool.eq_false_iff.mpr hc)] at h
      cases h

/-- After `vmm_init` the frames that it took for tables are missing at the end of the stack, and the others are mapped as its
maps say. -/
theorem PageStack.vmmInit {all : List Frame} (h : PageStack k all all) (hmapped : ∀ f ∈ all, k.higherHalf f.1 ≠ 0)
    (hsmall : ∀ f ∈ all, f.1.toNat < 2 ^ 52) (hoom : k.outOfMemory = false) (hvmm : vmmInit layout k = some k₁) :
    k₁.freePages = k.freePages.take (k.freePages.length - tablesNeeded layout k.hhdmOffset) ∧
      ∀ p ∈ k₁.freePages, virtToPhys k₁ k₁.kernelPagemap (p + k₁.hhdmOffset) =
        VmmOp.lookup (kernelOps layout k.hhdmOffset ++ directOps k.hhdmOffset) (p + k.hhdmOffset) := by
  have hops : ∀ op ∈ kernelOps layout k.hhdmOffset ++ directOps k.hhdmOffset, op.IsMap := fun _ => isMap_of_mem
  rw [h.freePages_eq, tablesNeeded]
  rcases List.eq_nil_or_concat all with rfl | ⟨free, r, hall⟩
  · -- there is no frame, not even for the root
    rw [vmmInit_eq h.request_empty] at hvmm
    generalize kernelOps layout k.hhdmOffset ++ directOps k.hhdmOffset = ops at hops hvmm ⊢
    generalize hset : State.memset _ _ _ _ = k₀ at hvmm
    have hidx : k.stack.idx = 0 := BitVec.eq_of_toNat_eq h.idx
    have hoom₀ : k₀.outOfMemory = true := by rw [← hset, State.memset_oom]
    have hspent : Spent k₀ := by
      rw [← hset]
      exact fun _ => hidx
    split at hvmm
    · cases hvmm
    · cases hvmm
      have hfree := fun pm => hspent.freePages_foldl hops (VmmOp.foldl_oom hoom₀ pm)
      refine ⟨(hfree _ _).trans ?_, fun p hp => absurd hp (by rw [hfree]; exact List.not_mem_nil)⟩
      rw [List.map_nil, List.take_nil]
  · rw [List.concat_eq_append] at hall
    obtain ⟨k', he, hg, k'', hset, ht, hzero, hhdm, hkernel, hoom'⟩ := h.newRoot hall hmapped hsmall
    rw [vmmInit_eq he, hset, hg.hhdm, hg.higherHalf, if_neg (hmapped r (by rw [hall]; simp))] at hvmm
    generalize kernelOps layout k.hhdmOffset ++ directOps k.hhdmOffset = ops at hops hvmm ⊢
    have hpm : k''.higherHalf r.1 = k.higherHalf r.1 := by rw [State.higherHalf, hhdm, State.higherHalf]
    cases hvmm
    rcases ht.foldl hpm hops hzero with ⟨free', lab', ht', hg', hl⟩ | ⟨ho, hlt⟩
    · generalize ops.foldl (VmmOp.apply (k.higherHalf r.1)) k'' = k₁ at ht' hg' hl
      have hfree : (vmmSwitchPagemap k₁ (k.higherHalf r.1)).freePages = free'.map Subtype.val := ht'.base.stack.freePages_eq
      refine ⟨?_, fun p _ => ?_⟩
      · rw [hfree, ht'.free_eq, List.map_take, List.length_map]
        rfl
      · rw [← hl, leaf, ← leafEntry_eq_look, ← virtToPhys_eq_leafEntry, hg'.higherHalf, hpm]
        have hk : (vmmSwitchPagemap k₁ (k.higherHalf r.1)).kernelPagemap = k.higherHalf r.1 := hg'.kernel.trans hkernel
        have hh : (vmmSwitchPagemap k₁ (k.higherHalf r.1)).hhdmOffset = k.hhdmOffset := hg'.hhdm.trans hhdm
        rw [hk, hh]
        rfl
    · have hspent : Spent k'' := fun hc => absurd (hoom'.symm.trans hc) (by rw [hoom]; decide)
      have hfree := hspent.freePages_foldl hops ho
      refine ⟨(hfree _).trans ?_, fun p hp => absurd hp (by rw [hfree]; exact List.not_mem_nil)⟩
      rw [List.length_map, tablePaths, Nat.sub_eq_zero_of_le hlt.le, List.take_zero]

/-- With a frame for the root `vmm_init` does not halt. -/
theorem PageStack.vmmInit_some {all : List Frame} (h : PageStack k all all) (layout : KernelLayout) (hne : all ≠ [])
    (hmapped : ∀ f ∈ all, k.higherHalf f.1 ≠ 0) (hsmall : ∀ f ∈ all, f.1.toNat < 2 ^ 52) : ∃ k', Mm.vmmInit layout k = some k' := by
  rcases List.eq_nil_or_concat all with rfl | ⟨free, r, hall⟩
  · exact absurd rfl hne
  · rw [List.concat_eq_append] at hall
    obtain ⟨k', he, hg, _⟩ := h.newRoot hall hmapped hsmall
    rw [vmmInit_eq he, if_neg]
    · exact ⟨_, rfl⟩
    · rw [hg.higherHalf]
      exact hmapped r (by rw [hall]; simp)

/-! ## Every free page is mapped -/

/-- A kernel of a few pages, with its stack in the direct map. -/
def sampleLayout : KernelLayout where
  limineRequestsStart := 0xffffffff80000000
  limineRequestsEnd := 0xffffffff80000200
  kernelStackTop := sampleOffset + 0x80000
  textStart := 0xffffffff80001000
  textEnd := 0xffffffff80003000
  rodataStart := 0xffffffff80003000
  rodataEnd := 0xffffffff80004000
  dataStart := 0xffffffff80004000
  dataEnd := 0xffffffff80005000
  printkBuffStart := 0xffffffff80005000
  printkBuffEnd := 0xffffffff80006000
  kernelPhysBase := 0x200000
  kernelVirtBase := 0xffffffff80000000

/-- 64 GiB from 4 GiB on. -/
def highMemmap : List MemmapEntry := [⟨0x100000000, 0x1000000000, .usable⟩]

theorem highMemmap_usable : UsableMap highMemmap := by
  refine ⟨by decide, by decide, by decide, ?_⟩
  simp [highMemmap]

theorem highMemmap_arraySize : arraySize highMemmap = 0x8000000 := by decide

theorem mem_usable_highMemmap {p : U64} (hp : p ∈ usablePages highMemmap) :
    p.toNat % 4096 = 0 ∧ 2 ^ 32 ≤ p.toNat ∧ p.toNat < 2 ^ 32 + 2 ^ 36 := by
  obtain ⟨e, he, hu, hpe⟩ := mem_usablePages.mp hp
  obtain ⟨h0, hlo, hhi⟩ := (highMemmap_usable.aligned he hu).mem_pages.mp hpe
  cases List.mem_singleton.mp he
  exact ⟨h0, hlo, hhi⟩

theorem length_usable_highMemmap : (usablePages highMemmap).length = 2 ^ 24 := by
  have ha := highMemmap_usable.aligned (e := ⟨0x100000000, 0x1000000000, .usable⟩) (List.mem_singleton_self _) rfl
  rw [highMemmap, usablePages_cons, if_pos rfl, List.length_append, ha.pages_length]
  rfl

theorem length_arrayPages_highMemmap : (arrayPages highMemmap).length = 2 ^ 15 := by
  have hentry : arrayEntry highMemmap = some ⟨0x100000000, 0x1000000000, .usable⟩ := by decide
  have ha : MemmapEntry.Aligned ⟨0x100000000, 0x8000000, .usable⟩ := ⟨by decide, by decide, by decide⟩
  simp only [arrayPages, hentry, highMemmap_arraySize]
  exact ha.pages_length

theorem length_addTables_le_add (paths : List (List (Fin 512))) (op : VmmOp) : (addTables paths op).length ≤ paths.length + 3 := by
  have hinsert : ∀ (ps : List (List (Fin 512))) p, (ps.insert p).length ≤ ps.length + 1 := by
    intro ps p
    by_cases hp : p ∈ ps
    · rw [List.insert_of_mem hp]
      exact Nat.le_succ _
    · rw [List.insert_of_not_mem hp, List.length_cons]
  cases op with
  | map virt phys flags =>
      have h₁ := hinsert paths [ix virt 39]
      have h₂ := hinsert (paths.insert [ix virt 39]) [ix virt 39, ix virt 30]
      have h₃ := hinsert ((paths.insert [ix virt 39]).insert [ix virt 39, ix virt 30]) [ix virt 39, ix virt 30, ix virt 21]
      simp only [addTables]
      omega
  | unmap virt => exact Nat.le_add_right _ _

theorem length_tablePaths_le (ops : List VmmOp) : (tablePaths ops).length ≤ 1 + 3 * ops.length := by
  induction ops using List.reverseRecOn with
  | nil => rfl
  | append_singleton ops op ih =>
      have h := length_addTables_le_add (tablePaths ops) op
      rw [tablePaths] at ih h ⊢
      rw [List.foldl_concat, List.length_append, List.length_singleton]
      omega

theorem tablesNeeded_sample_le : tablesNeeded sampleLayout sampleOffset ≤ 2 ^ 22 := by
  have h := length_tablePaths_le (kernelOps sampleLayout sampleOffset ++ directOps sampleOffset)
  have hdirect := length_loopAddrs_le 0x100000000 (a := 0) (2 ^ 52) (by decide)
  have hkernel : (kernelOps sampleLayout sampleOffset).length = 22 := by decide
  have hd : (directOps sampleOffset).length = (loopAddrs 0x100000000 (2 ^ 52) 0).length := List.length_map ..
  have hrange : (0x100000000 : U64).toNat - (0 : U64).toNat + 4095 = 2 ^ 32 + 4095 := rfl
  rw [List.length_append, hkernel, hd] at h
  rw [hrange] at hdirect
  rw [tablesNeeded]
  omega

/-- No page of the direct map above 4 GiB is one of the kernel's. -/
theorem not_reached_sample {p : U64} (h0 : p.toNat % 4096 = 0) (hlo : 2 ^ 32 ≤ p.toNat) (hhi : p.toNat < 2 ^ 32 + 2 ^ 36) :
    ¬ Reached sampleLayout sampleOffset p := by
  rintro (hlt | ⟨_, hlook⟩)
  · omega
  · have hall : (kernelOps sampleLayout sampleOffset).all (fun op => (op.virt - sampleOffset).toNat % 2 ^ 48 < 2 ^ 32 ∨
        2 ^ 37 ≤ (op.virt - sampleOffset).toNat % 2 ^ 48) = true := by decide
    rw [List.all_eq_true] at hall
    rcases VmmOp.lookup_append [] (kernelOps sampleLayout sampleOffset) (p + sampleOffset) with ⟨op, hop, hsame, _⟩ | ⟨_, heq⟩
    · have hfar := of_decide_eq_true (hall op hop)
      have hback : op.virt - sampleOffset + sampleOffset = op.virt := BitVec.sub_add_cancel _ _
      have ho : sampleOffset.toNat = 0xffff800000000000 := rfl
      rw [← hback, ← BitVec.toNat_inj, pageNo_toNat, pageNo_toNat, BitVec.toNat_add, BitVec.toNat_add, ho] at hsame
      omega
    · have hzero : p.toNat = 0 := by
        rw [← hlook, ← List.nil_append (kernelOps sampleLayout sampleOffset), heq]
        rfl
      omega

end ShadowOS.Mm
