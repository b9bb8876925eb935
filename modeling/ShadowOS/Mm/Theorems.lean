import ShadowOS.Mm.Lemmas.PmmInit
import ShadowOS.Mm.Lemmas.VmaRun
import ShadowOS.Mm.Lemmas.Spaces

/-!
# Theorems about memory management
-/

namespace ShadowOS.Mm

/-! ## Page frames are conserved -/

/-- The frames of the stack are free or held, and `held` is what the callers hold. -/
structure Accounts (memmap : List MemmapEntry) (k : State) (all free held : List Frame) : Prop where
  stack : FreeStack k all free
  split : (free ++ held).Perm all
  pages : ∀ p, (∃ f ∈ all, f.1 = p) ↔ p ∈ usablePages memmap ∧ p ∉ arrayPages memmap
  array : ∃ e, arrayEntry memmap = some e ∧ k.stack.pages = k.higherHalf e.base
  size : all.length ≤ (arraySize memmap).toNat / 8

namespace Accounts

variable {memmap : List MemmapEntry} {k : State} {all free held : List Frame} {f : Frame}

theorem conserved (h : Accounts memmap k all free held) : Conserved memmap k (held.map Subtype.val) := by
  have hmap : k.freePages ++ held.map Subtype.val = (free ++ held).map Subtype.val := by
    rw [h.stack.freePages_eq, List.map_append]
  refine ⟨?_, fun p => ?_, h.array, ?_, ?_⟩
  · rw [hmap]
    exact (h.split.nodup_iff.mpr h.stack.all_nodup).map Subtype.val_injective
  · rw [hmap, ← h.pages, List.mem_map]
    simp only [h.split.mem_iff]
  · rw [BitVec.le_def, h.stack.idx, h.stack.max]
    exact h.stack.length_le
  · rw [h.stack.max]
    exact h.size

theorem request (h : Accounts memmap k all (free ++ [f]) held) :
    ∃ k', pmmRequestPage k = (f.1, k') ∧ Accounts memmap k' all free (f :: held) := by
  obtain ⟨v, s, he⟩ := h.stack.request_eq
  refine ⟨_, he, h.stack.request, ?_, h.pages, h.array, h.size⟩
  have hs := h.split
  rwa [List.append_assoc, List.singleton_append] at hs

theorem request_empty (h : Accounts memmap k all [] held) :
    ∃ k', pmmRequestPage k = (0, k') ∧ Accounts memmap k' all [] held := by
  have hs := h.stack
  exact ⟨_, hs.request_empty,
    ⟨hs.sub, hs.nodup, hs.all_nodup, hs.idx, hs.max, hs.slot, hs.valid, hs.nonzero, hs.mapped, hs.array, hs.fits,
      hs.apart⟩, h.split, h.pages, h.array, h.size⟩

theorem release (h : Accounts memmap k all free held) (hf : f ∈ held) :
    Accounts memmap (pmmReleasePage k f.1) all (free ++ [f]) (held.erase f) := by
  have hnd := h.split.nodup_iff.mpr h.stack.all_nodup
  rw [List.nodup_append'] at hnd
  have hall : f ∈ all := h.split.mem_iff.mp (List.mem_append_right _ hf)
  have hn : f ∉ free := fun hc => hnd.2.2 hc hf
  obtain ⟨v, s, c, he⟩ := h.stack.release_eq hall hn
  refine ⟨h.stack.release hall hn, ?_, h.pages, ?_, h.size⟩
  · rw [List.append_assoc, List.singleton_append]
    exact ((List.perm_cons_erase hf).symm.append_left free).trans h.split
  · rw [he]
    exact h.array

/-- One call keeps the accounts. -/
theorem exec {s s' : State × List U64} {op : PmmOp}
    (h : ∃ all free held, Accounts memmap s.1 all free held ∧ s.2 = held.map Subtype.val)
    (hs : PmmOp.exec s op = some s') :
    ∃ all free held, Accounts memmap s'.1 all free held ∧ s'.2 = held.map Subtype.val := by
  obtain ⟨k, ps⟩ := s
  obtain ⟨all, free, held, h, rfl⟩ := h
  simp only at h
  cases op with
  | request =>
      rcases List.eq_nil_or_concat free with rfl | ⟨free, f, rfl⟩
      · obtain ⟨k', he, h'⟩ := h.request_empty
        simp only [PmmOp.exec, he, ↓reduceIte, Option.some.injEq] at hs
        subst hs
        exact ⟨all, [], held, h', rfl⟩
      · rw [List.concat_eq_append] at h
        have hf : f ∈ all := h.stack.sub (by simp)
        obtain ⟨k', he, h'⟩ := h.request
        simp only [PmmOp.exec, he, h.stack.nonzero f hf, ↓reduceIte, Option.some.injEq] at hs
        subst hs
        exact ⟨all, free, f :: held, h', rfl⟩
  | release page =>
      simp only [PmmOp.exec] at hs
      split at hs
      · rename_i hp
        cases hs
        obtain ⟨f, hf, rfl⟩ := List.mem_map.mp hp
        exact ⟨all, free ++ [f], held.erase f, h.release hf, (List.map_erase Subtype.val_injective held).symm⟩
      · cases hs

end Accounts

/-- A memory map with two usable entries, the first of which takes the array. -/
def sampleMemmap : List MemmapEntry :=
  [⟨0, 0x1000, .other⟩, ⟨0x1000, 0x9000, .usable⟩, ⟨0xa000, 0x1000, .bootloaderReclaimable⟩, ⟨0x100000, 0x8000, .usable⟩]

def sampleOffset : U64 := 0xffff800000000000

theorem sampleMemmap_boot : BootMap sampleMemmap sampleOffset := by
  have hsize : arraySize sampleMemmap = 0x1000 := by decide
  refine ⟨by decide, by decide, by decide, ?_, ?_, ⟨_, .tail _ (.head _), rfl, by rw [hsize]; decide⟩, ?_⟩
  · simp [sampleMemmap, MemmapEntry.Contains]
    omega
  · simp [sampleMemmap, MemmapEntry.Contains]
  · simp only [sampleMemmap, sampleOffset, MemmapEntry.Contains, List.forall_mem_cons, List.not_mem_nil, false_implies,
      implies_true, and_true, reduceCtorEq, forall_true_left, true_and]
    refine ⟨fun p hp => ?_, fun p hp => ?_⟩
    · simp only [BitVec.toNat_ofNat, BitVec.ofNat_eq_ofNat] at hp
      bv_omega
    · simp only [BitVec.toNat_ofNat, BitVec.ofNat_eq_ofNat] at hp
      bv_omega

def sampleKernel : State :=
  (pmmInit (some sampleMemmap) (State.boot (fun _ => 0) sampleOffset)).getD (State.boot (fun _ => 0) sampleOffset)

/-- After `pmm_init` and any calls, every usable page outside the array is free or held, once. -/
theorem pmm_conserves_pages {memmap : List MemmapEntry} {k k₁ k₂ : State} {ops : List PmmOp} {held : List U64}
    (hboot : BootMap memmap k.hhdmOffset) (hidx : k.stack.idx = 0) (hinit : pmmInit (some memmap) k = some k₁)
    (hrun : run PmmOp.exec (k₁, []) ops = some (k₂, held)) : Conserved memmap k₂ held := by
  obtain ⟨k', all, hk', hb, _⟩ := hboot.pmmInit hidx
  rw [hinit] at hk'
  cases hk'
  have hstart : Accounts memmap k₁ all all [] := ⟨hb.stack, by simp, hb.pages, hb.array, hb.size⟩
  obtain ⟨all', free, held', h, he⟩ := run_invariant Accounts.exec (s := (k₁, [])) ⟨all, all, [], hstart, rfl⟩ hrun
  simp only at h he
  rw [he]
  exact h.conserved

theorem pmm_conserves_pages_sample : ∃ k₁ k₂,
    pmmInit (some sampleMemmap) (State.boot (fun _ => 0) sampleOffset) = some k₁ ∧
      run PmmOp.exec (k₁, []) [.request, .request, .release 0x107000] = some (k₂, [0x106000]) ∧
      Conserved sampleMemmap k₂ [0x106000] := by
  have h : ((pmmInit (some sampleMemmap) (State.boot (fun _ => 0) sampleOffset)).bind fun k =>
      (run PmmOp.exec (k, []) [.request, .request, .release 0x107000]).map Prod.snd) = some [0x106000] := by
    decide
  obtain ⟨k₁, hinit, h⟩ := Option.bind_eq_some_iff.mp h
  obtain ⟨⟨k₂, held⟩, hrun, rfl⟩ := Option.map_eq_some_iff.mp h
  exact ⟨k₁, k₂, hinit, hrun, pmm_conserves_pages sampleMemmap_boot rfl hinit hrun⟩

/-! ## Page tables refine a flat map -/

theorem FreshRoot.owned {k : State} {all free : List Frame} {r : Frame} (h : FreshRoot k all free r) :
    Owned k all free (fun f => if f = r then some (r, []) else none) := by
  refine ⟨h.stack, .single fun i => ?_, h.small, ?_⟩
  · rw [h.zeroed i]
    exact pte_next_absent (by decide)
  · intro f hf
    split at hf
    · rename_i he
      rw [he]
      exact ⟨h.notFree, h.notArray⟩
    · exact absurd rfl hf

/-- A page fresh from the free stack is a fresh root. -/
theorem FreeStack.freshRoot {k : State} {all free : List Frame} {f : Frame} (h : FreeStack k all (free ++ [f]))
    (hs : ∀ f ∈ all, f.1.toNat < 2 ^ 52) : ∃ k', pmmRequestPage k = (f.1, k') ∧ FreshRoot k' all free f := by
  obtain ⟨v, s, he⟩ := h.request_eq
  refine ⟨_, he, h.request, hs, fun i => ?_, fun hc => ?_, h.not_isArray (h.sub (by simp))⟩
  · rw [Mem.word_fill_zero]
    simp
  · have hnd := h.nodup
    rw [List.nodup_append'] at hnd
    exact hnd.2.2 hc (by simp)

/-- The first page that is requested after the start is a fresh root. -/
theorem BootMap.freshRoot {memmap : List MemmapEntry} {k k₁ : State} (hboot : BootMap memmap k.hhdmOffset)
    (hidx : k.stack.idx = 0) (hinit : Mm.pmmInit (some memmap) k = some k₁)
    (hsmall : (usablePages memmap).all (fun p => p.toNat < 2 ^ 52) = true) (hpage : (pmmRequestPage k₁).1 ≠ 0) :
    ∃ all free r, r.1 = (pmmRequestPage k₁).1 ∧ FreshRoot (pmmRequestPage k₁).2 all free r := by
  obtain ⟨k', all, hk', hb, _⟩ := hboot.pmmInit hidx
  cases hinit.symm.trans hk'
  have hs : ∀ f ∈ all, f.1.toNat < 2 ^ 52 := fun f hf =>
    of_decide_eq_true (List.all_eq_true.mp hsmall f.1 ((hb.pages f.1).mp ⟨f, hf, rfl⟩).1)
  rcases List.eq_nil_or_concat all with rfl | ⟨free, r, he⟩
  · rw [hb.stack.request_empty] at hpage
    exact absurd rfl hpage
  · have hst := hb.stack
    rw [List.concat_eq_append] at he
    nth_rewrite 2 [he] at hst
    obtain ⟨k, hk, hr⟩ := hst.freshRoot hs
    rw [hk]
    exact ⟨all, free, r, rfl, hr⟩

theorem sampleKernel_root : ∃ all free r, r.1 = 0x107000 ∧
    FreshRoot (pmmRequestPage sampleKernel).2 all free r := by
  obtain ⟨hpage, hsmall⟩ : (pmmRequestPage sampleKernel).1 = 0x107000 ∧
      (usablePages sampleMemmap).all (fun p => p.toNat < 2 ^ 52) = true := by decide
  obtain ⟨k₁, _, hinit, _⟩ := sampleMemmap_boot.pmmInit (k := State.boot (fun _ => 0) sampleOffset) rfl
  have hk : sampleKernel = k₁ := by rw [sampleKernel, hinit, Option.getD_some]
  rw [hk] at hpage ⊢
  rw [← hpage]
  exact sampleMemmap_boot.freshRoot (k := State.boot (fun _ => 0) sampleOffset) rfl hinit hsmall
    (by rw [hpage]; decide)

theorem sampleKernel_higherHalf {r : Frame} (hr : r.1 = 0x107000) :
    (pmmRequestPage sampleKernel).2.higherHalf r.1 = 0x107000 + sampleOffset := by
  rw [hr]
  decide

namespace VmmOp

/-- The flags leave the bits of the frame alone. -/
theorem flags_and_addrMask {flags : U64} (h : flags &&& ~~~(vmmPresent ||| vmmWrite ||| vmmUser ||| vmmNx) = 0) :
    flags &&& addrMask = 0 := by
  have hm : addrMask = ~~~(vmmPresent ||| vmmWrite ||| vmmUser ||| vmmNx) &&& addrMask := by decide
  rw [hm, ← BitVec.and_assoc, h]
  exact BitVec.zero_and

/-- The entry of an operation holds what its page should translate to. -/
theorem entry_and_addrMask {op : VmmOp} (h : op.Valid) : op.entry &&& addrMask = op.target := by
  cases op with
  | map virt phys flags => exact or_flags_and_addrMask flags h.1 h.2.1 (flags_and_addrMask h.2.2.1)
  | unmap virt => exact BitVec.zero_and

theorem lookup_eq_translate {ops : List VmmOp} (h : ∀ op ∈ ops, op.Valid) (v : U64) : lookup ops v = translate ops v := by
  unfold lookup translate
  cases hfind : ops.reverse.find? fun op => pageNo op.virt = pageNo v with
  | none => rfl
  | some op => exact entry_and_addrMask (h op (List.mem_reverse.mp (List.mem_of_find?_eq_some hfind)))

end VmmOp

theorem FreshRoot.look_zero {k : State} {all free : List Frame} {r : Frame} (h : FreshRoot k all free r) (v : U64) :
    pte.look k.mem.word r (path v) (ix v 12) = 0 := by
  rw [path, Format.look_cons_none]
  · rfl
  · rw [h.zeroed]
    exact pte_next_absent (by decide)

/-- After any maps and unmaps, `virt_to_phys` gives what the last operation on the page says. -/
theorem virtToPhys_eq_translate {k : State} {all free : List Frame} {r : Frame} {pm : U64} {ops : List VmmOp}
    (h : FreshRoot k all free r) (hpm : k.higherHalf r.1 = pm) (hops : ∀ op ∈ ops, op.Valid)
    (hoom : (ops.foldl (VmmOp.apply pm) k).outOfMemory = false) (v : U64) :
    virtToPhys (ops.foldl (VmmOp.apply pm) k) pm v = VmmOp.translate ops v := by
  obtain ⟨free', lab', ho, hg, hl⟩ := VmmOp.foldl_look h.owned (by simp) hpm h.look_zero hoom
  have hpm' := (hg.globals.higherHalf r.1).trans hpm
  rw [← VmmOp.lookup_eq_translate hops, ← hl v, ← virtToPhys_eq_look, hpm']

def sampleOps : List VmmOp := [.map 0x401000 0x5000 0b111, .map 0x402000 0x6000 0b11, .unmap 0x401fff]

theorem virtToPhys_eq_translate_sample :
    virtToPhys (sampleOps.foldl (VmmOp.apply (0x107000 + sampleOffset)) (pmmRequestPage sampleKernel).2)
      (0x107000 + sampleOffset) 0x402abc = VmmOp.translate sampleOps 0x402abc := by
  obtain ⟨all, free, r, hr, hk⟩ := sampleKernel_root
  exact virtToPhys_eq_translate hk (sampleKernel_higherHalf hr) (by decide) (by decide +kernel) 0x402abc

/-! ## Regions of a context -/

/-- In a run over a new context, the regions in use stay aligned and disjoint exactly when every allocation finds no
region in use and the root region ending at a page. Then every call returns. -/
theorem vma_regions_disjoint_iff {k k₁ : State} {all free : List Frame} {lab : Labels} {r : Frame} {ctx : U64}
    {ops : List VmaOp} (hown : Owned k all free lab) (hr : lab r = some (r, [])) (hr0 : k.higherHalf r.1 ≠ 0)
    (hcreate : vmaCreateContext k (k.higherHalf r.1) = (ctx, k₁)) (hoom : k₁.outOfMemory = false)
    (hclean : AllSteps (VmaOp.exec ctx) (VmaOp.Clean ctx) (k₁, []) ops)
    (hrun : run (VmaOp.exec ctx) (k₁, []) ops ≠ none) :
    (AllStates (VmaOp.exec ctx) (fun s => LiveOk s.2) (k₁, []) ops ↔
      AllSteps (VmaOp.exec ctx) (VmaOp.Fits ctx) (k₁, []) ops) ∧
    (AllSteps (VmaOp.exec ctx) (VmaOp.Fits ctx) (k₁, []) ops →
      AllStates (VmaOp.exec ctx) (fun s => VmaOp.Returns ctx s.1) (k₁, []) ops) := by
  have hstart := VmaInv.create hown hr hr0 hcreate hoom
  refine ⟨allStates_iff_allSteps VmaInv.liveOk VmaInv.step (fun h _ he hp => h.fits he hp) hstart hclean hrun, fun hfits => ?_⟩
  exact ((hclean.and hfits).allStates (fun h hc he => h.step hc.1 hc.2 he) hstart).mono (fun _ => VmaInv.returns)

/-- A kernel whose pagemap is empty. -/
def sampleVma : State :=
  let (page, k) := pmmRequestPage sampleKernel
  { k with kernelPagemap := k.higherHalf page }

/-- The sample kernel, evaluated: a context in its pagemap with one region, and two new pagemaps. -/
theorem sampleVma_eval :
    let pm := 0x107000 + sampleOffset
    let ctx := 0x106000 + sampleOffset
    let k := (vmaCreateContext sampleVma pm).2
    (sampleVma.higherHalf 0x107000 = pm ∧ sampleVma.kernelPagemap = pm) ∧
    ((vmaCreateContext sampleVma pm).1 = ctx ∧ k.outOfMemory = false) ∧
    ((VmaOp.exec ctx (k, []) (.alloc 1 3)).all (fun s => VmaContext.pagemap s.1 ctx == s.1.kernelPagemap) = true ∧
      (run (VmaOp.exec ctx) (k, []) [.alloc 1 3, .free 0x1000]).isSome = true ∧
      (VmaRegion.start k (VmaContext.root k ctx) + VmaRegion.size k (VmaContext.root k ctx)).toNat % 4096 = 0) := by
  decide

/-- Two allocations of one page each: the second region starts one byte after the first. -/
theorem vma_regions_overlap :
    (run (VmaOp.exec (vmaCreateContext sampleVma sampleVma.kernelPagemap).1)
      ((vmaCreateContext sampleVma sampleVma.kernelPagemap).2, []) [.alloc 1 3, .alloc 1 3]).map Prod.snd =
        some [⟨0x1001, 1⟩, ⟨0x1000, 1⟩] ∧ ¬ LiveOk [⟨0x1001, 1⟩, ⟨0x1000, 1⟩] := by
  refine ⟨by decide, fun h => ?_⟩
  have := h.aligned ⟨0x1001, 1⟩ (by simp)
  revert this
  decide

theorem sampleVma_owned : ∃ all free lab r, Owned sampleVma all free lab ∧ lab r = some (r, []) ∧ r.1 = 0x107000 := by
  obtain ⟨all, free, r, hr, hk⟩ := sampleKernel_root
  have ho := hk.owned
  exact ⟨all, free, _, r, ⟨⟨ho.stack.sub, ho.stack.nodup, ho.stack.all_nodup, ho.stack.idx, ho.stack.max, ho.stack.slot,
    ho.stack.valid, ho.stack.nonzero, ho.stack.mapped, ho.stack.array, ho.stack.fits, ho.stack.apart⟩, ho.tables, ho.small,
    ho.held⟩, by simp, hr⟩

theorem vma_regions_disjoint_iff_sample :
    AllStates (VmaOp.exec (0x106000 + sampleOffset)) (fun s => LiveOk s.2)
      ((vmaCreateContext sampleVma (0x107000 + sampleOffset)).2, []) [.alloc 1 3, .free 0x1000] := by
  obtain ⟨all, free, lab, r, ho, hr, hr1⟩ := sampleVma_owned
  obtain ⟨⟨hpm, _⟩, ⟨hctx, hoom⟩, hpagemap, hrun, hfits⟩ := sampleVma_eval
  replace hpm : sampleVma.higherHalf r.1 = 0x107000 + sampleOffset := by rw [hr1, hpm]
  have hpm0 : sampleVma.higherHalf r.1 ≠ 0 := by
    rw [hpm]
    decide
  have hcreate : vmaCreateContext sampleVma (sampleVma.higherHalf r.1) =
      (0x106000 + sampleOffset, (vmaCreateContext sampleVma (0x107000 + sampleOffset)).2) := by
    rw [hpm, ← hctx]
  have hclean : AllSteps (VmaOp.exec (0x106000 + sampleOffset)) (VmaOp.Clean (0x106000 + sampleOffset))
      ((vmaCreateContext sampleVma (0x107000 + sampleOffset)).2, []) [.alloc 1 3, .free 0x1000] := by
    refine ⟨(by decide : (3 : U64) &&& addrMask = 0), fun s hs => ⟨?_, fun _ _ => trivial⟩⟩
    rw [hs] at hpagemap
    exact .inl (beq_iff_eq.mp hpagemap)
  refine (vma_regions_disjoint_iff ho hr hpm0 hcreate hoom hclean (Option.isSome_iff_ne_none.mp hrun)).1.mpr
    ⟨⟨rfl, hfits⟩, fun _ _ => ?_⟩
  exact ⟨trivial, fun _ _ => trivial⟩

/-! ## Address spaces -/

/-- In any run of new pagemaps and of maps and unmaps in their lower halves, an operation on one pagemap changes no
translation of another or of the kernel's, and none of its own in the upper half. -/
theorem lower_halves_independent {k : State} {all free : List Frame} {lab : Labels} {s : Frame} {ops : List SpaceOp}
    (hown : Owned k all free lab) (hs : lab s = some (s, [])) (hk : k.kernelPagemap = k.higherHalf s.1)
    (hk0 : k.kernelPagemap ≠ 0) (hops : ∀ op ∈ ops, op.Lower) :
    AllSteps SpaceOp.exec (fun t op => op.Independent t) (k, []) ops := by
  have hstart : Spaces k [] all free lab s [] :=
    ⟨hown, hk, hk0, rfl, by simpa using hs, List.nodup_singleton s, by simp⟩
  have hlower : AllSteps SpaceOp.exec (fun _ op => op.Lower) (k, []) ops := allSteps_of_forall hops
  have hinv := hlower.allStates (I := fun t => ∃ free lab rs, Spaces t.1 t.2 all free lab s rs)
    (fun h _ he => Spaces.step h he) ⟨free, lab, [], hstart⟩
  exact hlower.mono_states (fun h hop => Spaces.independent h hop) hinv

/-- Two pagemaps map the same page, and one of them unmaps it again. -/
theorem lower_halves_independent_sample :
    (run SpaceOp.exec (sampleVma, []) [.new, .new, .call 0 (.map 0x1000 0x5000 0b111), .call 1 (.map 0x1000 0x6000 0b111),
      .call 0 (.unmap 0x1000)]).isSome = true ∧
    AllSteps SpaceOp.exec (fun t op => op.Independent t) (sampleVma, []) [.new, .new, .call 0 (.map 0x1000 0x5000 0b111),
      .call 1 (.map 0x1000 0x6000 0b111), .call 0 (.unmap 0x1000)] := by
  obtain ⟨all, free, lab, r, ho, hr, hr1⟩ := sampleVma_owned
  obtain ⟨⟨hpm, hk⟩, _⟩ := sampleVma_eval
  have hk0 : sampleVma.kernelPagemap ≠ 0 := by
    rw [hk]
    decide
  exact ⟨by decide, lower_halves_independent ho hr (by rw [hr1, hpm, hk]) hk0 (by decide)⟩

end ShadowOS.Mm
