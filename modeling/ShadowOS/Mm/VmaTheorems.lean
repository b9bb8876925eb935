import ShadowOS.Mm.Theorems
import ShadowOS.Mm.Lemmas.Links
import ShadowOS.Mm.Lemmas.Undo

/-!
# Lists of regions over whole runs
-/

namespace ShadowOS.Mm

/-! ## Back links -/

/-- In a run over a new context whose allocations find no gap, the regions stay doubly linked, no region in use is missing
from the list, and every call returns. -/
theorem vma_links_kept {k k₁ : State} {all free : List Frame} {lab : Labels} {r : Frame} {ctx : U64} {ops : List VmaOp}
    (hown : Owned k all free lab) (hr : lab r = some (r, [])) (hr0 : k.higherHalf r.1 ≠ 0)
    (hcreate : vmaCreateContext k (k.higherHalf r.1) = (ctx, k₁)) (hoom : k₁.outOfMemory = false)
    (hkeeps : AllSteps (VmaOp.call ctx) (VmaOp.KeepsLinks ctx) (k₁, []) ops) :
    AllStates (VmaOp.call ctx) (fun s => (∃ rs, DoublyLinked s.1 ctx rs ∧ s.2.Subperm (rs.map (VmaRegion.start s.1))) ∧
      VmaOp.Returns ctx s.1) (k₁, []) ops :=
  (hkeeps.allStates VmaLinkInv.step (VmaLinkInv.create hown hr hr0 hcreate hoom)).mono (fun _ => VmaLinkInv.linked)

/-- The condition where the regions are known and the context is the kernel's. -/
def VmaOp.KeepsLinksOn (ctx : U64) (rs : List U64) : State × List U64 → VmaOp → Prop
  | (k, _), .alloc size flags => RegionsOf k ctx rs ∧ (rs.all fun region => VmaRegion.next k region = 0 ∨
      VmaRegion.start k (VmaRegion.next k region) ≤ VmaRegion.start k region + VmaRegion.size k region) = true ∧
        flags &&& addrMask = 0 ∧ 4 * size.toNat + 1 ≤ k.stack.idx.toNat
  | (k, _), .free _ => VmaContext.pagemap k ctx = k.kernelPagemap

instance (ctx : U64) (rs : List U64) : ∀ s op, Decidable (VmaOp.KeepsLinksOn ctx rs s op)
  | (_, _), .alloc _ _ => inferInstanceAs (Decidable (_ ∧ _))
  | (_, _), .free _ => inferInstanceAs (Decidable (_ = _))

theorem VmaOp.KeepsLinksOn.keepsLinks {ctx : U64} {rs : List U64} {s : State × List U64} {op : VmaOp}
    (h : op.KeepsLinksOn ctx rs s) : op.KeepsLinks ctx s := by
  cases op with
  | alloc size flags =>
      obtain ⟨hrs, hgap, hrest⟩ := h
      refine ⟨fun rs' hrs' region hregion => ?_, hrest⟩
      rw [hrs'.unique hrs] at hregion
      exact of_decide_eq_true (List.all_eq_true.mp hgap region hregion)
  | free ptr => exact .inl h

/-- A new context in the sample kernel. -/
def sampleContext : State := (vmaCreateContext sampleVma (0x107000 + sampleOffset)).2

theorem sampleContext_create : ∃ all free lab r, Owned sampleVma all free lab ∧ lab r = some (r, []) ∧
    sampleVma.higherHalf r.1 ≠ 0 ∧
    vmaCreateContext sampleVma (sampleVma.higherHalf r.1) = (0x106000 + sampleOffset, sampleContext) := by
  obtain ⟨all, free, lab, r, ho, hr, hr1⟩ := sampleVma_owned
  obtain ⟨⟨hpm, _⟩, ⟨hctx, _⟩, _⟩ := sampleVma_eval
  replace hpm : sampleVma.higherHalf r.1 = 0x107000 + sampleOffset := by rw [hr1, hpm]
  refine ⟨all, free, lab, r, ho, hr, ?_, ?_⟩
  · rw [hpm]
    decide
  · rw [hpm, ← hctx, sampleContext]

theorem sampleContext_outOfMemory : sampleContext.outOfMemory = false := sampleVma_eval.2.1.2

/-- Allocations in the sample context, evaluated step by step. -/
theorem sampleContext_eval :
    let ctx := 0x106000 + sampleOffset
    VmaOp.KeepsLinksOn ctx [0x105000 + sampleOffset] (sampleContext, []) (.alloc 1 3) ∧
    (run (VmaOp.call ctx) (sampleContext, []) [.alloc 1 3]).all (fun s =>
      VmaOp.KeepsLinksOn ctx [0x105000 + sampleOffset, 0x104000 + sampleOffset] s (.alloc 1 3)) = true ∧
    (run (VmaOp.call ctx) (sampleContext, []) [.alloc 1 3, .alloc 1 3]).all (fun s =>
      VmaOp.KeepsLinksOn ctx [] s (.free 0x1000)) = true := by
  decide

theorem vma_links_kept_sample :
    AllStates (VmaOp.call (0x106000 + sampleOffset)) (fun s => (∃ rs, DoublyLinked s.1 (0x106000 + sampleOffset) rs ∧
      s.2.Subperm (rs.map (VmaRegion.start s.1))) ∧ VmaOp.Returns (0x106000 + sampleOffset) s.1) (sampleContext, [])
      [.alloc 1 3, .alloc 1 3, .free 0x1000] := by
  obtain ⟨all, free, lab, r, ho, hr, hpm0, hcreate⟩ := sampleContext_create
  obtain ⟨h₁, h₂, h₃⟩ := sampleContext_eval
  refine vma_links_kept ho hr hpm0 hcreate sampleContext_outOfMemory
    ⟨h₁.keepsLinks, fun s₁ hs₁ => ⟨?_, fun s₂ hs₂ => ⟨?_, fun _ _ => trivial⟩⟩⟩
  · rw [run_cons_some hs₁, run_nil, Option.all_some, decide_eq_true_eq] at h₂
    exact h₂.keepsLinks
  · rw [run_cons_some hs₁, run_cons_some hs₂, run_nil, Option.all_some, decide_eq_true_eq] at h₃
    exact h₃.keepsLinks

/-- A region goes into the gap before the region at `0x1002`, whose back link stays as it was. When that region is freed,
the new one drops out of the list although it is in use. -/
theorem vma_links_stale :
    (run (VmaOp.call (0x106000 + sampleOffset)) (sampleContext, [])
      [.alloc 1 3, .alloc 1 3, .alloc 0 3, .free 0x1001, .alloc 0 3]).any (fun s =>
        RegionsOf s.1 (0x106000 + sampleOffset)
          [0x105000 + sampleOffset, 0x104000 + sampleOffset, 0x9000 + sampleOffset, 0x7000 + sampleOffset] ∧
        VmaRegion.next s.1 (0x9000 + sampleOffset) = 0x7000 + sampleOffset ∧
        VmaRegion.prev s.1 (0x7000 + sampleOffset) = 0x104000 + sampleOffset) = true ∧
    (run (VmaOp.call (0x106000 + sampleOffset)) (sampleContext, [])
      [.alloc 1 3, .alloc 1 3, .alloc 0 3, .free 0x1001, .alloc 0 3, .free 0x1002]).any (fun s =>
        s.2 = [0x1001, 0x1000] ∧
        RegionsOf s.1 (0x106000 + sampleOffset) [0x105000 + sampleOffset, 0x104000 + sampleOffset] ∧
        [0x105000 + sampleOffset, 0x104000 + sampleOffset].map (VmaRegion.start s.1) = [0x1000, 0x1000]) = true := by
  decide

/-! ## Release after allocation -/

/-- Only one region is the first with room behind it. -/
theorem FindsOwn.of_regions {k : State} {ctx size region : U64} {pre post : List U64}
    (h : RegionsOf k ctx (pre ++ region :: post)) (hgap : hasGap k region = true)
    (hpre : ∀ other ∈ pre, hasGap k other = false)
    (hcond : (∀ other ∈ pre ++ [region], VmaRegion.start k other ≠ VmaRegion.start k region + VmaRegion.size k region) ∧
      (VmaContext.pagemap k ctx = k.kernelPagemap ∨ ∀ i < size.toNat, SharesTable k (VmaContext.pagemap k ctx) k.kernelPagemap
        (VmaRegion.start k region + VmaRegion.size k region + BitVec.ofNat 64 i * pageSize))) : FindsOwn k ctx size := by
  intro pre' region' post' h' hgap' hpre'
  have hlist := h'.unique h
  have hfind : ∀ (as : List U64) (a : U64) (bs : List U64), hasGap k a = true → (∀ q ∈ as, hasGap k q = false) →
      (as ++ a :: bs).find? (hasGap k) = some a := by
    intro as a bs ha has
    exact List.find?_eq_some_iff_append.mpr ⟨ha, as, bs, rfl, fun q hq => by simp [has q hq]⟩
  have hregion : region' = region := by
    have he := hfind pre' region' post' hgap' hpre'
    rw [hlist, hfind pre region post hgap hpre] at he
    exact (Option.some.inj he).symm
  subst hregion
  have hnd := List.nodup_middle.mp h'.nodup
  have hn : region' ∉ pre' ++ post' := (List.nodup_cons.mp hnd).1
  rw [List.mem_append, not_or] at hn
  obtain ⟨rfl, _, _⟩ := (List.append_cons_inj_of_notMem hn.1 hn.2).mp hlist
  exact hcond

/-- A context over another pagemap than the kernel's. -/
def sampleProcess : State := (vmaCreateContext (vmmNewPagemap sampleVma).2 (vmmNewPagemap sampleVma).1).2

end ShadowOS.Mm
