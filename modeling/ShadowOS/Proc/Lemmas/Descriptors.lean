import ShadowOS.Proc.Spec

/-!
# Descriptor tables
-/

namespace ShadowOS.Proc

variable {H : Type} {T T' : Set U64} {pcb pcb' : Pcb} {k k' : Kernel H} {node : U64}

theorem moveDown_apply (n i : Nat) (fdTable : Nat → U64) (j : Nat) :
    moveDown n i fdTable j = if i ≤ j ∧ j < i + n then fdTable (j + 1) else fdTable j := by
  induction n generalizing i fdTable with
  | zero => rw [moveDown, if_neg (by omega)]
  | succ n ih =>
      rw [moveDown, ih]
      by_cases hj : j = i
      · rw [hj, if_neg (by omega), Function.update_self, if_pos (by omega)]
      · by_cases hin : i + 1 ≤ j ∧ j < i + 1 + n
        · rw [if_pos hin, Function.update_of_ne (by omega), if_pos (by omega)]
        · rw [if_neg hin, Function.update_of_ne hj, if_neg (by omega)]

theorem toNat_succ_fdCount (hfew : pcb.fdCount < BitVec.ofNat 64 procMaxFds) :
    (pcb.fdCount + 1).toNat = pcb.fdCount.toNat + 1 := by
  have hlt : pcb.fdCount.toNat < 1024 := hfew
  rw [BitVec.toNat_add]
  exact Nat.mod_eq_of_lt (by simp; omega)

theorem toNat_pred_fdCount (hpos : 0 < pcb.fdCount.toNat) : (pcb.fdCount - 1).toNat = pcb.fdCount.toNat - 1 :=
  BitVec.toNat_sub_of_le (by rw [BitVec.le_def]; simp; omega)

namespace FdInv

theorem mono (h : FdInv T pcb) (hT : T ⊆ T') : FdInv T' pcb := ⟨h.count, fun i hi => hT (h.opened i hi), h.closed⟩

theorem congr (h : FdInv T pcb) (htable : pcb'.fdTable = pcb.fdTable) (hcount : pcb'.fdCount = pcb.fdCount) :
    FdInv T pcb' := by
  refine ⟨?_, ?_, ?_⟩
  · rw [hcount]
    exact h.count
  · rw [hcount, htable]
    exact h.opened
  · rw [hcount, htable]
    exact h.closed

theorem add (h : FdInv T pcb) (hfew : pcb.fdCount < BitVec.ofNat 64 procMaxFds) (hnode : node ∈ T)
    (htable : pcb'.fdTable = Function.update pcb.fdTable pcb.fdCount.toNat node)
    (hcount : pcb'.fdCount = pcb.fdCount + 1) : FdInv T pcb' := by
  have hlt : pcb.fdCount.toNat < procMaxFds := hfew
  have hsucc : pcb'.fdCount.toNat = pcb.fdCount.toNat + 1 := by rw [hcount, toNat_succ_fdCount hfew]
  refine ⟨by rw [hsucc]; exact hlt, fun i hi => ?_, fun i hi hmax => ?_⟩
  · rw [hsucc] at hi
    rw [htable]
    by_cases hlast : i = pcb.fdCount.toNat
    · rw [hlast, Function.update_self]
      exact hnode
    · rw [Function.update_of_ne hlast]
      exact h.opened i (by omega)
  · rw [hsucc] at hi
    rw [htable, Function.update_of_ne (by omega)]
    exact h.closed i (by omega) hmax

theorem ne_zero_iff (h : FdInv T pcb) (hT : (0 : U64) ∉ T) {i : Nat} (hi : i < procMaxFds) :
    pcb.fdTable i ≠ 0 ↔ i < pcb.fdCount.toNat := by
  constructor
  · intro hne
    by_contra hc
    exact hne (h.closed i (by omega) hi)
  · intro hlt hc
    exact hT (hc ▸ h.opened i hlt)

theorem remove {fd : Nat} (h : FdInv T pcb) (hfd : fd < pcb.fdCount.toNat)
    (htable : pcb'.fdTable =
      Function.update (moveDown ((pcb.fdCount - 1).toNat - fd) fd pcb.fdTable) (pcb.fdCount - 1).toNat 0)
    (hcount : pcb'.fdCount = pcb.fdCount - 1) : FdInv T pcb' := by
  have hpred := toNat_pred_fdCount (Nat.zero_lt_of_lt hfd)
  have hmany := h.count
  rw [hpred] at htable
  refine ⟨by rw [hcount, hpred]; omega, fun i hi => ?_, fun i hi hmax => ?_⟩
  · rw [hcount, hpred] at hi
    rw [htable, Function.update_of_ne (by omega), moveDown_apply]
    split
    · exact h.opened _ (by omega)
    · exact h.opened _ (by omega)
  · rw [hcount, hpred] at hi
    rw [htable]
    by_cases hlast : i = pcb.fdCount.toNat - 1
    · rw [hlast, Function.update_self]
    · rw [Function.update_of_ne hlast, moveDown_apply, if_neg (by omega)]
      exact h.closed i (by omega) hmax

/-- A new descriptor adds its vnode to the open ones. -/
theorem vnodes_add (hfew : pcb.fdCount < BitVec.ofNat 64 procMaxFds)
    (htable : pcb'.fdTable = Function.update pcb.fdTable pcb.fdCount.toNat node)
    (hcount : pcb'.fdCount = pcb.fdCount + 1) : pcb'.vnodes = node ::ₘ pcb.vnodes := by
  have hold : (List.range pcb.fdCount.toNat).map pcb'.fdTable = (List.range pcb.fdCount.toNat).map pcb.fdTable := by
    refine List.map_congr_left fun i hi => ?_
    rw [htable, Function.update_of_ne (List.mem_range.mp hi).ne]
  rw [Pcb.vnodes, Pcb.vnodes, hcount, toNat_succ_fdCount hfew, List.range_succ, List.map_append, hold, List.map_singleton,
    htable, Function.update_self, Multiset.cons_coe, Multiset.coe_eq_coe]
  exact List.perm_append_singleton _ _

/-- A descriptor that is removed takes its vnode from the open ones. -/
theorem vnodes_remove {fd : Nat} (hfd : fd < pcb.fdCount.toNat)
    (htable : pcb'.fdTable =
      Function.update (moveDown ((pcb.fdCount - 1).toNat - fd) fd pcb.fdTable) (pcb.fdCount - 1).toNat 0)
    (hcount : pcb'.fdCount = pcb.fdCount - 1) : pcb.vnodes = pcb.fdTable fd ::ₘ pcb'.vnodes := by
  have hpred := toNat_pred_fdCount (Nat.zero_lt_of_lt hfd)
  have hlen : ((List.range pcb.fdCount.toNat).map pcb.fdTable).length = pcb.fdCount.toNat := by simp
  -- what is left are the entries without the one at `fd`
  have herase : (List.range (pcb.fdCount.toNat - 1)).map pcb'.fdTable =
      ((List.range pcb.fdCount.toNat).map pcb.fdTable).eraseIdx fd := by
    refine List.ext_getElem ?_ fun i hi hi' => ?_
    · rw [List.length_eraseIdx_of_lt (by rw [hlen]; exact hfd), hlen, List.length_map, List.length_range]
    · rw [List.length_map, List.length_range] at hi
      rw [List.getElem_map, List.getElem_range, List.getElem_eraseIdx, htable, hpred, Function.update_of_ne hi.ne,
        moveDown_apply]
      by_cases hlt : i < fd
      · rw [if_neg (by omega), dif_pos hlt, List.getElem_map, List.getElem_range]
      · rw [if_pos (by omega), dif_neg hlt, List.getElem_map, List.getElem_range]
  have hperm := List.getElem_cons_eraseIdx_perm (l := (List.range pcb.fdCount.toNat).map pcb.fdTable) (by rw [hlen]; exact hfd)
  rw [List.getElem_map, List.getElem_range, ← herase] at hperm
  rw [Pcb.vnodes, Pcb.vnodes, hcount, hpred, Multiset.cons_coe, Multiset.coe_eq_coe]
  exact hperm.symm

end FdInv

/-- A new process has the standard output. -/
theorem FdInv.newPcb (old : Pcb) (user : Bool) (pid entry pagemap vmaCtx stack : U64) :
    FdInv T (newPcb old user pid entry pagemap vmaCtx stack) := by
  refine ⟨Nat.zero_le _, fun i hi => absurd hi (Nat.not_lt_zero i), fun i _ hi => ?_⟩
  simp only [Proc.newPcb, if_pos hi]

/-! ## Calls -/

/-- What the scheduler goes by is the same in both blocks. -/
structure SameProcess (old pcb : Pcb) : Prop where
  pid : pcb.pid = old.pid
  state : pcb.state = old.state
  timeslice : pcb.timeslice = old.timeslice
  ctx : pcb.ctx = old.ctx
  uid : pcb.uid = old.uid

theorem SameProcess.refl (pcb : Pcb) : SameProcess pcb pcb := ⟨rfl, rfl, rfl, rfl, rfl⟩

theorem schedulerProcAddVnode_ok (k : Kernel H) (pid : U64) (hnode : node ≠ 0) :
    ∃ r k', schedulerProcAddVnode k pid node = .ok (r, k') := by
  simp only [schedulerProcAddVnode, hnode, ↓reduceIte]
  split
  · exact ⟨_, _, rfl⟩
  · split
    · exact ⟨_, _, rfl⟩
    · exact ⟨_, _, rfl⟩

/-- A new descriptor changes the descriptors of its process only. -/
theorem schedulerProcAddVnode_cases {pid : U64} {r : U32} (hres : schedulerProcAddVnode k pid node = .ok (r, k')) :
    r = -1 ∧ k' = k ∨ k.table pid.toNat ≠ 0 ∧ ∃ pcb, SameProcess (k.pcbs (k.table pid.toNat)) pcb ∧
      (k.pcbs (k.table pid.toNat)).fdCount < BitVec.ofNat 64 procMaxFds ∧
      pcb.fdTable = Function.update (k.pcbs (k.table pid.toNat)).fdTable (k.pcbs (k.table pid.toNat)).fdCount.toNat node ∧
      pcb.fdCount = (k.pcbs (k.table pid.toNat)).fdCount + 1 ∧ r = (pcb.fdCount - 1).setWidth 32 ∧
      k' = { k with pcbs := Function.update k.pcbs (k.table pid.toNat) pcb } := by
  simp only [schedulerProcAddVnode] at hres
  split at hres
  · obtain ⟨hr, hk⟩ := Prod.mk.inj (Except.ok.inj hres)
    exact .inl ⟨hr.symm, hk.symm⟩
  · rename_i hpid
    split at hres
    · cases hres
    · split at hres
      · rename_i hfew
        obtain ⟨hr, hk⟩ := Prod.mk.inj (Except.ok.inj hres)
        refine .inr ⟨fun hc => hpid (.inr hc), _, ⟨?_, ?_, ?_, ?_, ?_⟩, hfew, ?_, ?_, ?_, hk.symm⟩
        · rfl
        · rfl
        · rfl
        · rfl
        · rfl
        · rfl
        · rfl
        · exact hr.symm
      · obtain ⟨hr, hk⟩ := Prod.mk.inj (Except.ok.inj hres)
        exact .inl ⟨hr.symm, hk.symm⟩

theorem toInt_eq_toNat {fd : U32} (h : 0 ≤ fd.toInt) : fd.toInt = fd.toNat := by
  rw [BitVec.toInt_eq_toNat_cond] at h ⊢
  have hlt := fd.isLt
  split at h
  · rw [if_pos ‹_›]
  · omega

/-- A descriptor that is removed changes the descriptors of its process only. -/
theorem schedulerProcRemoveVnode_cases {pid : U64} {fd r : U32} (hres : schedulerProcRemoveVnode k pid fd = (r, k')) :
    (r = -1 ∨ r = -2) ∧ k' = k ∨ r = 0 ∧ 0 ≤ fd.toInt ∧ fd.toNat < procMaxFds ∧
      (k.pcbs (k.table pid.toNat)).fdTable fd.toNat ≠ 0 ∧ ∃ pcb, SameProcess (k.pcbs (k.table pid.toNat)) pcb ∧
      pcb.fdTable = Function.update (moveDown (((k.pcbs (k.table pid.toNat)).fdCount - 1).toNat - fd.toNat) fd.toNat
        (k.pcbs (k.table pid.toNat)).fdTable) ((k.pcbs (k.table pid.toNat)).fdCount - 1).toNat 0 ∧
      pcb.fdCount = (k.pcbs (k.table pid.toNat)).fdCount - 1 ∧
      k' = { k with pcbs := Function.update k.pcbs (k.table pid.toNat) pcb } := by
  simp only [schedulerProcRemoveVnode] at hres
  split at hres
  · obtain ⟨hr, hk⟩ := Prod.mk.inj hres
    exact .inl ⟨.inr hr.symm, hk.symm⟩
  · split at hres
    · obtain ⟨hr, hk⟩ := Prod.mk.inj hres
      exact .inl ⟨.inl hr.symm, hk.symm⟩
    · rename_i hfd
      rw [not_or, not_or, not_lt, not_le] at hfd
      obtain ⟨hr, hk⟩ := Prod.mk.inj hres
      have hlt := hfd.2.1
      rw [toInt_eq_toNat hfd.1] at hlt
      refine .inr ⟨hr.symm, hfd.1, Int.ofNat_lt.mp hlt, hfd.2.2, _, ⟨?_, ?_, ?_, ?_, ?_⟩, ?_, ?_, hk.symm⟩
      · rfl
      · rfl
      · rfl
      · rfl
      · rfl
      · rfl
      · rfl

/-! ## Compact tables -/

namespace Pcb.Compact

variable {proc : U64} {op : FdOp}

/-- The descriptor that a call returns is not negative. -/
theorem fdCount_toInt (h : pcb.Compact) (hpos : 0 < pcb.fdCount.toNat) : 0 ≤ ((pcb.fdCount - 1).setWidth 32 : U32).toInt := by
  have hle : pcb.fdCount.toNat ≤ 1024 := h.count
  have hnat : ((pcb.fdCount - 1).setWidth 32 : U32).toNat = pcb.fdCount.toNat - 1 := by
    rw [BitVec.toNat_setWidth, toNat_pred_fdCount hpos, Nat.mod_eq_of_lt (by omega)]
  rw [BitVec.toInt_eq_toNat_of_lt (by omega)]
  exact Int.natCast_nonneg _

theorem add {pid : U64} {r : U32} (h : (k.pcbs proc).Compact) (hnode : node ≠ 0)
    (hres : schedulerProcAddVnode k pid node = .ok (r, k')) : (k'.pcbs proc).Compact ∧ (FdOp.add pid node).Exact proc k := by
  rcases schedulerProcAddVnode_cases hres with ⟨rfl, rfl⟩ | ⟨_, pcb, _, hfew, htable, hcount, hr, he⟩
  · refine ⟨h, fun r' k'' hres' => ?_⟩
    cases hres.symm.trans hres'
    exact ⟨fun _ => ⟨rfl, rfl⟩, fun hc => absurd hc (by decide)⟩
  · by_cases hp : k.table pid.toNat = proc
    · rw [hp] at hfew htable hcount he
      have hnew : pcb.Compact := FdInv.add h hfew hnode htable hcount
      have hpos : 0 < pcb.fdCount.toNat := by
        rw [hcount, toNat_succ_fdCount hfew]
        exact Nat.succ_pos _
      have hr0 := hnew.fdCount_toInt hpos
      rw [← hr] at hr0
      have hpcb : k'.pcbs proc = pcb := by simp only [he, Function.update_self]
      refine ⟨hpcb ▸ hnew, fun r' k'' hres' => ?_⟩
      cases hres.symm.trans hres'
      rw [hpcb]
      refine ⟨fun hc => ?_, fun _ _ => FdInv.vnodes_add hfew htable hcount⟩
      exact absurd hc (not_or.mpr ⟨not_lt.mpr hr0, not_not.mpr hp⟩)
    · have hpcb : k'.pcbs proc = k.pcbs proc := by simp only [he, Function.update_of_ne (Ne.symm hp)]
      refine ⟨hpcb ▸ h, fun r' k'' hres' => ?_⟩
      cases hres.symm.trans hres'
      rw [hpcb]
      exact ⟨fun _ => ⟨rfl, rfl⟩, fun _ hc => absurd hc hp⟩

theorem remove (h : (k.pcbs proc).Compact) (pid : U64) (fd : U32) :
    ((schedulerProcRemoveVnode k pid fd).2.pcbs proc).Compact ∧ (FdOp.remove pid fd).Exact proc k := by
  rcases hres : schedulerProcRemoveVnode k pid fd with ⟨r, k'⟩
  have hcall : FdOp.call k (.remove pid fd) = .ok (r, k') := congrArg Except.ok hres
  rcases schedulerProcRemoveVnode_cases hres with ⟨hr, rfl⟩ | ⟨rfl, _, hmax, hfd, pcb, _, htable, hcount, he⟩
  · refine ⟨h, fun r' k'' hres' => ?_⟩
    cases hcall.symm.trans hres'
    refine ⟨fun _ => ⟨rfl, rfl⟩, fun hc => absurd hc ?_⟩
    rcases hr with rfl | rfl
    · decide
    · decide
  · by_cases hp : k.table pid.toNat = proc
    · rw [hp] at hfd htable hcount he
      have hlt := (FdInv.ne_zero_iff h (by simp) hmax).mp hfd
      have hpcb : k'.pcbs proc = pcb := by simp only [he, Function.update_self]
      refine ⟨hpcb ▸ FdInv.remove h hlt htable hcount, fun r' k'' hres' => ?_⟩
      cases hcall.symm.trans hres'
      rw [hpcb]
      refine ⟨fun hc => ?_, fun _ _ => FdInv.vnodes_remove hlt htable hcount⟩
      exact absurd hc (not_or.mpr ⟨by decide, not_not.mpr hp⟩)
    · have hpcb : k'.pcbs proc = k.pcbs proc := by simp only [he, Function.update_of_ne (Ne.symm hp)]
      refine ⟨hpcb ▸ h, fun r' k'' hres' => ?_⟩
      cases hcall.symm.trans hres'
      rw [hpcb]
      exact ⟨fun _ => ⟨rfl, rfl⟩, fun _ hc => absurd hc hp⟩

/-- A call on the descriptors of any process keeps the table of `proc` compact. -/
theorem call (h : (k.pcbs proc).Compact) (hop : op.NonNull) :
    (∃ k', op.exec k = some k' ∧ (k'.pcbs proc).Compact) ∧ op.Exact proc k := by
  cases op with
  | add pid node =>
      obtain ⟨r, k', hres⟩ := schedulerProcAddVnode_ok k pid hop
      obtain ⟨hc, hx⟩ := h.add hop hres
      exact ⟨⟨k', by rw [FdOp.exec, FdOp.call, hres], hc⟩, hx⟩
  | remove pid fd =>
      obtain ⟨hc, hx⟩ := h.remove pid fd
      exact ⟨⟨_, rfl, hc⟩, hx⟩

end Pcb.Compact

end ShadowOS.Proc
