import ShadowOS.Mm.Pmm

/-!
# The free stack
-/

namespace ShadowOS.Mm

variable {k : State} {all free : List Frame} {f : Frame}

/-! ## Rounding to pages -/

theorem divRoundUp_toNat (x : U64) : (divRoundUp x pageSize).toNat = (x.toNat + 4095) % 2 ^ 64 / 4096 := by
  have hp : pageSize.toNat = 4096 := rfl
  have hp' : (pageSize - 1).toNat = 4095 := rfl
  rw [divRoundUp, BitVec.toNat_udiv, BitVec.toNat_add, hp, hp']

theorem alignUp_toNat (x : U64) : (alignUp x pageSize).toNat = (x.toNat + 4095) % 2 ^ 64 / 4096 * 4096 := by
  have hp : pageSize.toNat = 4096 := rfl
  rw [alignUp, BitVec.toNat_mul, divRoundUp_toNat, hp]
  omega

theorem alignDown_toNat (x : U64) : (alignDown x pageSize).toNat = x.toNat / 4096 * 4096 := by
  have hx := x.isLt
  have hp : pageSize.toNat = 4096 := rfl
  rw [alignDown, BitVec.toNat_mul, BitVec.toNat_udiv, hp]
  omega

/-! ## The validity test -/

/-- The test changes nothing but the caches. -/
theorem updateCacheAccess_eq (k : State) (page : U64) :
    ∃ v s, updateCacheAccess k page = { k with validPageCache := v, secondaryCache := s } := by
  unfold updateCacheAccess
  split
  · exact ⟨_, _, rfl⟩
  · split
    · split
      · exact ⟨_, _, rfl⟩
      · exact ⟨_, _, rfl⟩
    · exact ⟨_, _, rfl⟩

theorem isPageValid_of_memmap {page : U64} (h : isInMemmap k.memmap k.reclaimed page = true) :
    isPageValid k page = (true, updateCacheAccess k page) := by
  unfold isPageValid
  rw [h]
  simp

/-! ## The invariant -/

/-- The physical address of the `i`-th slot of the stack array. -/
def State.slotAddr (k : State) (i : Nat) : U64 := k.physical k.stack.pages + 8 * BitVec.ofNat 64 i

/-- The stack holds `free`, bottom first, and manages the frames `all`. -/
structure FreeStack (k : State) (all free : List Frame) : Prop where
  sub : free ⊆ all
  nodup : free.Nodup
  all_nodup : all.Nodup
  idx : k.stack.idx.toNat = free.length
  max : k.stack.max.toNat = all.length
  slot : ∀ i (hi : i < free.length), k.mem.load64 (k.slotAddr i) = free[i].1
  valid : ∀ f ∈ all, isInMemmap k.memmap k.reclaimed f.1 = true
  nonzero : ∀ f ∈ all, f.1 ≠ 0
  mapped : ∀ f ∈ all, k.higherHalf f.1 ≠ 0
  array : (k.physical k.stack.pages).toNat % 4096 = 0
  fits : (k.physical k.stack.pages).toNat + 8 * all.length ≤ 2 ^ 64
  apart : ∀ f ∈ all, ∀ i < all.length, Frame.of (k.slotAddr i) ≠ f

/-- A free stack whose frames may have the address 0, or a null pointer in the direct map. -/
structure PageStack (k : State) (all free : List Frame) : Prop where
  sub : free ⊆ all
  nodup : free.Nodup
  all_nodup : all.Nodup
  idx : k.stack.idx.toNat = free.length
  max : k.stack.max.toNat = all.length
  slot : ∀ i (hi : i < free.length), k.mem.load64 (k.slotAddr i) = free[i].1
  valid : ∀ f ∈ all, isInMemmap k.memmap k.reclaimed f.1 = true
  array : (k.physical k.stack.pages).toNat % 4096 = 0
  fits : (k.physical k.stack.pages).toNat + 8 * all.length ≤ 2 ^ 64
  apart : ∀ f ∈ all, ∀ i < all.length, Frame.of (k.slotAddr i) ≠ f

/-- The frames that hold the stack array. -/
def State.IsArray (k : State) (n : Nat) (f : Frame) : Prop := ∃ i < n, Frame.of (k.slotAddr i) = f

theorem slot_ptr (k : State) (i : U64) :
    k.physical (k.stack.pages + 8 * i) = k.slotAddr i.toNat := by
  simp only [State.slotAddr, State.physical, BitVec.ofNat_toNat, BitVec.setWidth_eq]
  rw [BitVec.sub_eq_add_neg, BitVec.sub_eq_add_neg, BitVec.add_assoc, BitVec.add_assoc, BitVec.add_comm (8 * i)]

theorem alignUp_frame (f : Frame) : alignUp f.1 pageSize = f.1 := by
  obtain ⟨f, hf⟩ := f
  have hlt := f.isLt
  apply BitVec.eq_of_toNat_eq
  rw [alignUp_toNat]
  simp only
  omega

namespace PageStack

theorem length_le (h : PageStack k all free) : free.length ≤ all.length :=
  (h.nodup.subperm h.sub).length_le

theorem length_lt (h : PageStack k all free) (hf : f ∈ all) (hn : f ∉ free) : free.length < all.length := by
  have hs : f :: free ⊆ all := List.cons_subset.mpr ⟨hf, h.sub⟩
  exact ((List.nodup_cons.mpr ⟨hn, h.nodup⟩).subperm hs).length_le

theorem not_isArray (h : PageStack k all free) (hf : f ∈ all) : ¬ k.IsArray all.length f := by
  rintro ⟨i, hi, he⟩
  exact h.apart f hf i hi he

theorem slotAddr_toNat (h : PageStack k all free) {i : Nat} (hi : i < all.length) :
    (k.slotAddr i).toNat = (k.physical k.stack.pages).toNat + 8 * i := by
  have hf := h.fits
  simp only [State.slotAddr, BitVec.toNat_add, BitVec.toNat_mul, BitVec.toNat_ofNat, BitVec.ofNat_eq_ofNat]
  omega

/-- Memory outside the array does not matter. -/
theorem frame (h : PageStack k all free) {m : Mem} {S : Set Frame} (hm : Mem.EqOutside S k.mem m)
    (hS : ∀ f ∈ S, ¬ k.IsArray all.length f) : PageStack { k with mem := m } all free := by
  refine ⟨h.sub, h.nodup, h.all_nodup, h.idx, h.max, fun i hi => ?_, h.valid, h.array, h.fits, h.apart⟩
  have hi' : i < all.length := Nat.lt_of_lt_of_le hi h.length_le
  have ha := h.slotAddr_toNat hi'
  have h8 := h.array
  refine Eq.trans (hm.load64 (x := k.slotAddr i) (by rw [ha]; omega) ?_) (h.slot i hi)
  intro hc
  exact hS _ hc ⟨i, hi', rfl⟩

theorem caches (h : PageStack k all free) (v s : Nat → PageCacheEntry) (c : U64) :
    PageStack { k with validPageCache := v, secondaryCache := s, cacheHead := c } all free :=
  ⟨h.sub, h.nodup, h.all_nodup, h.idx, h.max, h.slot, h.valid, h.array, h.fits, h.apart⟩

/-! ## Requests -/

theorem request_empty (h : PageStack k all []) : pmmRequestPage k = (0, { k with outOfMemory := true }) := by
  have hi : k.stack.idx = 0 := by
    apply BitVec.eq_of_toNat_eq
    simpa using h.idx
  simp only [pmmRequestPage, hi, ↓reduceIte]

/-- What a request does with the top frame `f`, up to the caches. -/
theorem request_top (h : PageStack k all (free ++ [f])) : ∃ v s,
    let k' := { k with stack.idx := k.stack.idx - 1, validPageCache := v, secondaryCache := s }
    pmmRequestPage k = if k.higherHalf f.1 = 0 then (0, k') else (f.1, { k' with mem := k.mem.fill f.1 0 4096 }) := by
  have hlen : k.stack.idx.toNat = free.length + 1 := by simpa using h.idx
  have h0 : k.stack.idx ≠ 0 := by
    intro h0
    rw [h0] at hlen
    simp at hlen
  have hlt := k.stack.idx.isLt
  have h1 : k.stack.idx - 1 ≠ -1 := by
    intro h1
    have h1' := congrArg BitVec.toNat h1
    simp only [BitVec.toNat_sub, BitVec.toNat_ofNat, BitVec.ofNat_eq_ofNat, BitVec.toNat_neg] at h1'
    omega
  have hidx : (k.stack.idx - 1).toNat = free.length := by
    simp only [BitVec.toNat_sub, BitVec.toNat_ofNat, BitVec.ofNat_eq_ofNat]
    omega
  have hf : f ∈ all := h.sub (by simp)
  have hslot : k.mem.load64 (k.slotAddr free.length) = f.1 := by
    have := h.slot free.length (by simp)
    simpa using this
  have hv : isPageValid { k with stack.idx := k.stack.idx - 1 } f.1 =
      (true, updateCacheAccess { k with stack.idx := k.stack.idx - 1 } f.1) :=
    isPageValid_of_memmap (h.valid f hf)
  have hload : (State.load { k with stack.idx := k.stack.idx - 1 } (k.stack.pages + 8 * (k.stack.idx - 1))) = f.1 := by
    refine Eq.trans (congrArg k.mem.load64 ?_) hslot
    rw [← hidx]
    exact slot_ptr k (k.stack.idx - 1)
  obtain ⟨v, s, hc⟩ := updateCacheAccess_eq { k with stack.idx := k.stack.idx - 1 } f.1
  refine ⟨v, s, ?_⟩
  have hhalf : State.higherHalf { k with stack.idx := k.stack.idx - 1, validPageCache := v, secondaryCache := s } f.1 =
      k.higherHalf f.1 := rfl
  unfold pmmRequestPage
  simp only [h0, ↓reduceIte, h1, hload, hv, hc, Bool.not_true, Bool.false_eq_true, hhalf, alignUp_frame]
  split
  · rfl
  · simp only [State.memset, ← hhalf, State.physical_higherHalf]

/-- The stack without its top frame, which may have been filled. -/
theorem pop (h : PageStack k all (free ++ [f])) {m : Mem} (hm : Mem.EqOutside {f} k.mem m) {v s : Nat → PageCacheEntry} :
    PageStack { k with mem := m, stack.idx := k.stack.idx - 1, validPageCache := v, secondaryCache := s } all free := by
  have hf : f ∈ all := h.sub (by simp)
  have hm := h.frame hm (by rintro g rfl; exact h.not_isArray hf)
  have hlen : k.stack.idx.toNat = free.length + 1 := by simpa using h.idx
  refine ⟨fun g hg => h.sub (by simp [hg]), h.nodup.of_append_left, h.all_nodup, ?_, h.max, fun i hi => ?_, h.valid,
    h.array, h.fits, h.apart⟩
  · have hlt := k.stack.idx.isLt
    simp only [BitVec.toNat_sub, BitVec.toNat_ofNat, BitVec.ofNat_eq_ofNat]
    omega
  · have := hm.slot i (by simp; omega)
    rw [List.getElem_append_left hi] at this
    exact this

/-! ## Releases -/

theorem push (h : PageStack k all free) (hf : f ∈ all) (hn : f ∉ free) : PageStack (pushPage k f.1) all (free ++ [f]) := by
  have hlt := h.length_lt hf hn
  have hfits := h.fits
  have hidx := h.idx
  have haddr : k.physical (k.stack.pages + 8 * k.stack.idx) = k.slotAddr free.length := by
    rw [slot_ptr, hidx]
  refine ⟨?_, ?_, h.all_nodup, ?_, h.max, fun i hi => ?_, h.valid, h.array, h.fits, h.apart⟩
  · exact List.append_subset.mpr ⟨h.sub, by simpa using hf⟩
  · rw [List.nodup_append']
    exact ⟨h.nodup, by simp, by simpa using hn⟩
  · simp only [pushPage, State.store, BitVec.toNat_add, BitVec.toNat_ofNat, BitVec.ofNat_eq_ofNat, List.length_append,
      List.length_singleton]
    omega
  · have hs : (pushPage k f.1).mem.load64 ((pushPage k f.1).slotAddr i)
        = (k.mem.store64 (k.slotAddr free.length) f.1).load64 (k.slotAddr i) := by
      simp only [pushPage, State.store, haddr]
      rfl
    rw [hs]
    simp only [List.length_append, List.length_singleton] at hi
    rcases Nat.lt_or_ge i free.length with hi' | hi'
    · rw [List.getElem_append_left hi', ← h.slot i hi']
      have ha := h.slotAddr_toNat (i := i) (by omega)
      have hb := h.slotAddr_toNat hlt
      refine Mem.load64_store64_of_disjoint (fun d hd => ?_)
      simp only [BitVec.toNat_sub, BitVec.toNat_add, BitVec.toNat_ofNat, ha, hb]
      omega
    · have hie : i = free.length := by omega
      subst hie
      simp

/-- A push writes to the array only. -/
theorem push_mem (h : PageStack k all free) (hf : f ∈ all) (hn : f ∉ free) :
    Mem.EqOutside {g | k.IsArray all.length g} k.mem (pushPage k f.1).mem := by
  have hlt := h.length_lt hf hn
  have harray := h.array
  have haddr : k.physical (k.stack.pages + 8 * k.stack.idx) = k.slotAddr free.length := by
    rw [slot_ptr, h.idx]
  intro x hx
  simp only [pushPage, State.store, haddr, Mem.store64]
  split
  · rename_i hd
    have hword := Frame.of_add_of_word (x := k.slotAddr free.length) (by rw [h.slotAddr_toNat hlt]; omega) hd
    rw [BitVec.ofNat_toNat, BitVec.setWidth_eq, BitVec.add_comm, BitVec.sub_add_cancel] at hword
    exact absurd ⟨free.length, hlt, hword.symm⟩ hx
  · rfl

theorem release_eq (h : PageStack k all free) (hf : f ∈ all) (hn : f ∉ free) (h0 : f.1 ≠ 0) : ∃ v s c,
    pmmReleasePage k f.1 = pushPage { k with validPageCache := v, secondaryCache := s, cacheHead := c } f.1 := by
  have hlt := h.length_lt hf hn
  obtain ⟨v, s, hc⟩ := updateCacheAccess_eq k f.1
  have hmax : ¬ k.stack.max ≤ k.stack.idx := by
    rw [BitVec.le_def, h.max, h.idx]
    omega
  refine ⟨Function.update v (hashPage f.1).toNat ⟨f.1, true, 0⟩, s, (k.cacheHead + 1) % BitVec.ofNat 64 cacheSize, ?_⟩
  unfold pmmReleasePage
  simp only [h0, ↓reduceIte, isPageValid_of_memmap (h.valid f hf), hc, Bool.not_true, Bool.false_eq_true, hmax]

theorem release (h : PageStack k all free) (hf : f ∈ all) (hn : f ∉ free) (h0 : f.1 ≠ 0) :
    PageStack (pmmReleasePage k f.1) all (free ++ [f]) := by
  obtain ⟨v, s, c, he⟩ := h.release_eq hf hn h0
  rw [he]
  exact (h.caches v s c).push hf hn

end PageStack

namespace FreeStack

theorem pageStack (h : FreeStack k all free) : PageStack k all free :=
  ⟨h.sub, h.nodup, h.all_nodup, h.idx, h.max, h.slot, h.valid, h.array, h.fits, h.apart⟩

end FreeStack

theorem PageStack.freeStack (h : PageStack k all free) (h0 : ∀ f ∈ all, f.1 ≠ 0) (hhalf : ∀ f ∈ all, k.higherHalf f.1 ≠ 0) :
    FreeStack k all free :=
  ⟨h.sub, h.nodup, h.all_nodup, h.idx, h.max, h.slot, h.valid, h0, hhalf, h.array, h.fits, h.apart⟩

namespace FreeStack

theorem length_le (h : FreeStack k all free) : free.length ≤ all.length := h.pageStack.length_le

theorem not_isArray (h : FreeStack k all free) (hf : f ∈ all) : ¬ k.IsArray all.length f := h.pageStack.not_isArray hf

/-- Memory outside the array does not matter. -/
theorem frame (h : FreeStack k all free) {m : Mem} {S : Set Frame} (hm : Mem.EqOutside S k.mem m)
    (hS : ∀ f ∈ S, ¬ k.IsArray all.length f) : FreeStack { k with mem := m } all free :=
  (h.pageStack.frame hm hS).freeStack h.nonzero h.mapped

theorem caches (h : FreeStack k all free) (v s : Nat → PageCacheEntry) (c : U64) :
    FreeStack { k with validPageCache := v, secondaryCache := s, cacheHead := c } all free :=
  (h.pageStack.caches v s c).freeStack h.nonzero h.mapped

theorem request_empty (h : FreeStack k all []) : pmmRequestPage k = (0, { k with outOfMemory := true }) :=
  h.pageStack.request_empty

/-- The state after the top frame `f` has been taken, up to the caches. -/
theorem request_eq (h : FreeStack k all (free ++ [f])) : ∃ v s, pmmRequestPage k = (f.1,
    { k with
      mem := k.mem.fill f.1 0 4096
      stack.idx := k.stack.idx - 1
      validPageCache := v
      secondaryCache := s }) := by
  obtain ⟨v, s, he⟩ := h.pageStack.request_top
  refine ⟨v, s, he.trans (if_neg (h.mapped f (h.sub (by simp))))⟩

theorem request (h : FreeStack k all (free ++ [f])) {v s : Nat → PageCacheEntry} :
    FreeStack { k with
      mem := k.mem.fill f.1 0 4096
      stack.idx := k.stack.idx - 1
      validPageCache := v
      secondaryCache := s } all free :=
  (h.pageStack.pop (Mem.EqOutside.fill k.mem f 0 le_rfl)).freeStack h.nonzero h.mapped

theorem push (h : FreeStack k all free) (hf : f ∈ all) (hn : f ∉ free) : FreeStack (pushPage k f.1) all (free ++ [f]) :=
  (h.pageStack.push hf hn).freeStack h.nonzero h.mapped

theorem release_eq (h : FreeStack k all free) (hf : f ∈ all) (hn : f ∉ free) : ∃ v s c,
    pmmReleasePage k f.1 = pushPage { k with validPageCache := v, secondaryCache := s, cacheHead := c } f.1 :=
  h.pageStack.release_eq hf hn (h.nonzero f hf)

theorem release (h : FreeStack k all free) (hf : f ∈ all) (hn : f ∉ free) :
    FreeStack (pmmReleasePage k f.1) all (free ++ [f]) := by
  obtain ⟨v, s, c, he⟩ := h.release_eq hf hn
  rw [he]
  exact (h.caches v s c).push hf hn

end FreeStack

end ShadowOS.Mm
