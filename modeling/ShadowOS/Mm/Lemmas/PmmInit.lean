import ShadowOS.Mm.Runs

/-!
# Building the free stack
-/

namespace ShadowOS.Mm

variable {memmap : List MemmapEntry} {e : MemmapEntry}

/-! ## The pages of an entry -/

theorem page_toNat {b : U64} {j n : Nat} (hj : j < n) (hb : b.toNat + 4096 * n ≤ 2 ^ 64) :
    (b + BitVec.ofNat 64 j * pageSize).toNat = b.toNat + 4096 * j := by
  have hp : pageSize.toNat = 4096 := rfl
  rw [BitVec.toNat_add, BitVec.toNat_mul, BitVec.toNat_ofNat, hp]
  omega

/-- An entry that is aligned and does not wrap. -/
structure MemmapEntry.Aligned (e : MemmapEntry) : Prop where
  base : e.base.toNat % 4096 = 0
  length : e.length.toNat % 4096 = 0
  noWrap : e.base.toNat + e.length.toNat < 2 ^ 64

namespace MemmapEntry

theorem Aligned.pages_eq (h : e.Aligned) :
    e.pages = (List.range (e.length.toNat / 4096)).map fun j => e.base + BitVec.ofNat 64 j * pageSize := by
  have hl := h.length
  have hn : (e.length.toNat + 4095) / 4096 = e.length.toNat / 4096 := by omega
  rw [pages, hn]

theorem Aligned.page_toNat (h : e.Aligned) {j : Nat} (hj : j < e.length.toNat / 4096) :
    (e.base + BitVec.ofNat 64 j * pageSize).toNat = e.base.toNat + 4096 * j := by
  have hw := h.noWrap
  exact Mm.page_toNat hj (by omega)

theorem Aligned.mem_pages (h : e.Aligned) {p : U64} : p ∈ e.pages ↔ p.toNat % 4096 = 0 ∧ e.Contains p := by
  have hb := h.base
  have hl := h.length
  rw [h.pages_eq, List.mem_map]
  constructor
  · rintro ⟨j, hj, rfl⟩
    rw [List.mem_range] at hj
    have ht := h.page_toNat hj
    refine ⟨by omega, ?_⟩
    simp only [Contains, ht]
    omega
  · rintro ⟨hp, hlo, hhi⟩
    have hj : (p.toNat - e.base.toNat) / 4096 < e.length.toNat / 4096 := by omega
    refine ⟨(p.toNat - e.base.toNat) / 4096, List.mem_range.mpr hj, ?_⟩
    apply BitVec.eq_of_toNat_eq
    rw [h.page_toNat hj]
    omega

theorem Aligned.pages_nodup (h : e.Aligned) : e.pages.Nodup := by
  rw [h.pages_eq]
  refine List.Nodup.map_on ?_ List.nodup_range
  intro i hi j hj hij
  have ht := congrArg BitVec.toNat hij
  rw [h.page_toNat (List.mem_range.mp hi), h.page_toNat (List.mem_range.mp hj)] at ht
  omega

theorem Aligned.pages_length (h : e.Aligned) : e.pages.length = e.length.toNat / 4096 := by
  rw [h.pages_eq, List.length_map, List.length_range]

/-- The part of an entry before `size` bytes and the part after them. -/
theorem Aligned.split (h : e.Aligned) {size : U64} (hs : size.toNat % 4096 = 0) (hle : size ≤ e.length) :
    Aligned { e with length := size } ∧ Aligned { e with base := e.base + size, length := e.length - size } := by
  have hb := h.base
  have hl := h.length
  have hw := h.noWrap
  rw [BitVec.le_def] at hle
  have ha : (e.base + size).toNat = e.base.toNat + size.toNat := by
    rw [BitVec.toNat_add]
    omega
  have hd : (e.length - size).toNat = e.length.toNat - size.toNat := BitVec.toNat_sub_of_le hle
  exact ⟨⟨hb, hs, by simp only; omega⟩, ⟨by simp only [ha]; omega, by simp only [hd]; omega, by simp only [ha, hd]; omega⟩⟩

theorem Aligned.pages_split (h : e.Aligned) {size : U64} (hs : size.toNat % 4096 = 0) (hle : size ≤ e.length) :
    e.pages = pages { e with length := size } ++ pages { e with base := e.base + size, length := e.length - size } := by
  obtain ⟨h₁, h₂⟩ := h.split hs hle
  rw [h.pages_eq, h₁.pages_eq, h₂.pages_eq]
  have hl := h.length
  rw [BitVec.le_def] at hle
  have hd : (e.length - size).toNat = e.length.toNat - size.toNat := BitVec.toNat_sub_of_le hle
  have hn : e.length.toNat / 4096 = size.toNat / 4096 + (e.length - size).toNat / 4096 := by omega
  rw [hn, List.range_add, List.map_append, List.map_map]
  refine congrArg _ (List.map_congr_left ?_)
  intro j hj
  have hp : pageSize.toNat = 4096 := rfl
  apply BitVec.eq_of_toNat_eq
  simp only [Function.comp_apply, BitVec.toNat_add, BitVec.toNat_mul, BitVec.toNat_ofNat, hp]
  omega

end MemmapEntry

/-! ## The usable pages -/

theorem usablePages_cons (e : MemmapEntry) (es : List MemmapEntry) :
    usablePages (e :: es) = (if e.type = .usable then e.pages else []) ++ usablePages es := by
  unfold usablePages
  by_cases he : e.type = .usable
  · simp [he]
  · simp [he]

theorem usablePages_append (es es' : List MemmapEntry) : usablePages (es ++ es') = usablePages es ++ usablePages es' := by
  simp only [usablePages, List.filter_append, List.flatMap_append]

theorem mem_usablePages {p : U64} : p ∈ usablePages memmap ↔ ∃ e ∈ memmap, e.type = .usable ∧ p ∈ e.pages := by
  simp only [usablePages, List.mem_flatMap, List.mem_filter, decide_eq_true_eq, and_assoc]

theorem BootMap.usable {hhdmOffset : U64} (h : BootMap memmap hhdmOffset) : UsableMap memmap :=
  ⟨h.base, h.length, h.noWrap, h.disjoint⟩

namespace UsableMap

theorem aligned (h : UsableMap memmap) (he : e ∈ memmap) (hu : e.type = .usable) : e.Aligned :=
  ⟨h.base e he hu, h.length e he hu, h.noWrap e he hu⟩

theorem nodup (h : UsableMap memmap) : (usablePages memmap).Nodup := by
  unfold usablePages
  rw [List.nodup_flatMap]
  refine ⟨fun e he => ?_, ?_⟩
  · rw [List.mem_filter, decide_eq_true_eq] at he
    exact (h.aligned he.1 he.2).pages_nodup
  · rw [List.pairwise_filter]
    refine h.disjoint.imp_of_mem (fun {e e'} he he' hd hu hu' p hp hp' => ?_)
    rw [decide_eq_true_eq] at hu hu'
    rw [(h.aligned he hu).mem_pages] at hp
    rw [(h.aligned he' hu').mem_pages] at hp'
    exact hd hu hu' p ⟨hp.2, hp'.2⟩

theorem aligned_page (h : UsableMap memmap) {p : U64} (hp : p ∈ usablePages memmap) : p.toNat % 4096 = 0 := by
  obtain ⟨e, he, hu, hp⟩ := mem_usablePages.mp hp
  exact ((h.aligned he hu).mem_pages.mp hp).1

/-- There are at most as many pages as page numbers. -/
theorem length_le (h : UsableMap memmap) : (usablePages memmap).length ≤ 2 ^ 52 := by
  have hn : ((usablePages memmap).map Frame.of).Nodup := by
    refine h.nodup.map_on (fun p hp q hq hpq => ?_)
    have hp' := congrArg Subtype.val (Frame.of_self ⟨p, h.aligned_page hp⟩)
    have hq' := congrArg Subtype.val (Frame.of_self ⟨q, h.aligned_page hq⟩)
    exact hp'.symm.trans ((congrArg Subtype.val hpq).trans hq')
  have := Frame.length_le_of_nodup hn
  rwa [List.length_map] at this

end UsableMap

theorem freePages_foldl (es : List MemmapEntry) (hal : ∀ e ∈ es, e.type = .usable → e.Aligned) (n : U64)
    (hn : n.toNat + (usablePages es).length < 2 ^ 64) :
    (es.foldl (fun n e => if e.type = .usable then n + divRoundUp e.length pageSize else n) n).toNat
      = n.toNat + (usablePages es).length := by
  induction es generalizing n with
  | nil => simp [usablePages]
  | cons e es ih =>
      have hal' : ∀ e ∈ es, e.type = .usable → e.Aligned := fun e he => hal e (List.mem_cons_of_mem _ he)
      rw [usablePages_cons, List.length_append] at hn ⊢
      rw [List.foldl_cons]
      by_cases hu : e.type = .usable
      · have ha := hal e List.mem_cons_self hu
        have hl := ha.length
        have hlt := e.length.isLt
        have hd : (divRoundUp e.length pageSize).toNat = e.pages.length := by
          rw [divRoundUp_toNat, ha.pages_length]
          omega
        simp only [hu, ↓reduceIte] at hn ⊢
        have hs : (n + divRoundUp e.length pageSize).toNat = n.toNat + e.pages.length := by
          rw [BitVec.toNat_add, hd]
          omega
        rw [ih hal' _ (by rw [hs]; omega), hs]
        omega
      · simp only [hu, ↓reduceIte, List.length_nil, Nat.zero_add] at hn ⊢
        exact ih hal' n hn

theorem UsableMap.freePages_toNat (h : UsableMap memmap) :
    (freePages memmap).toNat = (usablePages memmap).length := by
  have hl := h.length_le
  have := freePages_foldl memmap (fun e he hu => h.aligned he hu) 0 (by simp; omega)
  simpa [freePages] using this

/-- The array has a slot for every usable page. -/
theorem UsableMap.arraySize_toNat (h : UsableMap memmap) :
    (arraySize memmap).toNat = (8 * (usablePages memmap).length + 4095) / 4096 * 4096 := by
  have hl := h.length_le
  have hf := h.freePages_toNat
  have hm : (freePages memmap * 8).toNat = 8 * (usablePages memmap).length := by
    rw [BitVec.toNat_mul, hf]
    simp only [BitVec.ofNat_eq_ofNat, BitVec.toNat_ofNat]
    omega
  rw [arraySize, alignUp_toNat, hm, Nat.mod_eq_of_lt (by omega)]

/-! ## Carving out the array -/

/-- The entry `e` without the array. -/
def MemmapEntry.carve (e : MemmapEntry) (size : U64) : MemmapEntry :=
  { e with base := e.base + size, length := e.length - size }

/-- The primary cache with the pages from `base` on in its first entries. -/
def seedCache (base free : U64) (cache : Nat → PageCacheEntry) : Nat → PageCacheEntry := fun j =>
  if j < cacheSize ∧ j < free.toNat then ⟨base + BitVec.ofNat 64 j * pageSize, true, 0⟩ else cache j

theorem carveArray_eq {size : U64} {es : List MemmapEntry} (free : U64) (k : State)
    (h : es.find? (fun e => size ≤ e.length ∧ e.type = .usable) = some e) :
    ∃ pre post, es = pre ++ e :: post ∧ carveArray size free es k =
      (pre ++ e.carve size :: post, { k with
        stack.pages := k.higherHalf e.base
        validPageCache := seedCache (e.carve size).base free k.validPageCache }) := by
  induction es with
  | nil => cases h
  | cons x es ih =>
      rw [List.find?_cons] at h
      by_cases hx : size ≤ x.length ∧ x.type = .usable
      · simp only [hx, and_self, decide_true, Option.some.injEq] at h
        subst h
        refine ⟨[], es, rfl, ?_⟩
        rw [carveArray, if_pos hx]
        rfl
      · simp only [hx, decide_false] at h
        obtain ⟨pre, post, he, hc⟩ := ih h
        refine ⟨x :: pre, post, by rw [he, List.cons_append], ?_⟩
        simp only [carveArray, hx, ↓reduceIte, hc, List.cons_append]

/-- Without an entry that is large enough there is no array. -/
theorem carveArray_none {size : U64} {es : List MemmapEntry} (free : U64) (k : State)
    (h : es.find? (fun e => size ≤ e.length ∧ e.type = .usable) = none) : carveArray size free es k = (es, k) := by
  induction es with
  | nil => rfl
  | cons x es ih =>
      rw [List.find?_cons] at h
      by_cases hx : size ≤ x.length ∧ x.type = .usable
      · simp [hx] at h
      · simp only [hx, decide_false] at h
        simp only [carveArray, hx, ↓reduceIte, ih h]

theorem foldl_pushEntry (es : List MemmapEntry) (k : State) :
    es.foldl pushEntry k = (usablePages es).foldl pushPage k := by
  induction es generalizing k with
  | nil => rfl
  | cons e es ih =>
      rw [List.foldl_cons, ih, usablePages_cons, List.foldl_append, pushEntry]
      by_cases hu : e.type = .usable
      · simp only [hu, ↓reduceIte]
      · simp only [hu, ↓reduceIte, List.foldl_nil]

/-- The pages are pushed one after the other. The bound and the mark that are set at the end play no part. -/
theorem PageStack.foldl_pushPage {k : State} {all free : List Frame} {max : U64} {reclaimed : Bool}
    (fs : List Frame) (h : PageStack { k with stack.max := max, reclaimed := reclaimed } all free)
    (hall : all = free ++ fs) :
    PageStack { (fs.map Subtype.val).foldl pushPage k with
      stack.max := max, reclaimed := reclaimed } all all := by
  induction fs generalizing k free with
  | nil =>
      rw [List.append_nil] at hall
      subst hall
      exact h
  | cons f fs ih =>
      have hnd := h.all_nodup
      rw [hall, List.nodup_append'] at hnd
      have hn : f ∉ free := fun hf => hnd.2.2 hf List.mem_cons_self
      rw [List.map_cons, List.foldl_cons]
      exact ih (h.push (by rw [hall]; simp) hn) (by rw [hall, List.append_assoc, List.singleton_append])

/-! ## The stack after `pmm_init` -/

/-- What `pmm_init` sets up: a stack that holds the usable pages outside the array. -/
structure Booted (memmap : List MemmapEntry) (k : State) (all : List Frame) : Prop where
  stack : FreeStack k all all
  pages : ∀ p, (∃ f ∈ all, f.1 = p) ↔ p ∈ usablePages memmap ∧ p ∉ arrayPages memmap
  array : ∃ e, arrayEntry memmap = some e ∧ k.stack.pages = k.higherHalf e.base
  size : all.length ≤ (arraySize memmap).toNat / 8

theorem arrayEntry_some (h : ArrayRoom memmap) :
    ∃ e ∈ memmap, arrayEntry memmap = some e ∧ arraySize memmap ≤ e.length ∧ e.type = .usable := by
  obtain ⟨e, he, hu, hle⟩ := h
  cases hf : arrayEntry memmap with
  | none =>
      have := List.find?_eq_none.mp hf e he
      simp [hu, hle] at this
  | some x =>
      have hx := List.find?_some hf
      simp only [decide_eq_true_eq] at hx
      exact ⟨x, List.mem_of_find?_eq_some hf, rfl, hx⟩

/-- The usable pages are those of the array and those that the carved map has. -/
theorem UsableMap.usablePages_split (h : UsableMap memmap) {pre post : List MemmapEntry}
    (hf : arrayEntry memmap = some e) (he : memmap = pre ++ e :: post) (hle : arraySize memmap ≤ e.length)
    (hu : e.type = .usable) :
    usablePages memmap = usablePages pre ++ (arrayPages memmap ++ ((e.carve (arraySize memmap)).pages ++ usablePages post)) ∧
      usablePages (pre ++ e.carve (arraySize memmap) :: post) =
        usablePages pre ++ ((e.carve (arraySize memmap)).pages ++ usablePages post) := by
  have ha := h.aligned (e := e) (by rw [he]; simp) hu
  have hs : (arraySize memmap).toNat % 4096 = 0 := by
    rw [h.arraySize_toNat]
    omega
  have hu' : (e.carve (arraySize memmap)).type = .usable := hu
  constructor
  · have harr : arrayPages memmap = MemmapEntry.pages { e with length := arraySize memmap } := by
      simp only [arrayPages, hf]
    rw [harr, ← List.append_assoc (MemmapEntry.pages _)]
    rw [MemmapEntry.carve, ← ha.pages_split hs hle]
    conv => lhs; rw [he]
    rw [usablePages_append, usablePages_cons]
    simp only [hu, ↓reduceIte]
  · rw [usablePages_append, usablePages_cons]
    simp only [hu', ↓reduceIte]

/-- The carved map has the usable pages outside the array. -/
theorem UsableMap.mem_carved (h : UsableMap memmap) {pre post : List MemmapEntry}
    (hf : arrayEntry memmap = some e) (he : memmap = pre ++ e :: post) (hle : arraySize memmap ≤ e.length)
    (hu : e.type = .usable) (p : U64) :
    p ∈ usablePages (pre ++ e.carve (arraySize memmap) :: post) ↔ p ∈ usablePages memmap ∧ p ∉ arrayPages memmap := by
  obtain ⟨hsplit, hsplit'⟩ := h.usablePages_split hf he hle hu
  have hnd := h.nodup
  rw [hsplit, List.nodup_append', List.nodup_append'] at hnd
  rw [hsplit, hsplit']
  simp only [List.mem_append]
  constructor
  · rintro (hp | hp)
    · exact ⟨.inl hp, fun hc => hnd.2.2 hp (by simp [hc])⟩
    · exact ⟨.inr (.inr hp), fun hc => hnd.2.1.2.2 hc (List.mem_append.mpr hp)⟩
  · rintro ⟨hp | hp | hp, hn⟩
    · exact .inl hp
    · exact absurd hp hn
    · exact .inr hp

theorem UsableMap.carved_aligned (h : UsableMap memmap) {pre post : List MemmapEntry} (he : memmap = pre ++ e :: post)
    (hle : arraySize memmap ≤ e.length) (hu : e.type = .usable) :
    ∀ x ∈ pre ++ e.carve (arraySize memmap) :: post, x.type = .usable → x.Aligned := by
  have hs := h.arraySize_toNat
  intro x hx hxu
  rw [List.mem_append, List.mem_cons] at hx
  rcases hx with hx | rfl | hx
  · exact h.aligned (by rw [he]; simp [hx]) hxu
  · exact ((h.aligned (by rw [he]; simp) hu).split (by omega) hle).2
  · exact h.aligned (by rw [he]; simp [hx]) hxu

/-- Slots of the array lie in the pages of the array. -/
theorem UsableMap.slot_mem_arrayPages (h : UsableMap memmap) (hf : arrayEntry memmap = some e)
    (he : e ∈ memmap) (hle : arraySize memmap ≤ e.length) (hu : e.type = .usable) {i : Nat}
    (hi : i < (usablePages memmap).length) : (Frame.of (e.base + 8 * BitVec.ofNat 64 i)).1 ∈ arrayPages memmap := by
  have ha := h.aligned he hu
  have hs := h.arraySize_toNat
  have hb := ha.base
  have hw := ha.noWrap
  have harr : arrayPages memmap = MemmapEntry.pages { e with length := arraySize memmap } := by
    simp only [arrayPages, hf]
  rw [harr, (ha.split (by omega) hle).1.mem_pages]
  rw [BitVec.le_def] at hle
  have ht : (e.base + 8 * BitVec.ofNat 64 i).toNat = e.base.toNat + 8 * i := by
    simp only [BitVec.toNat_add, BitVec.toNat_mul, BitVec.toNat_ofNat, BitVec.ofNat_eq_ofNat]
    omega
  refine ⟨(Frame.of _).2, ?_⟩
  simp only [MemmapEntry.Contains, Frame.of, BitVec.toNat_ofNat, ht]
  omega

theorem foldl_pushPage_globals (ps : List U64) (k : State) : SameGlobals k (ps.foldl pushPage k) := by
  induction ps generalizing k with
  | nil => exact .refl k
  | cons p ps ih =>
      have hp : SameGlobals k (pushPage k p) := ⟨rfl, rfl, rfl, rfl⟩
      exact hp.trans (ih (pushPage k p))

theorem isInMemmap_of_mem {p : U64} (he : e ∈ memmap) (hu : e.type = .usable) (ha : e.Aligned) (hp : p ∈ e.pages)
    (reclaimed : Bool) : isInMemmap memmap reclaimed p = true := by
  obtain ⟨_, hlo, hhi⟩ := ha.mem_pages.mp hp
  have hw := ha.noWrap
  have hs : (e.base + e.length).toNat = e.base.toNat + e.length.toNat := by
    rw [BitVec.toNat_add]
    omega
  rw [isInMemmap, List.any_eq_true]
  refine ⟨e, he, ?_⟩
  simp only [hu, BitVec.le_def, BitVec.lt_def, hs, hlo, hhi, beq_self_eq_true, Bool.true_or, decide_true, Bool.and_self]

/-- The empty stack over the carved map. -/
theorem UsableMap.emptyStack {k : State} (h : UsableMap memmap) {pre post : List MemmapEntry}
    (hf : arrayEntry memmap = some e) (he : memmap = pre ++ e :: post) (hle : arraySize memmap ≤ e.length)
    (hu : e.type = .usable) (hidx : k.stack.idx = 0) (all : List Frame)
    (hmap : k.memmap = pre ++ e.carve (arraySize memmap) :: post)
    (hpages : k.stack.pages = k.higherHalf e.base) (hmax : k.stack.max.toNat = all.length)
    (hall : all.map Subtype.val = usablePages k.memmap) : PageStack k all [] := by
  have hmem : e ∈ memmap := by rw [he]; simp
  have ha := h.aligned hmem hu
  have hs := h.arraySize_toNat
  obtain ⟨hsplit, hsplit'⟩ := h.usablePages_split hf he hle hu
  rw [← hmap, ← hall] at hsplit'
  have hnd := h.nodup
  rw [hsplit] at hnd
  have hlen : all.length ≤ (usablePages memmap).length := by
    have := congrArg List.length hsplit'
    rw [hsplit]
    simp only [List.length_append, List.length_map] at this ⊢
    omega
  have hin : ∀ f ∈ all, f.1 ∈ usablePages k.memmap := by
    intro f hf
    rw [← hall]
    exact List.mem_map_of_mem hf
  have hphys : k.physical k.stack.pages = e.base := by rw [hpages, State.physical_higherHalf]
  have hle' := hle
  rw [BitVec.le_def] at hle'
  have hw := ha.noWrap
  refine ⟨by simp, by simp, ?_, by simp [hidx], hmax, by simp, fun f hf => ?_, ?_, ?_, fun f hf i hi => ?_⟩
  · refine List.Nodup.of_map Subtype.val ?_
    rw [hsplit']
    exact List.Nodup.sublist (List.Sublist.append_left (List.sublist_append_right _ _) _) hnd
  · obtain ⟨x, hx, hxu, hxp⟩ := mem_usablePages.mp (hin f hf)
    exact isInMemmap_of_mem hx hxu (h.carved_aligned he hle hu x (hmap ▸ hx) hxu) hxp _
  · rw [hphys]
    exact ha.base
  · rw [hphys]
    omega
  · rintro rfl
    have hout := hin _ hf
    rw [hmap, h.mem_carved ‹_› he hle hu] at hout
    refine hout.2 ?_
    rw [State.slotAddr, hphys]
    exact h.slot_mem_arrayPages ‹_› hmem hle hu (by omega)

/-- What `pmm_init` leaves of the memory map is the map without the array. -/
theorem UsableMap.pmmInit {k : State} (h : UsableMap memmap) (hroom : ArrayRoom memmap) (hidx : k.stack.idx = 0) :
    ∃ k' all, pmmInit (some memmap) k = some k' ∧ PageStack k' all all ∧
      (∀ p, (∃ f ∈ all, f.1 = p) ↔ p ∈ usablePages memmap ∧ p ∉ arrayPages memmap) ∧
      (∃ e, arrayEntry memmap = some e ∧ k'.stack.pages = k'.higherHalf e.base) ∧
      all.length ≤ (arraySize memmap).toNat / 8 ∧ SameGlobals { k with stack.pages := k'.stack.pages } k' := by
  obtain ⟨e, hmem, hf, hle, hu⟩ := arrayEntry_some hroom
  obtain ⟨pre, post, he, hc⟩ := carveArray_eq (freePages memmap) k hf
  generalize seedCache (e.carve (arraySize memmap)).base (freePages memmap) k.validPageCache = v at hc
  obtain ⟨hsplit, hsplit'⟩ := h.usablePages_split hf he hle hu
  have hlen := h.length_le
  have hs := h.arraySize_toNat
  have hsub := h.mem_carved hf he hle hu
  generalize hm : pre ++ e.carve (arraySize memmap) :: post = memmap' at hc hsplit' hsub
  have hof : ∀ p ∈ usablePages memmap', (Frame.of p).1 = p := by
    intro p hp
    exact congrArg Subtype.val (Frame.of_self ⟨p, h.aligned_page ((hsub p).mp hp).1⟩)
  generalize hall : (usablePages memmap').map Frame.of = all
  have hval : all.map Subtype.val = usablePages memmap' := by
    rw [← hall, List.map_map]
    exact (List.map_congr_left (g := id) hof).trans (List.map_id _)
  have hlen' : all.length ≤ (usablePages memmap).length := by
    rw [← hall, hsplit, hsplit']
    simp only [List.length_append, List.length_map]
    omega
  have hmax : (BitVec.ofNat 64 all.length).toNat = all.length := by
    rw [BitVec.toNat_ofNat]
    omega
  have hempty := h.emptyStack (k := { k with
      stack.pages := k.higherHalf e.base, validPageCache := v, memmap := memmap',
      stack.max := BitVec.ofNat 64 all.length, reclaimed := false }) hf he hle hu hidx all hm.symm rfl hmax hval
  have hstack := PageStack.foldl_pushPage (k := { k with
      stack.pages := k.higherHalf e.base, validPageCache := v, memmap := memmap' }) all hempty (List.nil_append _).symm
  rw [hval] at hstack
  have hglob := foldl_pushPage_globals (usablePages memmap') { k with
    stack.pages := k.higherHalf e.base, validPageCache := v, memmap := memmap' }
  generalize hk₁ : (usablePages memmap').foldl pushPage { k with
    stack.pages := k.higherHalf e.base, validPageCache := v, memmap := memmap' } = k₁ at hstack hglob
  have hinit : Mm.pmmInit (some memmap) k = some { k₁ with stack.max := k₁.stack.idx, reclaimed := false } := by
    simp only [Mm.pmmInit, hc, foldl_pushEntry, hk₁]
  have hidx₁ : k₁.stack.idx = BitVec.ofNat 64 all.length :=
    BitVec.eq_of_toNat_eq (hstack.idx.trans hmax.symm)
  rw [hidx₁] at hinit
  refine ⟨_, all, hinit, hstack, fun p => ?_, ⟨e, hf, ?_⟩, by omega, ⟨hglob.hhdm, rfl, hglob.kernel, hglob.oom⟩⟩
  · rw [← hsub, ← hval, List.mem_map]
  · have hp := hglob.pages
    simp only [State.higherHalf, hglob.hhdm] at hp ⊢
    exact hp

theorem BootMap.pmmInit {k : State} (h : BootMap memmap k.hhdmOffset) (hidx : k.stack.idx = 0) :
    ∃ k' all, pmmInit (some memmap) k = some k' ∧ Booted memmap k' all ∧ k'.hhdmOffset = k.hhdmOffset ∧
      k'.kernelPagemap = k.kernelPagemap ∧ k'.outOfMemory = k.outOfMemory := by
  obtain ⟨k', all, hinit, hstack, hpages, harray, hsize, hglob⟩ := h.usable.pmmInit h.room hidx
  have hhdm : k'.hhdmOffset = k.hhdmOffset := hglob.hhdm
  have hin : ∀ f ∈ all, ∃ e ∈ memmap, e.type = .usable ∧ e.Contains f.1 := by
    intro f hf
    obtain ⟨e, he, hu, hp⟩ := mem_usablePages.mp ((hpages f.1).mp ⟨f, hf, rfl⟩).1
    exact ⟨e, he, hu, ((h.usable.aligned he hu).mem_pages.mp hp).2⟩
  refine ⟨k', all, hinit, ⟨hstack.freeStack (fun f hf hz => ?_) (fun f hf => ?_), hpages, harray, hsize⟩, hhdm,
    hglob.kernel, hglob.oom⟩
  · obtain ⟨e, he, hu, hp⟩ := hin f hf
    exact h.noZero e he hu (hz ▸ hp)
  · obtain ⟨e, he, hu, hp⟩ := hin f hf
    rw [State.higherHalf, hhdm]
    exact h.direct e he hu f.1 hp

theorem PageStack.freePages_eq {k : State} {all free : List Frame} (h : PageStack k all free) : k.freePages = free.map Subtype.val := by
  refine List.ext_getElem ?_ (fun i hi hi' => ?_)
  · rw [State.freePages, List.length_map, List.length_range, List.length_map, h.idx]
  · rw [List.length_map] at hi'
    have hlt := h.length_le
    have hfits := h.fits
    have hi₂ : (BitVec.ofNat 64 i).toNat = i := by
      rw [BitVec.toNat_ofNat]
      omega
    simp only [State.freePages, List.getElem_map, List.getElem_range, State.load]
    rw [slot_ptr, hi₂, h.slot i hi']

theorem FreeStack.freePages_eq {k : State} {all free : List Frame} (h : FreeStack k all free) :
    k.freePages = free.map Subtype.val := h.pageStack.freePages_eq

end ShadowOS.Mm
