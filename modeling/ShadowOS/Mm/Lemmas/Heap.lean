import ShadowOS.Mm.Lemmas.Blocks

/-!
# The areas of the heap

A change to one area leaves the others as they are, since they lie apart. New areas are linked at the end of the list.
-/

namespace ShadowOS.Mm

variable {P : Type} {S : PageSource P} {held : P → Set PageRun} {m m' : Mem} {h h' : Heap P} {A A' B : Area} {b c : Block}
  {areas as bs : List Area} {size reqSize : U64}

/-! ## Areas that nothing is stored to -/

/-- An area stays the same when only its links change. -/
theorem Area.Ok.congr (h : A.Ok m) (hpages : (Major.layout.load m' A.addr).pages = (Major.layout.load m A.addr).pages)
    (hsize : (Major.layout.load m' A.addr).size = (Major.layout.load m A.addr).size)
    (husage : (Major.layout.load m' A.addr).usage = (Major.layout.load m A.addr).usage)
    (hfirst : (Major.layout.load m' A.addr).first = (Major.layout.load m A.addr).first)
    (hminor : ∀ b ∈ A.blocks, Minor.layout.load m' b.addr = Minor.layout.load m b.addr)
    (hnote : ∀ b ∈ A.blocks, m' (b.ptr - 16) = m (b.ptr - 16)) : A.Ok m' := by
  refine ⟨h.fits, hpages.trans h.pages, hsize.trans h.size, husage.trans h.usage, ?_, fun b hb => ?_⟩
  · rw [hfirst]
    refine h.linked.congr (fun a ha => ?_) fun a ha => ?_
    all_goals
      obtain ⟨b, hb, rfl⟩ := List.mem_map.mp ha
      rw [hminor b hb]
  · have hok := h.blocks b hb
    exact ⟨by rw [hminor b hb, hok.block], by rw [hminor b hb, hok.magic], by rw [hminor b hb, hok.size],
      by rw [hminor b hb, hok.reqSize], by rw [hnote b hb, hok.note]⟩

theorem Area.Ok.of_agree (h : A.Ok m) (hm : m.Agree m' A.start A.stop) : A.Ok m' := by
  have hA := h.fits
  have hstop := hA.stop_le
  have hstart : A.start = A.addr.toNat := rfl
  have hmajor : Major.layout.load m' A.addr = Major.layout.load m A.addr := by
    have hsize : Major.layout.size = 40 := rfl
    have hle := hA.laid.le
    exact Layout.load_of_agree (by omega) (hm.mono (by omega) (by omega))
  refine h.congr (by rw [hmajor]) (by rw [hmajor]) (by rw [hmajor]) (by rw [hmajor]) (fun b hb => ?_) fun b hb => ?_
  · have hsize : Minor.layout.size = 36 := rfl
    have hb' := hA.block_bounds hb
    exact Layout.load_of_agree (by omega) (hm.mono (by omega) (by omega))
  · have hb' := hA.block_bounds hb
    have hn := hA.toNat_note hb
    exact hm _ (by omega) (by omega)

/-- The data of all blocks is as before. -/
def Kept (m m' : Mem) (areas : List Area) : Prop := ∀ b ∈ live areas, m.Agree m' b.ptr.toNat b.stop

theorem Kept.refl (m : Mem) (areas : List Area) : Kept m m areas := fun _ _ => .refl _ _ _

theorem Kept.trans {m'' : Mem} (h : Kept m m' areas) (h' : Kept m' m'' areas) : Kept m m'' areas :=
  fun b hb => (h b hb).trans (h' b hb)

theorem mem_live : b ∈ live areas ↔ ∃ A ∈ areas, b ∈ A.blocks := List.mem_flatMap

theorem live_append : live (as ++ bs) = live as ++ live bs := List.flatMap_append

theorem live_cons : live (A :: as) = A.blocks ++ live as := List.flatMap_cons

theorem Kept.of_agree (hok : ∀ A ∈ areas, A.Ok m) (h : ∀ A ∈ areas, m.Agree m' A.start A.stop) : Kept m m' areas := by
  intro b hb
  obtain ⟨A, hA, hb⟩ := mem_live.mp hb
  have hb' := (hok A hA).fits.block_bounds hb
  have hstart : A.start = A.addr.toNat := rfl
  exact (h A hA).mono (by omega) (by omega)

/-! ## A change to one area -/

namespace Heap.Rep

theorem apart_middle (hr : Rep held h (as ++ A :: bs)) : ∀ B ∈ as ++ bs, B.run.Apart A.run := by
  intro B hB
  have happart := hr.apart
  rw [List.map_append, List.map_cons, List.pairwise_append] at happart
  obtain ⟨-, hbs, has⟩ := happart
  rcases List.mem_append.mp hB with hB | hB
  · exact has _ (List.mem_map_of_mem hB) _ List.mem_cons_self
  · exact ((List.pairwise_cons.mp hbs).1 _ (List.mem_map_of_mem hB)).symm

theorem mem_middle (B : Area) (hB : B ∈ as ++ bs) : B ∈ as ++ A :: bs := by
  rcases List.mem_append.mp hB with hB | hB <;> simp [hB]

/-- The other areas lie outside. -/
theorem agree_of_outside (hr : Rep held h (as ++ A :: bs))
    (hout : ∀ x : U64, x.toNat < A.start ∨ A.stop ≤ x.toNat → m' x = h.mem x) : ∀ B ∈ as ++ bs, h.mem.Agree m' B.start B.stop := by
  intro B hB x hlo hhi
  rcases hr.apart_middle B hB with hap | hap
  · exact hout x (.inl (lt_of_lt_of_le hhi hap))
  · exact hout x (.inr (hap.trans hlo))

theorem major_of_agree (hok : B.Ok h.mem) (hag : h.mem.Agree h'.mem B.start B.stop) : h'.major B.addr = h.major B.addr := by
  have hsize : Major.layout.size = 40 := rfl
  have hle := hok.fits.laid.le
  have hstop := hok.fits.stop_le
  have hstart : B.start = B.addr.toNat := rfl
  exact Layout.load_of_agree (by omega) (hag.mono (by omega) (by omega))

/-- One area is replaced by another one in the same place. -/
theorem replace (hr : Rep held h (as ++ A :: bs)) (hrun : A'.run = A.run) (hok : A'.Ok h'.mem)
    (hout : ∀ x : U64, x.toNat < A.start ∨ A.stop ≤ x.toNat → h'.mem x = h.mem x)
    (hnext : (h'.major A.addr).next = (h.major A.addr).next) (hprev : (h'.major A.addr).prev = (h.major A.addr).prev)
    (hstat : h' = { h with mem := h'.mem, inuse := h'.inuse })
    (hinuse : h'.inuse = BitVec.ofNat 64 ((live (as ++ A' :: bs)).map fun b => b.size.toNat).sum) :
    Rep held h' (as ++ A' :: bs) := by
  have hag := hr.agree_of_outside hout
  have haddr : A'.addr = A.addr := congrArg Prod.fst hrun
  have haddrs : (as ++ A' :: bs).map Area.addr = (as ++ A :: bs).map Area.addr := by simp [haddr]
  have hruns : (as ++ A' :: bs).map Area.run = (as ++ A :: bs).map Area.run := by simp [hrun]
  have hbytes : (as ++ A' :: bs).map Area.bytes = (as ++ A :: bs).map Area.bytes := by
    have hpages : A'.pages = A.pages := congrArg Prod.snd hrun
    simp [Area.bytes, hpages]
  have hroot : h'.memRoot = h.memRoot := by rw [hstat]
  have hbest : h'.bestBet = h.bestBet := by rw [hstat]
  have hpages : h'.pages = h.pages := by rw [hstat]
  have hmajor : ∀ B ∈ as ++ bs, h'.major B.addr = h.major B.addr := fun B hB =>
    major_of_agree (hr.ok B (mem_middle B hB)) (hag B hB)
  have hcases : ∀ a ∈ (as ++ A :: bs).map Area.addr, a = A.addr ∨ ∃ B ∈ as ++ bs, B.addr = a := fun a ha => by
    obtain ⟨B, hB, rfl⟩ := List.mem_map.mp ha
    rcases List.mem_append.mp hB with hB | hB
    · exact .inr ⟨B, List.mem_append_left _ hB, rfl⟩
    · rcases List.mem_cons.mp hB with rfl | hB
      · exact .inl rfl
      · exact .inr ⟨B, List.mem_append_right _ hB, rfl⟩
  constructor
  · rw [haddrs, hroot]
    refine hr.linked.congr (fun a ha => ?_) fun a ha => ?_
    · rcases hcases a ha with rfl | ⟨B, hB, rfl⟩
      · exact hnext
      · exact congrArg Major.next (hmajor B hB)
    · rcases hcases a ha with rfl | ⟨B, hB, rfl⟩
      · exact hprev
      · exact congrArg Major.prev (hmajor B hB)
  · intro B hB
    rcases List.mem_append.mp hB with hB | hB
    · have hB' : B ∈ as ++ bs := List.mem_append_left _ hB
      exact (hr.ok B (mem_middle B hB')).of_agree (hag B hB')
    · rcases List.mem_cons.mp hB with rfl | hB
      · exact hok
      · have hB' : B ∈ as ++ bs := List.mem_append_right _ hB
        exact (hr.ok B (mem_middle B hB')).of_agree (hag B hB')
  · rw [hruns]
    exact hr.apart
  · rw [haddrs, hbest]
    exact hr.best
  · rw [hbytes, ← hr.allocated, hstat]
  · exact hinuse
  · rw [hruns, hpages]
    exact hr.held

theorem kept_of_same (hr : Rep held h (as ++ A :: bs)) (hout : ∀ x : U64, x.toNat < A.start ∨ A.stop ≤ x.toNat → m' x = h.mem x)
    (hdata : ∀ c ∈ A.blocks, h.mem.Agree m' c.ptr.toNat c.stop) : Kept h.mem m' (as ++ A :: bs) := by
  have hag := hr.agree_of_outside hout
  have hothers : Kept h.mem m' (as ++ bs) := .of_agree (fun B hB => hr.ok B (mem_middle B hB)) hag
  intro b hb
  rw [live_append, live_cons, List.mem_append, List.mem_append] at hb
  rcases hb with hb | hb | hb
  · exact hothers b (by rw [live_append]; exact List.mem_append_left _ hb)
  · exact hdata b hb
  · exact hothers b (by rw [live_append]; exact List.mem_append_right _ hb)

end Heap.Rep

/-! ## Links between areas -/

/-- The areas are represented in memory and lie apart. -/
structure Placed (m : Mem) (areas : List Area) : Prop where
  ok : ∀ A ∈ areas, A.Ok m
  apart : (areas.map Area.run).Pairwise PageRun.Apart

namespace Placed

theorem apart_of_ne (h : Placed m areas) (hA : A ∈ areas) (hB : B ∈ areas) (hne : A ≠ B) : A.run.Apart B.run := by
  have hap : areas.Pairwise fun A B => A.run.Apart B.run := List.pairwise_map.mp h.apart
  have hsym : Std.Symm fun A B : Area => A.run.Apart B.run := ⟨fun _ _ => Or.symm⟩
  exact hap.forall hA hB hne

theorem addr_inj (h : Placed m areas) (hA : A ∈ areas) (hB : B ∈ areas) (he : A.addr = B.addr) : A = B := by
  by_contra hne
  have hap := h.apart_of_ne hA hB hne
  have hpA := (h.ok A hA).fits.min_pages
  have hpB := (h.ok B hB).fits.min_pages
  simp only [PageRun.Apart, PageRun.start, PageRun.stop, Area.run, he] at hap
  omega

end Placed

/-- The links of the areas are changed by `f`, and nothing else is. -/
structure Relinked (areas : List Area) (f : U64 → Major → Major) (h h' : Heap P) : Prop where
  major : ∀ A ∈ areas, h'.major A.addr = f A.addr (h.major A.addr)
  placed : Placed h'.mem areas
  kept : Kept h.mem h'.mem areas
  outside : ∀ x : U64, (∀ A ∈ areas, x.toNat < A.start ∨ A.stop ≤ x.toNat) → h'.mem x = h.mem x
  statics : h' = { h with mem := h'.mem }

namespace Relinked

variable {f f' : U64 → Major → Major}

theorem refl (hp : Placed h.mem areas) : Relinked areas (fun _ r => r) h h :=
  ⟨fun _ _ => rfl, hp, .refl _ _, fun _ _ => rfl, rfl⟩

theorem trans {h'' : Heap P} (e : Relinked areas f h h') (e' : Relinked areas f' h' h'') :
    Relinked areas (fun a r => f' a (f a r)) h h'' where
  major A hA := by rw [e'.major A hA, e.major A hA]
  placed := e'.placed
  kept := e.kept.trans e'.kept
  outside x hx := (e'.outside x hx).trans (e.outside x hx)
  statics := by rw [e'.statics, e.statics]

theorem congr (e : Relinked areas f h h') (hf : ∀ A ∈ areas, ∀ r, f' A.addr r = f A.addr r) : Relinked areas f' h h' :=
  ⟨fun A hA => by rw [e.major A hA, hf A hA], e.placed, e.kept, e.outside, e.statics⟩

theorem setMajor (hp : Placed h.mem areas) (hA : A ∈ areas) {r : Major} {k : Major → Major} (hr : r = k (h.major A.addr))
    (hk : ∀ r, (k r).pages = r.pages ∧ (k r).size = r.size ∧ (k r).usage = r.usage ∧ (k r).first = r.first) :
    Relinked areas (fun a r => if a = A.addr then k r else r) h (h.setMajor A.addr r) := by
  have e := Area.Edit.setMajor (hp.ok A hA).fits hr
  have hag : ∀ B ∈ areas, B ≠ A → h.mem.Agree (h.setMajor A.addr r).mem B.start B.stop := fun B hB hne x hlo hhi => by
    refine e.same.outside x ?_
    rcases hp.apart_of_ne hB hA hne with hap | hap
    · exact .inl (lt_of_lt_of_le hhi hap)
    · exact .inr (hap.trans hlo)
  refine ⟨fun B hB => ?_, ⟨fun B hB => ?_, hp.apart⟩, fun b hb => ?_, fun x hx => e.same.outside x (hx A hA), rfl⟩
  · by_cases hBA : B = A
    · rw [if_pos (congrArg Area.addr hBA), hBA]
      exact e.major
    · rw [if_neg fun he => hBA (hp.addr_inj hB hA he)]
      exact Heap.Rep.major_of_agree (hp.ok B hB) (hag B hB hBA)
  · by_cases hBA : B = A
    · rw [hBA]
      have hmajor : Major.layout.load (h.setMajor A.addr r).mem A.addr = k (Major.layout.load h.mem A.addr) := e.major
      obtain ⟨hpages, hsize, husage, hfirst⟩ := hk (Major.layout.load h.mem A.addr)
      exact (hp.ok A hA).congr (by rw [hmajor, hpages]) (by rw [hmajor, hsize]) (by rw [hmajor, husage])
        (by rw [hmajor, hfirst]) e.minor e.note
    · exact (hp.ok B hB).of_agree (hag B hB hBA)
  · obtain ⟨B, hB, hb⟩ := mem_live.mp hb
    by_cases hBA : B = A
    · exact e.same.data b (hBA ▸ hb)
    · have hb' := (hp.ok B hB).fits.block_bounds hb
      have hstart : B.start = B.addr.toNat := rfl
      exact (hag B hB hBA).mono (by omega) (by omega)

theorem setNext (hp : Placed h.mem areas) (hA : A ∈ areas) (v : U64) :
    Relinked areas (fun a r => if a = A.addr then { r with next := v } else r) h (h.setMajorNext A.addr v) :=
  setMajor hp hA rfl fun _ => ⟨rfl, rfl, rfl, rfl⟩

theorem setPrev (hp : Placed h.mem areas) (hA : A ∈ areas) (v : U64) :
    Relinked areas (fun a r => if a = A.addr then { r with prev := v } else r) h (h.setMajorPrev A.addr v) :=
  setMajor hp hA rfl fun _ => ⟨rfl, rfl, rfl, rfl⟩

end Relinked

/-! ## New areas -/

theorem Heap.Rep.placed (hr : Rep held h areas) : Placed h.mem areas := ⟨hr.ok, hr.apart⟩

/-- Nothing has changed for the areas. -/
theorem Heap.Rep.of_agree (hr : Rep held h areas) (hag : ∀ A ∈ areas, h.mem.Agree h'.mem A.start A.stop)
    (hroot : h'.memRoot = h.memRoot) (hbest : h'.bestBet = h.bestBet) (halloc : h'.allocated = h.allocated)
    (hinuse : h'.inuse = h.inuse) (hheld : held h'.pages = held h.pages) : Rep held h' areas where
  linked := by
    rw [hroot]
    refine hr.linked.congr (fun a ha => ?_) fun a ha => ?_
    all_goals
      obtain ⟨A, hA, rfl⟩ := List.mem_map.mp ha
      rw [major_of_agree (hr.ok A hA) (hag A hA)]
  ok A hA := (hr.ok A hA).of_agree (hag A hA)
  apart := hr.apart
  best := hbest ▸ hr.best
  allocated := halloc.trans hr.allocated
  inuse := hinuse.trans hr.inuse
  held := hheld.trans hr.held

theorem toNat_pagesFor (size : U32) :
    (pagesFor size).toNat = max 16 (((size.toNat + 80) % 2 ^ 32 + 4095) / 4096) := by
  obtain ⟨st, hst⟩ : ∃ st, size + 40 + 40 = st := ⟨_, rfl⟩
  have hst' : st.toNat = (size.toNat + 80) % 2 ^ 32 := by
    rw [← hst]
    simp only [BitVec.toNat_add, BitVec.ofNat_eq_ofNat, BitVec.toNat_ofNat]
    omega
  have hmod : st % liballocPageSize = 0 ↔ st.toNat % 4096 = 0 := by
    rw [BitVec.toNat_eq, BitVec.toNat_umod]
    simp [liballocPageSize]
  have hdiv : (st / liballocPageSize).toNat = st.toNat / 4096 := by
    rw [BitVec.toNat_udiv]
    simp [liballocPageSize]
  have hnext : (st / liballocPageSize + 1).toNat = st.toNat / 4096 + 1 := by
    rw [BitVec.toNat_add, hdiv]
    simp only [BitVec.ofNat_eq_ofNat, BitVec.toNat_ofNat]
    omega
  have hlt : ∀ st : U32, st < liballocPageCount ↔ st.toNat < 16 := fun st => by simp [BitVec.lt_def, liballocPageCount]
  have hcount : liballocPageCount.toNat = 16 := rfl
  rw [← hst']
  simp only [pagesFor, hst, hmod, hlt]
  split <;> split <;> omega

theorem pagesFor_spec {size : U32} (h : size.toNat + 80 ≤ 2 ^ 32 - 4096) :
    16 ≤ (pagesFor size).toNat ∧ (pagesFor size).toNat < 2 ^ 20 ∧ size.toNat + 80 ≤ (pagesFor size).toNat * 4096 := by
  rw [toNat_pagesFor]
  omega

/-- The areas and the variables that are about them are as before. -/
structure Calm (areas : List Area) (h h' : Heap P) : Prop where
  agree : ∀ A ∈ areas, h.mem.Agree h'.mem A.start A.stop
  memRoot : h'.memRoot = h.memRoot
  bestBet : h'.bestBet = h.bestBet
  inuse : h'.inuse = h.inuse
  errorCount : h'.errorCount = h.errorCount

/-- The heap was given a new area without blocks, which is not linked yet. -/
structure Granted (held : P → Set PageRun) (areas : List Area) (N : Area) (h h' : Heap P) : Prop where
  calm : Calm areas h h'
  ok : N.Ok h'.mem
  empty : N.blocks = []
  next : (h'.major N.addr).next = 0
  prev : (h'.major N.addr).prev = 0
  apart : ∀ A ∈ areas, A.run.Apart N.run
  allocated : h'.allocated = h.allocated + BitVec.ofNat 64 N.bytes
  held : held h'.pages = insert N.run (held h.pages)

theorem allocateNewPage_cases {size : U32} (hS : S.Ok held) (hr : h.Rep held areas) (hsize : size.toNat + 80 ≤ 2 ^ 32 - 4096) :
    (∃ h', allocateNewPage S h size = (0, h') ∧ (S.liballocAlloc h.pages h.mem (pagesFor size)).1 = 0 ∧ Calm areas h h' ∧
      h'.allocated = h.allocated ∧ held h'.pages = held h.pages) ∨
      ∃ N h', allocateNewPage S h size = (N.addr, h') ∧ size.toNat + 80 ≤ N.bytes ∧ Granted held areas N h h' := by
  have hheld : ∀ A ∈ areas, A.run ∈ held h.pages := fun A hA => by
    rw [hr.held]
    exact List.mem_map_of_mem hA
  obtain ⟨hmin, hmax, hbytes⟩ := pagesFor_spec hsize
  rcases hal : S.liballocAlloc h.pages h.mem (pagesFor size) with ⟨a, p', m'⟩
  by_cases h0 : a = 0
  · subst h0
    obtain ⟨hp, hag⟩ := hS.failed hal
    refine .inl ⟨{ h with pages := p', mem := m', warningCount := h.warningCount + 1 }, ?_, rfl,
      ⟨fun A hA => ?_, rfl, rfl, rfl, rfl⟩, rfl, hp⟩
    · simp [allocateNewPage, hal]
    · exact hag _ (hheld A hA)
  · obtain ⟨hp, hstop, hrest⟩ := hS.alloc hal h0
    obtain ⟨N, hN⟩ : ∃ N : Area, N = ⟨a, pagesFor size, []⟩ := ⟨_, rfl⟩
    have haddr : N.addr = a := by rw [hN]
    have hrun : N.run = (a, pagesFor size) := by rw [hN]; rfl
    have hfits : N.Fits := by
      have hpos : 0 < a.toNat := Nat.pos_of_ne_zero fun hz => h0 (BitVec.eq_of_toNat_eq hz)
      refine ⟨?_, ?_, ?_, ?_, ?_, ?_⟩
      · rwa [Area.start, hrun]
      · rwa [Area.stop, hrun]
      · rwa [hN]
      · rwa [hN]
      · rw [hN]
        simp only [Laid, Area.start, Area.stop, PageRun.start, PageRun.stop, Area.run]
        omega
      · rw [hN]
        simp
    obtain ⟨m₂, hm₂⟩ : ∃ m₂, Major.layout.store m' a ⟨0, 0, pagesFor size, pagesFor size * liballocPageSize, 40, 0⟩ = m₂ :=
      ⟨_, rfl⟩
    have hmajor : Major.layout.load m₂ N.addr = ⟨0, 0, pagesFor size, pagesFor size * liballocPageSize, 40, 0⟩ := by
      rw [← hm₂, haddr]
      exact Major.layout.load_store _ _ _
    have hsum : ((pagesFor size * liballocPageSize).setWidth 64 : U64) = BitVec.ofNat 64 N.bytes := by
      apply BitVec.eq_of_toNat_eq
      simp only [hN, Area.bytes, BitVec.toNat_setWidth, BitVec.toNat_mul, BitVec.toNat_ofNat, liballocPageSize,
        BitVec.ofNat_eq_ofNat]
      omega
    refine .inr ⟨N, { h with pages := p', mem := m₂, allocated := h.allocated + (pagesFor size * liballocPageSize).setWidth 64 },
      ?_, ?_, ⟨?_, ?_, ?_, ?_, ?_, fun A hA => ?_, ?_, ?_⟩⟩
    · simp only [allocateNewPage, hal, h0, ↓reduceIte, haddr, Heap.setMajor, hm₂]
    · rw [hN]
      exact hbytes
    · refine ⟨fun A hA => (hrest _ (hheld A hA)).2.trans ?_, rfl, rfl, rfl, rfl⟩
      have hap := (hrest _ (hheld A hA)).1
      have hsize40 : Major.layout.size = 40 := rfl
      simp only [PageRun.Apart, PageRun.start, PageRun.stop] at hap hstop
      show m'.Agree m₂ _ _
      rw [← hm₂]
      refine Layout.store_agree (by omega) ?_
      simp only [PageRun.start, PageRun.stop]
      omega
    · refine ⟨hfits, ?_, ?_, ?_, ?_, ?_⟩
      · rw [hmajor, hN]
      · rw [hmajor, hN]
      · rw [hmajor, hN]
        rfl
      · rw [hmajor, hN]
        exact ⟨rfl, trivial⟩
      · rw [hN]
        simp
    · rw [hN]
    · exact congrArg Major.next hmajor
    · exact congrArg Major.prev hmajor
    · rw [hrun]
      exact (hrest _ (hheld A hA)).1
    · rw [hsum]
    · rw [hrun]
      exact hp

namespace Granted

variable {N : Area}

theorem placed (hr : h.Rep held areas) (hg : Granted held areas N h h') : Placed h'.mem (areas ++ [N]) := by
  constructor
  · intro B hB
    rcases List.mem_append.mp hB with hB | hB
    · exact (hr.ok B hB).of_agree (hg.calm.agree B hB)
    · rw [List.mem_singleton.mp hB]
      exact hg.ok
  · rw [List.map_append, List.pairwise_append]
    refine ⟨hr.apart, List.pairwise_singleton _ _, fun r hrun s hs => ?_⟩
    obtain ⟨B, hB, rfl⟩ := List.mem_map.mp hrun
    rw [List.mem_singleton.mp hs]
    exact hg.apart B hB

theorem major (hr : h.Rep held areas) (hg : Granted held areas N h h') (hB : B ∈ areas) : h'.major B.addr = h.major B.addr :=
  Heap.Rep.major_of_agree (hr.ok B hB) (hg.calm.agree B hB)

theorem addr_ne (hr : h.Rep held areas) (hg : Granted held areas N h h') (hB : B ∈ areas) : B.addr ≠ N.addr := by
  intro he
  have hap := hg.apart B hB
  have hpB := (hr.ok B hB).fits.min_pages
  have hpN := hg.ok.fits.min_pages
  simp only [PageRun.Apart, PageRun.start, PageRun.stop, Area.run, he] at hap
  omega

theorem live_eq (hg : Granted held areas N h h') : live (areas ++ [N]) = live areas := by
  simp [live, hg.empty]

/-- What is left to show when the new area has been linked. -/
theorem rep_of_linked {h'' : Heap P} (hr : h.Rep held areas) (hg : Granted held areas N h h') (hp : Placed h''.mem (areas ++ [N]))
    (hlinked : Linked (fun a => (h''.major a).next) (fun a => (h''.major a).prev) 0 h''.memRoot ((areas ++ [N]).map Area.addr))
    (hstat : h'' = { h' with mem := h''.mem, memRoot := h''.memRoot }) : h''.Rep held (areas ++ [N]) where
  linked := hlinked
  ok := hp.ok
  apart := hp.apart
  best := by
    have hbest : h''.bestBet = h.bestBet := by rw [hstat]; exact hg.calm.bestBet
    rw [hbest, List.map_append]
    exact hr.best.imp_right (List.mem_append_left _)
  allocated := by
    have halloc : h''.allocated = h.allocated + BitVec.ofNat 64 N.bytes := by rw [hstat]; exact hg.allocated
    rw [halloc, hr.allocated, List.map_append, List.sum_append, BitVec.ofNat_add]
    simp
  inuse := by
    have hinuse : h''.inuse = h.inuse := by rw [hstat]; exact hg.calm.inuse
    rw [hinuse, hr.inuse, hg.live_eq]
  held := by
    have hpages : h''.pages = h'.pages := by rw [hstat]
    rw [hpages, hg.held, hr.held]
    ext r
    simp [or_comm]

/-- The new area behind the last one. -/
theorem rep (hr : h.Rep held (as ++ [A])) (hg : Granted held (as ++ [A]) N h h') :
    ((h'.setMajorNext A.addr N.addr).setMajorPrev N.addr A.addr).Rep held (as ++ [A] ++ [N]) ∧
      Kept h.mem ((h'.setMajorNext A.addr N.addr).setMajorPrev N.addr A.addr).mem (as ++ [A]) := by
  have hA : A ∈ as ++ [A] := by simp
  have hp := hg.placed hr
  have enext := Relinked.setNext hp (List.mem_append_left _ hA) N.addr
  have e := enext.trans (Relinked.setPrev enext.placed (A := N) (by simp) A.addr)
  generalize (h'.setMajorNext A.addr N.addr).setMajorPrev N.addr A.addr = h'' at e
  have hmajor : ∀ B ∈ as ++ [A], h''.major B.addr =
      if B.addr = A.addr then { h.major B.addr with next := N.addr } else h.major B.addr := fun B hB => by
    rw [e.major B (List.mem_append_left _ hB), if_neg (hg.addr_ne hr hB), hg.major hr hB]
  have hnew : h''.major N.addr = { h'.major N.addr with prev := A.addr } := by
    rw [e.major N (by simp), if_pos rfl, if_neg (hg.addr_ne hr hA).symm]
  have hlast : ((as ++ [A]).map Area.addr).getLast? = some A.addr := by simp
  have hroot : h''.memRoot = h.memRoot := by rw [e.statics]; exact hg.calm.memRoot
  have hlinked : Linked (fun a => (h.major a).next) (fun a => (h.major a).prev) 0 h.memRoot ((as ++ [A]).map Area.addr ++ []) := by
    rw [List.append_nil]
    exact hr.linked
  constructor
  · refine hg.rep_of_linked hr e.placed ?_ (by rw [e.statics])
    have hl := hlinked.put (n := N.addr) (fun a => (h''.major a).next) (fun a => (h''.major a).prev)
      hg.ok.fits.addr_ne_zero ?_ ?_ (fun a ha => ?_) fun a ha => ?_
    · have hhead : ((as ++ [A]).map Area.addr).head?.getD N.addr = h''.memRoot := by
        rw [hroot, hr.linked.chain.eq_head]
        cases as <;> rfl
      rw [hhead, ← List.map_singleton, ← List.map_append] at hl
      exact hl
    · rw [hnew]
      exact hg.next
    · rw [hnew, hlast]
      rfl
    · rw [List.append_nil] at ha
      obtain ⟨B, hB, rfl⟩ := List.mem_map.mp ha
      rw [hmajor B hB, hlast]
      simp only [Option.some.injEq, eq_comm (a := A.addr)]
      split <;> rfl
    · rw [List.append_nil] at ha
      obtain ⟨B, hB, rfl⟩ := List.mem_map.mp ha
      refine Eq.trans ?_ (if_neg (by simp)).symm
      rw [hmajor B hB]
      split <;> rfl
  · have hkept : Kept h.mem h'.mem (as ++ [A]) := .of_agree hr.ok hg.calm.agree
    refine hkept.trans fun b hb => e.kept b ?_
    rwa [hg.live_eq]

/-- The new area is the first one. -/
theorem rep_first (hr : h.Rep held []) (hg : Granted held [] N h h') : ({ h' with memRoot := N.addr } : Heap P).Rep held [N] := by
  have hp : Placed h'.mem ([] ++ [N]) := hg.placed hr
  refine hg.rep_of_linked hr hp ?_ rfl
  exact ⟨⟨rfl, hg.ok.fits.addr_ne_zero, hg.next⟩, hg.prev, trivial⟩

end Granted

end ShadowOS.Mm
