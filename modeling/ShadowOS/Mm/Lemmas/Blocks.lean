import ShadowOS.Mm.LiballocSpec

/-!
# Headers of blocks and areas in memory

The headers of an area and the notes on alignment lie apart, so that a store to one of them leaves the others and the data
of the blocks as they are.
-/

namespace ShadowOS.Mm

variable {P : Type} {m m' : Mem} {h h' : Heap P} {A : Area} {b c : Block}

/-! ## Aligned pointers -/

theorem toNat_and_15 (p : U64) : (p &&& 15).toNat = p.toNat % 16 := by
  rw [BitVec.toNat_and]
  exact Nat.and_two_pow_sub_one_eq_mod p.toNat 4

theorem alignDiff_spec (p : U64) : (alignDiff p).toNat < 16 ∧ (p.toNat + (alignDiff p).toNat) % 16 = 0 := by
  have hp := toNat_and_15 p
  unfold alignDiff
  split
  · rename_i h0
    have hne : p.toNat % 16 ≠ 0 := fun hz => h0 (BitVec.eq_of_toNat_eq (by rw [hp, hz]; rfl))
    rw [BitVec.toNat_sub, hp]
    simp only [BitVec.ofNat_eq_ofNat, BitVec.toNat_ofNat]
    omega
  · rename_i h0
    rw [not_not.mp h0] at hp
    simp only [BitVec.ofNat_eq_ofNat, BitVec.toNat_ofNat] at hp ⊢
    omega

/-- The note is a positive `char`. -/
theorem signExtend_note {d : U64} (hd : d.toNat < 16) : ((d + 16).setWidth 8).signExtend 64 = d + 16 := by
  have hall : ∀ i : Fin 16, ((BitVec.ofNat 64 i.1 + 16 : U64).setWidth 8).signExtend 64 = BitVec.ofNat 64 i.1 + 16 := by decide
  simpa using hall ⟨d.toNat, hd⟩

namespace Block

theorem toNat_data (h : b.addr.toNat + 40 < 2 ^ 64) : (b.addr + headerSize).toNat = b.addr.toNat + 40 := by
  rw [BitVec.toNat_add]
  simp only [headerSize, BitVec.ofNat_eq_ofNat, BitVec.toNat_ofNat]
  omega

/-- The pointer lies behind the header and the note. -/
theorem ptr_bounds (h : b.addr.toNat + 72 ≤ 2 ^ 64) :
    b.addr.toNat + 56 ≤ b.ptr.toNat ∧ b.ptr.toNat < b.addr.toNat + 72 ∧ b.ptr.toNat % 16 = 0 := by
  have hdata := toNat_data (b := b) (by omega)
  have hinfo : (b.addr + headerSize + 16).toNat = b.addr.toNat + 56 := by
    rw [BitVec.toNat_add, hdata]
    simp only [BitVec.ofNat_eq_ofNat, BitVec.toNat_ofNat]
    omega
  have hdiff := alignDiff_spec (b.addr + headerSize + 16)
  rw [hinfo] at hdiff
  rw [ptr, alignPtr, BitVec.toNat_add, hinfo]
  omega

theorem toNat_note (h : b.addr.toNat + 72 ≤ 2 ^ 64) : (b.ptr - 16).toNat = b.ptr.toNat - 16 := by
  have := ptr_bounds h
  have := b.ptr.isLt
  rw [BitVec.toNat_sub]
  simp only [BitVec.ofNat_eq_ofNat, BitVec.toNat_ofNat]
  omega

/-- `UNALIGN` takes the pointer of a block back to the end of its header, as long as the note is there. -/
theorem unalign_of_note (hb : h.mem (b.ptr - 16) = b.note) : h.unalign b.ptr - headerSize = b.addr := by
  obtain ⟨d, hd⟩ : ∃ d, alignDiff (b.addr + headerSize + 16) = d := ⟨_, rfl⟩
  have hlt : d.toNat < 16 := hd ▸ (alignDiff_spec (b.addr + headerSize + 16)).1
  have hnote : (h.mem (b.ptr - 16)).signExtend 64 = d + 16 := by
    rw [hb, Block.note, hd, signExtend_note hlt]
  have hsmall : d + 16 < 16 + 16 := by
    rw [BitVec.lt_def, BitVec.toNat_add]
    simp only [BitVec.ofNat_eq_ofNat, BitVec.reduceAdd, BitVec.toNat_ofNat]
    omega
  have hptr : b.ptr = b.addr + headerSize + 16 + d := by rw [ptr, alignPtr, hd]
  have hunalign : h.unalign b.ptr = b.ptr - (d + 16) := by
    rw [Heap.unalign, hnote]
    exact if_pos hsmall
  rw [hunalign, hptr]
  ring

theorem Ok.unalign {maj : U64} (hb : b.Ok h.mem maj) : h.unalign b.ptr - headerSize = b.addr := unalign_of_note hb.note

end Block

/-! ## Places of an area -/

namespace Area.Fits

variable (hA : A.Fits) (hb : b ∈ A.blocks) (hc : c ∈ A.blocks)

include hA

theorem addr_ne_zero : A.addr ≠ 0 := by
  intro h0
  have hpos : 0 < A.addr.toNat := hA.start_pos
  rw [h0] at hpos
  exact absurd hpos (by decide)

theorem start_add_le : A.addr.toNat + 40 ≤ 2 ^ 64 := by
  have hle : A.addr.toNat + 40 ≤ A.stop := hA.laid.le
  have hstop := hA.stop_le
  omega

include hb

theorem block_bounds : A.addr.toNat + 40 ≤ b.addr.toNat ∧ b.addr.toNat + 72 ≤ b.stop ∧ b.ptr.toNat + b.reqSize.toNat ≤ b.stop ∧
    b.stop ≤ A.stop ∧ b.addr.toNat + 56 ≤ b.ptr.toNat ∧ b.ptr.toNat < b.addr.toNat + 72 := by
  have hbounds := hA.laid.bounds hb
  have hroom := hA.room b hb
  have hstop := hA.stop_le
  have h72 : b.addr.toNat + 72 ≤ 2 ^ 64 := by
    simp only [Block.stop] at hbounds
    omega
  have hptr := Block.ptr_bounds h72
  simp only [Area.start, PageRun.start, Area.run, Block.start, Block.stop] at hbounds ⊢
  omega

theorem block_ne_zero : b.addr ≠ 0 := by
  intro h0
  have := hA.block_bounds hb
  rw [h0] at this
  exact absurd this.1 (by simp)

theorem toNat_note : (b.ptr - 16).toNat = b.ptr.toNat - 16 := by
  have := hA.block_bounds hb
  have := hA.stop_le
  exact Block.toNat_note (by omega)

include hc

theorem block_apart (hne : c ≠ b) : b.stop ≤ c.addr.toNat ∨ c.stop ≤ b.addr.toNat :=
  hA.laid.apart hb hc (Ne.symm hne)

theorem addr_inj (he : c.addr = b.addr) : c = b := by
  by_contra hne
  have hapart := hA.block_apart hb hc hne
  simp only [Block.stop, he] at hapart
  omega

end Area.Fits

/-! ## Changes to one area -/

/-- The data of the blocks and all that is outside of the area is as before. -/
structure Area.SameData (A : Area) (m m' : Mem) : Prop where
  outside : ∀ x : U64, x.toNat < A.start ∨ A.stop ≤ x.toNat → m' x = m x
  data : ∀ c ∈ A.blocks, m.Agree m' c.ptr.toNat c.stop

/-- Only headers of the area are changed: those of the blocks by `f` and its own by `g`. -/
structure Area.Edit (A : Area) (h h' : Heap P) (f : U64 → Minor → Minor) (g : Major → Major) : Prop where
  minor : ∀ c ∈ A.blocks, h'.minor c.addr = f c.addr (h.minor c.addr)
  major : h'.major A.addr = g (h.major A.addr)
  note : ∀ c ∈ A.blocks, h'.mem (c.ptr - 16) = h.mem (c.ptr - 16)
  same : A.SameData h.mem h'.mem
  statics : h' = { h with mem := h'.mem }

namespace Area

variable {f f' : U64 → Minor → Minor} {g g' : Major → Major}

theorem SameData.refl (A : Area) (m : Mem) : A.SameData m m := ⟨fun _ _ => rfl, fun _ _ => .refl _ _ _⟩

theorem SameData.trans {m'' : Mem} (h : A.SameData m m') (h' : A.SameData m' m'') : A.SameData m m'' :=
  ⟨fun x hx => (h'.outside x hx).trans (h.outside x hx), fun c hc => (h.data c hc).trans (h'.data c hc)⟩

namespace Edit

theorem refl (A : Area) (h : Heap P) : A.Edit h h (fun _ r => r) id :=
  ⟨fun _ _ => rfl, rfl, fun _ _ => rfl, .refl _ _, rfl⟩

theorem trans {h'' : Heap P} (e : A.Edit h h' f g) (e' : A.Edit h' h'' f' g') :
    A.Edit h h'' (fun a r => f' a (f a r)) (g' ∘ g) where
  minor c hc := by rw [e'.minor c hc, e.minor c hc]
  major := by rw [e'.major, e.major, Function.comp_apply]
  note c hc := (e'.note c hc).trans (e.note c hc)
  same := e.same.trans e'.same
  statics := by rw [e'.statics, e.statics]

theorem congr (e : A.Edit h h' f g) (hf : ∀ c ∈ A.blocks, ∀ r, f' c.addr r = f c.addr r) (hg : ∀ r, g' r = g r) :
    A.Edit h h' f' g' :=
  ⟨fun c hc => by rw [e.minor c hc, hf c hc], by rw [e.major, hg], e.note, e.same, e.statics⟩

/-- The header of a block is changed. -/
theorem setMinor (hA : A.Fits) (hb : b ∈ A.blocks) {r : Minor} {k : Minor → Minor} (hr : r = k (h.minor b.addr)) :
    A.Edit h (h.setMinor b.addr r) (fun a r => if a = b.addr then k r else r) id := by
  have hstop := hA.stop_le
  have hb' := hA.block_bounds hb
  have hsize : b.addr.toNat + Minor.layout.size ≤ 2 ^ 64 := by
    have : Minor.layout.size = 36 := rfl
    omega
  have hagree : ∀ lo hi : Nat, hi ≤ b.addr.toNat ∨ b.addr.toNat + 36 ≤ lo → h.mem.Agree (h.setMinor b.addr r).mem lo hi :=
    fun _ _ hlo => Layout.store_agree hsize hlo
  refine ⟨fun c hc => ?_, ?_, fun c hc => ?_, ⟨fun x hx => ?_, fun c hc => ?_⟩, rfl⟩
  · by_cases hcb : c = b
    · rw [if_pos (congrArg Block.addr hcb), hcb, ← hr]
      exact Minor.layout.load_store _ _ _
    · have hc' := hA.block_bounds hc
      have hapart := hA.block_apart hb hc hcb
      rw [if_neg fun he => hcb (hA.addr_inj hb hc he)]
      refine Layout.load_of_agree ?_ (hagree _ _ ?_)
      all_goals
        have : Minor.layout.size = 36 := rfl
        omega
  · refine Layout.load_of_agree ?_ (hagree _ _ ?_)
    all_goals
      have : Major.layout.size = 40 := rfl
      omega
  · have hc' := hA.block_bounds hc
    have hnote := hA.toNat_note hc
    by_cases hcb : c = b
    · subst hcb
      exact hagree (c.ptr - 16).toNat ((c.ptr - 16).toNat + 1) (by omega) _ le_rfl (by omega)
    · have hapart := hA.block_apart hb hc hcb
      exact hagree (c.ptr - 16).toNat ((c.ptr - 16).toNat + 1) (by omega) _ le_rfl (by omega)
  · simp only [Area.start, PageRun.start, Area.run] at hx
    exact hagree x.toNat (x.toNat + 1) (by omega) _ le_rfl (by omega)
  · have hc' := hA.block_bounds hc
    by_cases hcb : c = b
    · subst hcb
      exact hagree _ _ (by omega)
    · have hapart := hA.block_apart hb hc hcb
      exact hagree _ _ (by omega)

/-- The header of the area is changed. -/
theorem setMajor (hA : A.Fits) {r : Major} {k : Major → Major} (hr : r = k (h.major A.addr)) :
    A.Edit h (h.setMajor A.addr r) (fun _ r => r) k := by
  have hstop := hA.stop_le
  have hstart := hA.start_add_le
  have hlaid := hA.laid.le
  have hagree : ∀ lo hi : Nat, hi ≤ A.addr.toNat ∨ A.addr.toNat + 40 ≤ lo → h.mem.Agree (h.setMajor A.addr r).mem lo hi :=
    fun _ _ hlo => Layout.store_agree (L := Major.layout) hstart hlo
  refine ⟨fun c hc => ?_, ?_, fun c hc => ?_, ⟨fun x hx => ?_, fun c hc => ?_⟩, rfl⟩
  · have hc' := hA.block_bounds hc
    refine Layout.load_of_agree ?_ (hagree _ _ ?_)
    all_goals
      have : Minor.layout.size = 36 := rfl
      omega
  · rw [← hr]
    exact Major.layout.load_store _ _ _
  · have hc' := hA.block_bounds hc
    have hnote := hA.toNat_note hc
    exact hagree (c.ptr - 16).toNat ((c.ptr - 16).toNat + 1) (by omega) _ le_rfl (by omega)
  · simp only [Area.start, PageRun.start, Area.run] at hx hlaid
    exact hagree x.toNat (x.toNat + 1) (by omega) _ le_rfl (by omega)
  · have hc' := hA.block_bounds hc
    exact hagree _ _ (by omega)

theorem setUsage (hA : A.Fits) (k : U32 → U32) : A.Edit h (h.setUsage A.addr (k (h.major A.addr).usage)) (fun _ r => r)
    (fun r => { r with usage := k r.usage }) :=
  setMajor hA rfl

theorem setMagic (hA : A.Fits) (hb : b ∈ A.blocks) (v : U32) : A.Edit h (h.setMagic b.addr v)
    (fun a r => if a = b.addr then { r with magic := v } else r) id :=
  setMinor hA hb rfl

/-- The block with this address, if there is one, leads back to `v`. -/
theorem linkNext (hA : A.Fits) {o : Option U64} (ho : ∀ a ∈ o, ∃ q ∈ A.blocks, q.addr = a) (v : U64) :
    A.Edit h (if o.getD 0 ≠ 0 then h.setMinorPrev (o.getD 0) v else h)
      (fun a r => if o = some a then { r with prev := v } else r) id := by
  cases o with
  | none => exact (refl A h).congr (fun c hc r => if_neg (by simp)) fun _ => rfl
  | some a =>
      obtain ⟨q, hq, rfl⟩ := ho a rfl
      rw [if_pos (by exact hA.block_ne_zero hq)]
      refine (setMinor hA hq (k := fun r => { r with prev := v }) rfl).congr (fun c hc r => ?_) fun _ => rfl
      simp only [Option.some.injEq, eq_comm (a := q.addr)]

/-- The block with this address leads on to `v`, or the area does. -/
theorem linkPrev (hA : A.Fits) {o : Option U64} (ho : ∀ a ∈ o, ∃ q ∈ A.blocks, q.addr = a) (v : U64) :
    A.Edit h (if o.getD 0 ≠ 0 then h.setMinorNext (o.getD 0) v else h.setFirst A.addr v)
      (fun a r => if o = some a then { r with next := v } else r)
      (fun r => if o = none then { r with first := v } else r) := by
  cases o with
  | none =>
      rw [if_neg (by simp)]
      exact (setMajor hA (k := fun r => { r with first := v }) rfl).congr (fun c hc r => if_neg (by simp)) fun _ => rfl
  | some a =>
      obtain ⟨q, hq, rfl⟩ := ho a rfl
      rw [if_pos (by exact hA.block_ne_zero hq)]
      refine (setMinor hA hq (k := fun r => { r with next := v }) rfl).congr (fun c hc r => ?_) fun _ => if_neg (by simp)
      simp only [Option.some.injEq, eq_comm (a := q.addr)]

end Edit

/-! ## A new block -/

/-- The area with other blocks. -/
def withBlocks (A : Area) (blocks : List Block) : Area := { A with blocks := blocks }

@[simp] theorem addr_withBlocks (A : Area) (bs : List Block) : (A.withBlocks bs).addr = A.addr := rfl

@[simp] theorem run_withBlocks (A : Area) (bs : List Block) : (A.withBlocks bs).run = A.run := rfl

@[simp] theorem blocks_withBlocks (A : Area) (bs : List Block) : (A.withBlocks bs).blocks = bs := rfl

section

variable {pre post : List Block}

theorem exists_of_mem_getLast {bs : List Block} {a : U64} (ha : a ∈ (pre.map Block.addr).getLast?) (hsub : pre ⊆ bs) :
    ∃ q ∈ bs, q.addr = a := by
  obtain ⟨q, hq, rfl⟩ := List.mem_map.mp (List.mem_of_getLast? ha)
  exact ⟨q, hsub hq, rfl⟩

theorem exists_of_mem_head {bs : List Block} {a : U64} (ha : a ∈ (post.map Block.addr).head?) (hsub : post ⊆ bs) :
    ∃ q ∈ bs, q.addr = a := by
  obtain ⟨q, hq, rfl⟩ := List.mem_map.mp (List.mem_of_head? ha)
  exact ⟨q, hsub hq, rfl⟩

theorem Edit.linkMinor (size reqSize : U64) (hA : (A.withBlocks (pre ++ b :: post)).Fits) :
    (A.withBlocks (pre ++ b :: post)).Edit h
      (h.linkMinor A.addr ((pre.map Block.addr).getLast?.getD 0) ((post.map Block.addr).head?.getD 0) b.addr size reqSize)
      (fun a r =>
        if a = b.addr then
          ⟨(pre.map Block.addr).getLast?.getD 0, (post.map Block.addr).head?.getD 0, A.addr, liballocMagic, size.setWidth 32,
            reqSize.setWidth 32⟩
        else
          { r with
            next := if (pre.map Block.addr).getLast? = some a then b.addr else r.next
            prev := if (post.map Block.addr).head? = some a then b.addr else r.prev })
      (fun r =>
        { r with
          first := if (pre.map Block.addr).getLast? = none then b.addr else r.first
          usage := r.usage + (size.setWidth 32 + 40) }) := by
  have hb : b ∈ (A.withBlocks (pre ++ b :: post)).blocks := by simp [withBlocks]
  have hpost : post ⊆ pre ++ b :: post := fun q hq => by simp [hq]
  have hpre : pre ⊆ pre ++ b :: post := fun q hq => by simp [hq]
  have hnext := Edit.linkNext (h := h) hA (fun a ha => exists_of_mem_head ha hpost) b.addr
  have hprev := hnext.trans (Edit.linkPrev hA (fun a ha => exists_of_mem_getLast ha hpre) b.addr)
  have hminor := hprev.trans (Edit.setMinor hA hb (k := fun _ =>
    ⟨(pre.map Block.addr).getLast?.getD 0, (post.map Block.addr).head?.getD 0, A.addr, liballocMagic, size.setWidth 32,
      reqSize.setWidth 32⟩) rfl)
  have husage := hminor.trans (Edit.setUsage hA (· + (size.setWidth 32 + 40)))
  refine husage.congr (fun c hc r => ?_) fun r => ?_
  · by_cases hcb : c.addr = b.addr
    · simp only [hcb, ↓reduceIte]
    · simp only [hcb, ↓reduceIte]
      split <;> split <;> rfl
  · simp only [Function.comp_apply, id]
    split <;> rfl

/-- The note of a block is changed. -/
structure Noted (A : Area) (b : Block) (v : U8) (m m' : Mem) : Prop where
  minor : ∀ c ∈ A.blocks, Minor.layout.load m' c.addr = Minor.layout.load m c.addr
  major : Major.layout.load m' A.addr = Major.layout.load m A.addr
  note : m' (b.ptr - 16) = v
  others : ∀ c ∈ A.blocks, c ≠ b → m' (c.ptr - 16) = m (c.ptr - 16)
  same : A.SameData m m'

theorem Fits.noted (hA : A.Fits) (hb : b ∈ A.blocks) (v : U8) : A.Noted b v m (Function.update m (b.ptr - 16) v) := by
  have hstop := hA.stop_le
  have hb' := hA.block_bounds hb
  have hnote := hA.toNat_note hb
  have hagree : ∀ lo hi : Nat, hi ≤ b.ptr.toNat - 16 ∨ b.ptr.toNat - 16 < lo →
      m.Agree (Function.update m (b.ptr - 16) v) lo hi :=
    fun _ _ hlo => Mem.update_agree (by rwa [hnote])
  refine ⟨fun c hc => ?_, ?_, Function.update_self _ _ _, fun c hc hcb => ?_, fun x hx => ?_, fun c hc => ?_⟩
  · have hc' := hA.block_bounds hc
    have hsize : Minor.layout.size = 36 := rfl
    by_cases hcb : c = b
    · subst hcb
      exact Layout.load_of_agree (by omega) (hagree _ _ (by omega))
    · have hapart := hA.block_apart hb hc hcb
      exact Layout.load_of_agree (by omega) (hagree _ _ (by omega))
  · have hsize : Major.layout.size = 40 := rfl
    exact Layout.load_of_agree (by omega) (hagree _ _ (by omega))
  · have hc' := hA.block_bounds hc
    have hcnote := hA.toNat_note hc
    have hapart := hA.block_apart hb hc hcb
    exact hagree (c.ptr - 16).toNat ((c.ptr - 16).toNat + 1) (by omega) _ le_rfl (by omega)
  · have hstart : A.start = A.addr.toNat := rfl
    exact hagree x.toNat (x.toNat + 1) (by omega) _ le_rfl (by omega)
  · have hc' := hA.block_bounds hc
    by_cases hcb : c = b
    · subst hcb
      exact hagree _ _ (by omega)
    · have hapart := hA.block_apart hb hc hcb
      exact hagree _ _ (by omega)

theorem used_insert : (A.withBlocks (pre ++ b :: post)).used = (A.withBlocks (pre ++ post)).used + (40 + b.size.toNat) := by
  simp only [used, withBlocks, List.map_append, List.map_cons, List.sum_append, List.sum_cons]
  omega

/-- What `Heap.addMinor` does to an area: there is one more block. -/
structure Added (A A' : Area) (h h' : Heap P) (size : U64) : Prop where
  ok : A'.Ok h'.mem
  same : A'.SameData h.mem h'.mem
  next : (h'.major A.addr).next = (h.major A.addr).next
  prev : (h'.major A.addr).prev = (h.major A.addr).prev
  statics : h' = { h with mem := h'.mem, inuse := h.inuse + size }

theorem Ok.addMinor {size reqSize : U64} (hok : (A.withBlocks (pre ++ post)).Ok h.mem)
    (hA : (A.withBlocks (pre ++ b :: post)).Fits) (hsize : b.size = size.setWidth 32) (hreq : b.reqSize = reqSize.setWidth 32) :
    ∃ h', h.addMinor A.addr ((pre.map Block.addr).getLast?.getD 0) ((post.map Block.addr).head?.getD 0) b.addr size reqSize =
        (b.ptr, h') ∧ Added A (A.withBlocks (pre ++ b :: post)) h h' size := by
  have hb : b ∈ (A.withBlocks (pre ++ b :: post)).blocks := by simp [withBlocks]
  have hsub : ∀ c ∈ pre ++ post, c ∈ pre ++ b :: post := fun c hc => by
    rcases List.mem_append.mp hc with hc | hc <;> simp [hc]
  have hne : ∀ c ∈ pre ++ post, c ≠ b := by
    have hnd := List.nodup_middle.mp hA.laid.nodup
    rintro c hc rfl
    exact (List.nodup_cons.mp hnd).1 hc
  have haddr : ∀ c ∈ pre ++ post, c.addr ≠ b.addr := fun c hc he => hne c hc (hA.addr_inj hb (hsub c hc) he)
  have e := Edit.linkMinor (h := h) size reqSize hA
  generalize hl : h.linkMinor A.addr ((pre.map Block.addr).getLast?.getD 0) ((post.map Block.addr).head?.getD 0) b.addr size
    reqSize = h₁ at e
  have n := hA.noted (m := h₁.mem) hb b.note
  generalize hm : Function.update h₁.mem (b.ptr - 16) b.note = m₂ at n
  refine ⟨{ h₁ with inuse := h₁.inuse + size, mem := m₂ }, ?_, ?_⟩
  · rw [← hm]
    simp only [Heap.addMinor, Heap.align, hl]
    rfl
  -- the headers after both changes
  have hminor : ∀ c ∈ pre ++ post, Minor.layout.load m₂ c.addr = { h.minor c.addr with
      next := if (pre.map Block.addr).getLast? = some c.addr then b.addr else (h.minor c.addr).next
      prev := if (post.map Block.addr).head? = some c.addr then b.addr else (h.minor c.addr).prev } := fun c hc => by
    rw [n.minor c (hsub c hc)]
    exact (e.minor c (hsub c hc)).trans (if_neg (haddr c hc))
  have hnew := (n.minor b hb).trans ((e.minor b hb).trans (if_pos rfl))
  have hmajor := n.major.trans e.major
  refine ⟨⟨hA, ?_, ?_, ?_, ?_, ?_⟩, e.same.trans n.same, ?_, ?_, ?_⟩
  · exact (congrArg Major.pages hmajor).trans hok.pages
  · exact (congrArg Major.size hmajor).trans hok.size
  · have husage : (h.major A.addr).usage = BitVec.ofNat 32 (A.withBlocks (pre ++ post)).used := hok.usage
    have husage' : (Major.layout.load m₂ A.addr).usage = (h.major A.addr).usage + (size.setWidth 32 + 40) :=
      congrArg Major.usage hmajor
    show (Major.layout.load m₂ A.addr).usage = _
    rw [husage', husage, used_insert, BitVec.ofNat_add, BitVec.ofNat_add, ← hsize, BitVec.ofNat_toNat, BitVec.setWidth_eq,
      BitVec.add_comm b.size]
    rfl
  · have hlinked := hok.linked
    simp only [withBlocks, List.map_append] at hlinked
    have hfirst : (Major.layout.load m₂ A.addr).first = (pre.map Block.addr).head?.getD b.addr := by
      refine (congrArg Major.first hmajor).trans ?_
      have hhead := hlinked.chain.eq_head
      cases pre with
      | nil => rfl
      | cons q pre =>
          rw [if_neg (by simp)]
          exact hhead
    have hmem : ∀ {a : U64}, a ∈ pre.map Block.addr ++ post.map Block.addr → ∃ c ∈ pre ++ post, c.addr = a := fun ha => by
      rw [← List.map_append] at ha
      exact List.mem_map.mp ha
    simp only [withBlocks, List.map_append, List.map_cons, hfirst]
    refine hlinked.put _ _ (hA.block_ne_zero hb) (congrArg Minor.next hnew) (congrArg Minor.prev hnew) (fun a ha => ?_)
      fun a ha => ?_
    · obtain ⟨c, hc, rfl⟩ := hmem ha
      exact congrArg Minor.next (hminor c hc)
    · obtain ⟨c, hc, rfl⟩ := hmem ha
      exact congrArg Minor.prev (hminor c hc)
  · intro c hc
    by_cases hcb : c = b
    · subst hcb
      exact ⟨congrArg Minor.block hnew, congrArg Minor.magic hnew, (congrArg Minor.size hnew).trans hsize.symm,
        (congrArg Minor.reqSize hnew).trans hreq.symm, n.note⟩
    · have hc' : c ∈ pre ++ post := by
        have hmem : c ∈ pre ++ b :: post := hc
        simp only [List.mem_append, List.mem_cons, hcb, false_or] at hmem
        exact List.mem_append.mpr hmem
      have hcok := hok.blocks c hc'
      exact ⟨(congrArg Minor.block (hminor c hc')).trans hcok.block, (congrArg Minor.magic (hminor c hc')).trans hcok.magic,
        (congrArg Minor.size (hminor c hc')).trans hcok.size, (congrArg Minor.reqSize (hminor c hc')).trans hcok.reqSize,
        (n.others c hc hcb).trans ((e.note c hc).trans hcok.note)⟩
  · exact (congrArg Major.next hmajor).trans rfl
  · exact (congrArg Major.prev hmajor).trans rfl
  · rw [e.statics]

/-! ## A block less -/

theorem Fits.remove (hA : (A.withBlocks (pre ++ b :: post)).Fits) : (A.withBlocks (pre ++ post)).Fits where
  start_pos := hA.start_pos
  stop_le := hA.stop_le
  min_pages := hA.min_pages
  max_pages := hA.max_pages
  laid := hA.laid.remove
  room c hc := hA.room c (by
    have hmem : c ∈ pre ++ post := hc
    rcases List.mem_append.mp hmem with hc | hc <;> simp [withBlocks, hc])

/-- What `Heap.removeMinor` does to an area. -/
structure Removed (A A' : Area) (b : Block) (h h' : Heap P) : Prop where
  ok : A'.Ok h'.mem
  same : A.SameData h.mem h'.mem
  next : (h'.major A.addr).next = (h.major A.addr).next
  prev : (h'.major A.addr).prev = (h.major A.addr).prev
  dead : (h'.minor b.addr).magic = liballocDead
  note : h'.mem (b.ptr - 16) = b.note
  statics : h' = { h with mem := h'.mem, inuse := h.inuse - b.size.setWidth 64 }

theorem Edit.removeMinor (hok : (A.withBlocks (pre ++ b :: post)).Ok h.mem) :
    (A.withBlocks (pre ++ b :: post)).Edit { h with inuse := h.inuse - b.size.setWidth 64 } (h.removeMinor A.addr b.addr)
      (fun a r =>
        { r with
          magic := if a = b.addr then liballocDead else r.magic
          next := if (pre.map Block.addr).getLast? = some a then (h.minor b.addr).next else r.next
          prev := if (post.map Block.addr).head? = some a then (h.minor b.addr).prev else r.prev })
      (fun r =>
        { r with
          first := if (pre.map Block.addr).getLast? = none then (h.minor b.addr).next else r.first
          usage := r.usage - (b.size + 40) }) := by
  have hA := hok.fits
  have hb : b ∈ (A.withBlocks (pre ++ b :: post)).blocks := by simp [withBlocks]
  have hlinked := hok.linked
  simp only [withBlocks, List.map_append, List.map_cons] at hlinked
  have hnext : (h.minor b.addr).next = (post.map Block.addr).head?.getD 0 := hlinked.next_eq
  have hprev : (h.minor b.addr).prev = (pre.map Block.addr).getLast?.getD 0 := hlinked.prev_eq
  have hsize : (h.minor b.addr).size = b.size := (hok.blocks b hb).size
  have hpost : post ⊆ pre ++ b :: post := fun q hq => by simp [hq]
  have hpre : pre ⊆ pre ++ b :: post := fun q hq => by simp [hq]
  have hhead : (post.map Block.addr).head? ≠ some b.addr := fun hmem => by
    have hnd := (List.nodup_cons.mp (List.nodup_append.mp hlinked.nodup).2.1).1
    exact hnd (List.mem_of_head? hmem)
  obtain ⟨h₀, hh₀⟩ : ∃ h₀ : Heap P, { h with inuse := h.inuse - b.size.setWidth 64 } = h₀ := ⟨_, rfl⟩
  have hmin₀ : h₀.minor b.addr = h.minor b.addr := by rw [← hh₀]; rfl
  have hmagic := (Edit.setUsage (h := h₀) hA (· - (b.size + 40))).trans (Edit.setMagic hA hb liballocDead)
  generalize hh₂ : Heap.setMagic _ _ _ = h₂ at hmagic
  have hremove : h.removeMinor A.addr b.addr = (h₂.unlinkNext b.addr).unlinkPrev A.addr b.addr := by
    rw [Heap.removeMinor, hsize]
    simp only [hh₀, hmin₀, hsize, ← hh₂, addr_withBlocks]
  rw [hh₀]
  have hmin₂ : h₂.minor b.addr = { h.minor b.addr with magic := liballocDead } := by
    rw [hmagic.minor b hb, if_pos rfl, hmin₀]
  have hback := hmagic.trans (Edit.linkNext hA (fun a ha => exists_of_mem_head ha hpost) (h.minor b.addr).prev)
  rw [← hnext] at hback
  have hh₃ : h₂.unlinkNext b.addr =
      if (h.minor b.addr).next ≠ 0 then h₂.setMinorPrev (h.minor b.addr).next (h.minor b.addr).prev else h₂ := by
    rw [Heap.unlinkNext, hmin₂]
  rw [← hh₃] at hback
  have hmin₃ : (h₂.unlinkNext b.addr).minor b.addr = { h.minor b.addr with magic := liballocDead } := by
    rw [hback.minor b hb, if_neg hhead, if_pos rfl, hmin₀]
  have hforth := hback.trans (Edit.linkPrev hA (fun a ha => exists_of_mem_getLast ha hpre) (h.minor b.addr).next)
  rw [← hprev] at hforth
  have hh₄ : (h₂.unlinkNext b.addr).unlinkPrev A.addr b.addr =
      if (h.minor b.addr).prev ≠ 0 then (h₂.unlinkNext b.addr).setMinorNext (h.minor b.addr).prev (h.minor b.addr).next
      else (h₂.unlinkNext b.addr).setFirst A.addr (h.minor b.addr).next := by
    rw [Heap.unlinkPrev, hmin₃]
  rw [hremove, hh₄]
  refine hforth.congr (fun c hc r => ?_) fun r => ?_
  · split <;> split <;> split <;> rfl
  · simp only [Function.comp_apply, id]
    split <;> rfl

theorem Ok.removeMinor (hok : (A.withBlocks (pre ++ b :: post)).Ok h.mem) :
    Removed (A.withBlocks (pre ++ b :: post)) (A.withBlocks (pre ++ post)) b h (h.removeMinor A.addr b.addr) := by
  have hb : b ∈ (A.withBlocks (pre ++ b :: post)).blocks := by simp
  have hsub : ∀ c ∈ pre ++ post, c ∈ pre ++ b :: post := fun c hc => by
    rcases List.mem_append.mp hc with hc | hc <;> simp [hc]
  have hlinked := hok.linked
  simp only [blocks_withBlocks, addr_withBlocks, List.map_append, List.map_cons] at hlinked
  have hne : ∀ c ∈ pre ++ post, c.addr ≠ b.addr := fun c hc he => by
    have hnd := List.nodup_middle.mp hok.fits.laid.nodup
    have hcb : c = b := hok.fits.addr_inj hb (hsub c hc) he
    exact (List.nodup_cons.mp hnd).1 (hcb ▸ hc)
  have e := Edit.removeMinor hok
  generalize h.removeMinor A.addr b.addr = h' at e
  have hminor : ∀ c ∈ pre ++ post, h'.minor c.addr = { h.minor c.addr with
      next := if (pre.map Block.addr).getLast? = some c.addr then (h.minor b.addr).next else (h.minor c.addr).next
      prev := if (post.map Block.addr).head? = some c.addr then (h.minor b.addr).prev else (h.minor c.addr).prev } := by
    intro c hc
    refine (e.minor c (hsub c hc)).trans ?_
    rw [if_neg (hne c hc)]
    rfl
  have hmajor := e.major
  refine ⟨⟨hok.fits.remove, ?_, ?_, ?_, ?_, fun c hc => ?_⟩, e.same, ?_, ?_, ?_, ?_, e.statics⟩
  · exact (congrArg Major.pages hmajor).trans hok.pages
  · exact (congrArg Major.size hmajor).trans hok.size
  · have husage : (h.major A.addr).usage = BitVec.ofNat 32 (A.withBlocks (pre ++ b :: post)).used := hok.usage
    have husage' : (h'.major A.addr).usage = (h.major A.addr).usage - (b.size + 40) := congrArg Major.usage hmajor
    have hsize : BitVec.ofNat 32 (40 + b.size.toNat) = b.size + 40 := by
      rw [BitVec.ofNat_add, BitVec.ofNat_toNat, BitVec.setWidth_eq, BitVec.add_comm]
      rfl
    show (h'.major A.addr).usage = _
    rw [husage', husage, used_insert, BitVec.ofNat_add, hsize, BitVec.add_sub_cancel]
  · have hfirst : (h'.major A.addr).first = (pre.map Block.addr ++ post.map Block.addr).head?.getD 0 := by
      refine (congrArg Major.first hmajor).trans ?_
      cases pre with
      | nil => exact hlinked.next_eq
      | cons q pre =>
          rw [if_neg (by simp)]
          exact hlinked.chain.eq_head
    have hmem : ∀ {a : U64}, a ∈ pre.map Block.addr ++ post.map Block.addr → ∃ c ∈ pre ++ post, c.addr = a := fun ha => by
      rw [← List.map_append] at ha
      exact List.mem_map.mp ha
    have hl := hlinked.take (fun a => (h'.minor a).next) (fun a => (h'.minor a).prev) (fun a ha => ?_)
      fun a ha => ?_
    · rw [← hfirst, ← List.map_append] at hl
      exact hl
    · obtain ⟨c, hc, rfl⟩ := hmem ha
      exact congrArg Minor.next (hminor c hc)
    · obtain ⟨c, hc, rfl⟩ := hmem ha
      exact congrArg Minor.prev (hminor c hc)
  · have hcok := hok.blocks c (hsub c hc)
    exact ⟨(congrArg Minor.block (hminor c hc)).trans hcok.block, (congrArg Minor.magic (hminor c hc)).trans hcok.magic,
      (congrArg Minor.size (hminor c hc)).trans hcok.size, (congrArg Minor.reqSize (hminor c hc)).trans hcok.reqSize,
      (e.note c (hsub c hc)).trans hcok.note⟩
  · exact (congrArg Major.next hmajor).trans rfl
  · exact (congrArg Major.prev hmajor).trans rfl
  · exact (congrArg Minor.magic (e.minor b hb)).trans (if_pos rfl)
  · exact (e.note b hb).trans (hok.blocks b hb).note

end

end Area

end ShadowOS.Mm
