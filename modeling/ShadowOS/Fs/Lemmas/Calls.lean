import ShadowOS.Fs.Lemmas.Create

/-!
# Reading and writing in the tree
-/

namespace ShadowOS.Fs

variable {H : Type} {A : Proc.Allocator H} {inUse : H → Set U64} {s s' : State H} {role : U64 → Option Role} {v : U64}
  {T : Set U64}

/-! ## Locks -/

@[simp] theorem Vnode.setLocked_type (node : Vnode) (b : Bool) : (node.setLocked b).type = node.type := rfl

@[simp] theorem Vnode.setLocked_data (node : Vnode) (b : Bool) : (node.setLocked b).data = node.data := rfl

@[simp] theorem Vnode.setLocked_ops (node : Vnode) (b : Bool) : (node.setLocked b).ops = node.ops := rfl

/-- The lock of a vnode is set. -/
def State.lock (s : State H) (v : U64) (b : Bool) : State H := s.setNode v ((s.nodes v).setLocked b)

theorem State.lock_lock (s : State H) (v : U64) (b c : Bool) : (s.lock v b).lock v c = s.lock v c := by
  simp only [State.lock, State.setNode, Function.update_self, Function.update_idem]
  rfl

theorem State.lock_eq (h : (s.nodes v).locked = false) : s.lock v false = s := by
  rw [State.lock, State.setNode, Vnode.setLocked_eq h, Function.update_eq_self]

theorem ramfsPut_lock (s : State H) (v : U64) (b : Bool) (bytes : Nat → U8) (size offset : U64) :
    ramfsPut (s.lock v b) v bytes size offset =
      ((ramfsPut s v bytes size offset).1, (ramfsPut s v bytes size offset).2.lock v b) := by
  simp only [ramfsPut, State.lock, State.setNode, Function.update_self, Function.update_idem]
  rfl

theorem ramfsGrow_lock (s : State H) (v : U64) (b : Bool) (size : U64) :
    ramfsGrow A (s.lock v b) v size = (ramfsGrow A s v size).map fun r => (r.1, r.2.lock v b) := by
  rcases hk : A.kmalloc s.mm s.heap size with ⟨p, mm, heap⟩
  simp only [ramfsGrow, State.lock, State.setNode, Function.update_self, State.kmallocBlock, State.kmalloc, State.kfree, hk]
  by_cases hp : p = 0
  · rw [if_pos hp, if_pos hp, Option.map_none]
  · simp only [if_neg hp, Option.map_some, Function.update_self, Function.update_idem]
    rfl

theorem ramfsWrite_lock (A : Proc.Allocator H) (s : State H) (v : U64) (b : Bool) (bytes : Nat → U8) (size offset : U64) :
    ramfsWrite A (s.lock v b) v (some bytes) size offset =
      ((ramfsWrite A s v (some bytes) size offset).1, (ramfsWrite A s v (some bytes) size offset).2.1,
        (ramfsWrite A s v (some bytes) size offset).2.2.lock v b) := by
  have hnode : (s.lock v b).nodes v = (s.nodes v).setLocked b := Function.update_self _ _ _
  have hramfs : (s.lock v b).ramfs = s.ramfs := rfl
  simp only [ramfsWrite, hnode, hramfs, Vnode.setLocked_type, Vnode.setLocked_data, ramfsGrow_lock]
  split
  · rfl
  · split
    · rfl
    · by_cases hgrow : (s.ramfs (s.nodes v).data).size ≤ offset ∧ (s.ramfs (s.nodes v).data).size < offset + size
      · simp only [if_pos hgrow]
        cases ramfsGrow A s v (offset + size) with
        | none => rfl
        | some r => simp only [Option.map_some, ramfsPut_lock]
      · simp only [if_neg hgrow, ramfsPut_lock]

/-! ## Reads -/

theorem devRead_state (s : State H) (size : U64) (dev : Device) :
    ∃ scancode, (devRead s size dev).2.2 = { s with scancode := scancode } := by
  cases dev with
  | stdout => exact ⟨s.scancode, rfl⟩
  | keyboard =>
      simp only [devRead]
      split
      · exact ⟨s.scancode, rfl⟩
      · split
        · exact ⟨none, rfl⟩
        · exact ⟨s.scancode, rfl⟩

/-- A read leaves the file system as it is, but for the key that it takes from the keyboard. -/
theorem FsInv.vfsRead (h : FsInv inUse role T s) (hv : v ∈ T) (buf size offset : U64) :
    ∃ ret bytes scancode, vfsRead s v buf size offset = .ok (ret, bytes, { s with scancode := scancode }) := by
  have hlock := h.unlocked v hv
  have hnode : (s.lock v true).nodes v = (s.nodes v).setLocked true := Function.update_self _ _ _
  have hback : (s.lock v true).lock v false = s := (State.lock_lock s v true false).trans (State.lock_eq hlock)
  have hunlock : (s.lock v true).setNode v (((s.nodes v).setLocked true).setLocked false) = s := by
    rw [← hnode]
    exact hback
  have hfold : ∀ (t : State H) b, t.setNode v ((t.nodes v).setLocked b) = t.lock v b := fun _ _ => rfl
  simp only [Fs.vfsRead, h.ne_zero hv, ↓reduceIte, hlock, Bool.false_eq_true, hfold, hnode, Vnode.setLocked_type,
    Vnode.setLocked_data, Vnode.setLocked_ops, hunlock]
  split
  · exact ⟨_, _, s.scancode, rfl⟩
  · split
    · exact ⟨_, _, s.scancode, rfl⟩
    · exact ⟨_, _, s.scancode, rfl⟩
    · rename_i hops
      rw [if_neg (h.devs v hv hops)]
      obtain ⟨scancode, hdev⟩ := devRead_state (s.lock v true) size ((s.lock v true).devs (s.nodes v).data)
      have hstate : (devRead (s.lock v true) size ((s.lock v true).devs (s.nodes v).data)).2.2.lock v false =
          { s with scancode := scancode } := by
        rw [hdev]
        exact congrArg (fun t : State H => { t with scancode := scancode }) hback
      rw [hstate]
      exact ⟨_, _, scancode, rfl⟩

/-! ## Writes -/

/-- The control blocks keep their role. -/
def KeepsPcbs (role role' : U64 → Option Role) : Prop := ∀ p, p ≠ 0 → role p = some .pcb → role' p = some .pcb

namespace FsInv

theorem sameVnode_touch (node : Vnode) (size : U64) (accessTime modifyTime : U32) :
    SameVnode { node with size := size, accessTime := accessTime, modifyTime := modifyTime } node :=
  ⟨rfl, rfl, rfl, rfl, rfl, rfl, rfl, rfl, rfl⟩

theorem sameVnode_update (nodes : U64 → Vnode) {node : Vnode} (hsame : SameVnode node (nodes v)) (u : U64) :
    SameVnode (Function.update nodes v node u) (nodes u) := by
  by_cases hu : u = v
  · rw [hu, Function.update_self]
    exact hsame
  · rw [Function.update_of_ne hu]
    exact .refl _

theorem put (h : FsInv inUse role T s) (v : U64) (bytes : Nat → U8) (size offset : U64) :
    FsInv inUse role T (ramfsPut s v bytes size offset).2 := by
  refine h.congr (fun u _ => sameVnode_update s.nodes (sameVnode_touch _ _ _ _) u) (fun u _ _ _ => ?_) rfl rfl h.used
  simp only [ramfsPut]
  by_cases hu : (s.nodes u).data = (s.nodes v).data
  · rw [hu, Function.update_self]
  · rw [Function.update_of_ne hu]

/-- The roles after a file got a new block `p` for the old one `b`. -/
def growRole (role : U64 → Option Role) (b p d : U64) : U64 → Option Role :=
  Function.update (Function.update role b none) p (some (.bytes d))

theorem grow {accesses : List Access} {size : U64} (h : FsInv inUse role T s) (hA : Proc.AllocatorSpec A inUse) (hv : v ∈ T)
    (hops : (s.nodes v).ops = some .ramfs) (hd : (s.nodes v).data ≠ 0) (hres : ramfsGrow A s v size = some (accesses, s')) :
    ∃ p, role p = none ∧ FsInv inUse (growRole role (s.ramfs (s.nodes v).data).data p (s.nodes v).data) T s' := by
  rcases hk : A.kmalloc s.mm s.heap size with ⟨p, mm, heap⟩
  simp only [ramfsGrow, State.kmallocBlock, State.kmalloc, State.kfree, hk] at hres
  split at hres
  · cases hres
  · rename_i hp
    have hfresh : p ∉ inUse s.heap := by simpa only [hk] using hA.fresh s.mm s.heap size (by rw [hk]; exact hp)
    have hheap : inUse s.heap ⊆ inUse heap := by simpa only [hk] using hA.kept s.mm s.heap size
    have hpu : p ∈ inUse heap := by simpa only [hk] using hA.used s.mm s.heap size (by rw [hk]; exact hp)
    have hrole : role p = none := by
      by_contra hc
      exact hfresh (h.used p hc)
    refine ⟨p, hrole, ?_⟩
    have hbp : (s.ramfs (s.nodes v).data).data ≠ p := by
      intro hc
      by_cases h0 : (s.ramfs (s.nodes v).data).data = 0
      · exact hp (hc.symm.trans h0)
      · have hbytes := h.bytes v hv hops hd h0
        rw [hc, hrole] at hbytes
        cases hbytes
    -- a block with another role is neither the old nor the new one
    have hother : ∀ q r, role q = some r → q ≠ 0 → r ≠ .bytes (s.nodes v).data →
        growRole role (s.ramfs (s.nodes v).data).data p (s.nodes v).data q = some r := by
      intro q r hq hq0 hr
      have hqp : q ≠ p := by
        rintro rfl
        rw [hrole] at hq
        cases hq
      have hqb : q ≠ (s.ramfs (s.nodes v).data).data := by
        rintro rfl
        have hbytes := h.bytes v hv hops hd hq0
        rw [hq] at hbytes
        exact hr (Option.some.inj hbytes)
      rw [growRole, Function.update_of_ne hqp, Function.update_of_ne hqb, hq]
    obtain ⟨_, rfl⟩ := Prod.mk.inj (Option.some.inj hres)
    refine h.replace (fun u _ => sameVnode_update s.nodes (sameVnode_touch _ _ _ _) u) rfl rfl ?_ ?_ ?_ ?_
    · exact fun u hu => hother u _ (h.vnodes u hu) (h.ne_zero hu) (by simp)
    · exact fun u hu huops hud => hother _ _ (h.data u hu huops hud) hud (by simp)
    · intro u hu huops hud hb
      by_cases hsame : (s.nodes u).data = (s.nodes v).data
      · rw [hsame]
        simp only [Function.update_self, growRole]
      · simp only [Function.update_of_ne hsame] at hb ⊢
        exact hother _ _ (h.bytes u hu huops hud hb) hb (fun hc => hsame (Role.bytes.inj hc))
    · intro q hq
      refine hA.freed _ _ _ ⟨?_, ?_⟩
      · by_cases hqp : q = p
        · rw [hqp]
          exact hpu
        · refine hheap (h.used q fun hc => hq ?_)
          rw [growRole, Function.update_of_ne hqp]
          by_cases hqb : q = (s.ramfs (s.nodes v).data).data
          · rw [hqb, Function.update_self]
          · rw [Function.update_of_ne hqb, hc]
      · rintro rfl
        rw [growRole, Function.update_of_ne hbp, Function.update_self] at hq
        exact hq rfl

theorem keepsPcbs_growRole {p : U64} (h : FsInv inUse role T s) (hv : v ∈ T) (hops : (s.nodes v).ops = some .ramfs)
    (hd : (s.nodes v).data ≠ 0) (hp : role p = none) :
    KeepsPcbs role (growRole role (s.ramfs (s.nodes v).data).data p (s.nodes v).data) := by
  intro q h0 hq
  have hqp : q ≠ p := by
    rintro rfl
    rw [hp] at hq
    cases hq
  have hqb : q ≠ (s.ramfs (s.nodes v).data).data := by
    rintro rfl
    rw [h.bytes v hv hops hd h0] at hq
    cases hq
  rw [growRole, Function.update_of_ne hqp, Function.update_of_ne hqb, hq]

theorem ramfsWrite (h : FsInv inUse role T s) (hA : Proc.AllocatorSpec A inUse) (hv : v ∈ T)
    (hops : (s.nodes v).ops = some .ramfs) (bytes : Nat → U8) (size offset : U64) :
    ∃ role', FsInv inUse role' T (ramfsWrite A s v (some bytes) size offset).2.2 ∧ KeepsPcbs role role' := by
  simp only [Fs.ramfsWrite]
  split
  · exact ⟨role, h, fun _ _ hp => hp⟩
  · split
    · exact ⟨role, h, fun _ _ hp => hp⟩
    · rename_i hd
      by_cases hgrow : (s.ramfs (s.nodes v).data).size ≤ offset ∧ (s.ramfs (s.nodes v).data).size < offset + size
      · simp only [if_pos hgrow]
        cases hres : ramfsGrow A s v (offset + size) with
        | none =>
            refine ⟨role, h.congr (fun _ _ => .refl _) (fun _ _ _ _ => rfl) rfl rfl fun p hp => ?_, fun _ _ hp => hp⟩
            exact hA.kept _ _ _ (h.used p hp)
        | some r =>
            obtain ⟨p, hp, hgrown⟩ := h.grow hA hv hops hd hres
            exact ⟨_, hgrown.put v bytes size offset, h.keepsPcbs_growRole hv hops hd hp⟩
      · simp only [if_neg hgrow]
        exact ⟨role, h.put v bytes size offset, fun _ _ hp => hp⟩

theorem modified (h : FsInv inUse role T s) (v : U64) (time : U32) :
    FsInv inUse role T (s.getCurrentUnixTime.2.setNode v { s.nodes v with modifyTime := time }) :=
  h.congr (fun u _ => sameVnode_update s.nodes (sameVnode_touch _ _ _ _) u) (fun _ _ _ _ => rfl) rfl rfl
    h.used

theorem accessed (h : FsInv inUse role T s) (v : U64) (time : U32) :
    FsInv inUse role T (s.getCurrentUnixTime.2.setNode v { s.nodes v with accessTime := time }) :=
  h.congr (fun u _ => sameVnode_update s.nodes (sameVnode_touch _ _ _ _) u) (fun _ _ _ _ => rfl) rfl rfl h.used

/-- A write returns, and the tree keeps its shape. -/
theorem vfsWrite (h : FsInv inUse role T s) (hA : Proc.AllocatorSpec A inUse) (hv : v ∈ T)
    (bytes : Nat → U8) (size offset : U64) : ∃ ret s' role', vfsWrite A s v (some bytes) size offset = .ok (ret, s') ∧
      FsInv inUse role' T s' ∧ KeepsPcbs role role' := by
  have hlock := h.unlocked v hv
  have hnode : (s.lock v true).nodes v = (s.nodes v).setLocked true := Function.update_self _ _ _
  have hback : (s.lock v true).lock v false = s := (State.lock_lock s v true false).trans (State.lock_eq hlock)
  have hunlock : (s.lock v true).setNode v (((s.nodes v).setLocked true).setLocked false) = s := by
    rw [← hnode]
    exact hback
  have hfold : ∀ (t : State H) b, t.setNode v ((t.nodes v).setLocked b) = t.lock v b := fun _ _ => rfl
  simp only [Fs.vfsWrite, h.ne_zero hv, ↓reduceIte, hlock, Bool.false_eq_true, hfold, hnode, Vnode.setLocked_type,
    Vnode.setLocked_data, Vnode.setLocked_ops, hunlock, ramfsWrite_lock]
  split
  · exact ⟨_, _, role, rfl, h, fun _ _ hp => hp⟩
  · cases hops : (s.nodes v).ops with
    | none => exact ⟨_, _, role, rfl, h, fun _ _ hp => hp⟩
    | some ops =>
        cases ops with
        | ramfs =>
            obtain ⟨role', hwrite, hpcbs⟩ := h.ramfsWrite hA hv hops bytes size offset
            refine ⟨_, _, role', rfl, ?_, hpcbs⟩
            rw [State.lock_lock, State.lock_eq (hwrite.unlocked v hv)]
            exact hwrite.modified v _
        | devfs =>
            rw [if_neg (h.devs v hv hops)]
            refine ⟨_, _, role, rfl, ?_, fun _ _ hp => hp⟩
            rw [hback]
            exact h.modified v _

end FsInv

end ShadowOS.Fs
