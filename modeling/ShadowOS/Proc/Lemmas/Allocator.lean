import ShadowOS.Proc.Spec

/-!
# The heap
-/

namespace ShadowOS.Proc

open Mm

variable {H : Type} {A : Allocator H} {inUse : H → Set U64} {mm mm' : State} {n p : U64}

namespace AllocatorSpec

variable {h h' : H}

/-- A request leaves the blocks in use. -/
theorem kept_of (hA : AllocatorSpec A inUse) (hk : A.kmalloc mm h n = (p, mm', h')) : inUse h ⊆ inUse h' := by
  simpa only [hk] using hA.kept mm h n

/-- A new block was not in use, and is now. -/
theorem fresh_of (hA : AllocatorSpec A inUse) (hk : A.kmalloc mm h n = (p, mm', h')) (hp : p ≠ 0) :
    p ∉ inUse h ∧ p ∈ inUse h' := by
  have hp' : (A.kmalloc mm h n).1 ≠ 0 := by rwa [hk]
  have hfresh := hA.fresh mm h n hp'
  have hused := hA.used mm h n hp'
  rw [hk] at hfresh hused
  exact ⟨hfresh, hused⟩

end AllocatorSpec

/-! ## Requests that fail -/

/-- A request for memory has failed on the way to this heap. The null pointer marks such a heap, if `inUse` has it then. -/
def Failed (A : Allocator H) (inUse : H → Set U64) (h : H) : Prop :=
  ∃ mm h₀ n, (A.kmalloc mm h₀ n).1 = 0 ∧ (0 ∈ inUse (A.kmalloc mm h₀ n).2.2 → 0 ∈ inUse h)

theorem failed_of {h h' : H} (hk : A.kmalloc mm h n = (p, mm', h')) (hp : p = 0) : Failed A inUse h' :=
  ⟨mm, h, n, by rw [hk]; exact hp, by rw [hk]; exact id⟩

/-- The mark stays when blocks are kept. -/
theorem Failed.mono {h h' : H} (hf : Failed A inUse h) (h0 : 0 ∈ inUse h → 0 ∈ inUse h') : Failed A inUse h' := by
  obtain ⟨mm, h₀, n, hz, hmark⟩ := hf
  exact ⟨mm, h₀, n, hz, fun hc => h0 (hmark hc)⟩

variable {h h' : H × Bool}

/-- The blocks in use, and the null pointer once a request has failed. -/
def watchUse (inUse : H → Set U64) (h : H × Bool) : Set U64 := {p | p ≠ 0 ∧ p ∈ inUse h.1 ∨ p = 0 ∧ h.2 = false}

theorem watchUse_of_ne (hp : p ≠ 0) : p ∈ watchUse inUse h ↔ p ∈ inUse h.1 :=
  ⟨fun hc => hc.elim And.right fun hc => absurd hc.1 hp, fun hc => .inl ⟨hp, hc⟩⟩

theorem zero_mem_watchUse : 0 ∈ watchUse inUse h ↔ h.2 = false :=
  ⟨fun hc => hc.elim (fun hc => absurd rfl hc.1) And.right, fun hc => .inr ⟨rfl, hc⟩⟩

/-- What stays in use tells that there was memory before, too. -/
theorem watched_of_subset (hsub : watchUse inUse h ⊆ watchUse inUse h') (hh : h'.2 = true) : h.2 = true := by
  by_contra hc
  have h0 := hsub (zero_mem_watchUse.mpr (Bool.not_eq_true _ ▸ hc))
  rw [zero_mem_watchUse, hh] at h0
  cases h0

namespace Allocator

theorem watch_kmalloc (hk : A.watch.kmalloc mm h n = (p, mm', h')) :
    A.kmalloc mm h.1 n = (p, mm', h'.1) ∧ h'.2 = (h.2 && decide (p ≠ 0)) := by
  rcases hk' : A.kmalloc mm h.1 n with ⟨q, mm'', heap⟩
  simp only [watch, hk'] at hk
  cases hk
  exact ⟨rfl, rfl⟩

theorem watch_ne_zero (hk : A.watch.kmalloc mm h n = (p, mm', h')) (hh : h'.2 = true) : p ≠ 0 := by
  rw [(watch_kmalloc hk).2, Bool.and_eq_true, decide_eq_true_eq] at hh
  exact hh.2

theorem not_failed (hh : h.2 = true) : ¬ Failed A.watch (watchUse inUse) h := by
  rintro ⟨mm, h₀, n, h0, hmark⟩
  rcases hk : A.watch.kmalloc mm h₀ n with ⟨p, mm', h'⟩
  rw [hk] at h0 hmark
  have hflag : h'.2 = false := by
    by_contra hc
    exact watch_ne_zero hk (Bool.not_eq_false _ ▸ hc) h0
  rw [zero_mem_watchUse, zero_mem_watchUse] at hmark
  rw [hmark hflag] at hh
  cases hh

end Allocator

theorem AllocatorSpec.watch (hA : AllocatorSpec A inUse) : AllocatorSpec A.watch (watchUse inUse) where
  fresh mm h n h0 := by
    rcases hk : A.watch.kmalloc mm h n with ⟨p, mm', h'⟩
    rw [hk] at h0
    rw [watchUse_of_ne h0]
    exact (hA.fresh_of (Allocator.watch_kmalloc hk).1 h0).1
  used mm h n h0 := by
    rcases hk : A.watch.kmalloc mm h n with ⟨p, mm', h'⟩
    rw [hk] at h0
    rw [watchUse_of_ne h0]
    exact (hA.fresh_of (Allocator.watch_kmalloc hk).1 h0).2
  kept mm h n := by
    rcases hk : A.watch.kmalloc mm h n with ⟨p, mm', h'⟩
    obtain ⟨hk', hflag⟩ := Allocator.watch_kmalloc hk
    rintro q (⟨hq0, hq⟩ | ⟨rfl, hq⟩)
    · exact .inl ⟨hq0, hA.kept_of hk' hq⟩
    · refine .inr ⟨rfl, ?_⟩
      rw [hflag, hq, Bool.false_and]
  freed mm h p := by
    rintro q ⟨⟨hq0, hq⟩ | ⟨rfl, hq⟩, hqp⟩
    · exact .inl ⟨hq0, hA.freed mm h.1 p ⟨hq, hqp⟩⟩
    · exact .inr ⟨rfl, hq⟩

end ShadowOS.Proc
