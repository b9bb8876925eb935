import ShadowOS.Base.Bytes
import ShadowOS.Base.Run

/-!
# The keyboard (`dev/input/keyboard.c`)
-/

namespace ShadowOS.Dev

def kbdAck : U8 := 0xFA

/-- The scancode that waits for a reader, and whether there is one. -/
structure Keyboard where
  lastScancode : U8
  hasScancode : U8
deriving DecidableEq, Repr

/-- The handler of the interrupt, with the byte that it gets from the data port. -/
def kbdHandler (scancode : U8) : Keyboard :=
  if scancode = kbdAck then { lastScancode := 0, hasScancode := 0 }
  else { lastScancode := scancode, hasScancode := 1 }

/-- The result, the byte that is stored through `out`, if one is, and the keyboard afterwards. -/
def kbdRead (kbd : Keyboard) (size : U64) : U32 × Option U8 × Keyboard :=
  if kbd.hasScancode ≠ 0 then
    if 1 ≤ size then (1, some kbd.lastScancode, { kbd with hasScancode := 0 }) else (1, none, kbd)
  else (-1, none, kbd)

/-! ## Interleavings -/

inductive KbdEvent where
  | interrupt (scancode : U8)
  | read (size : U64)
deriving DecidableEq, Repr

/-- The keyboard, with the scancodes that came in and those that were read so far. -/
structure KbdTrace where
  kbd : Keyboard
  received : List U8
  delivered : List U8
deriving DecidableEq, Repr

namespace KbdTrace

/-- Before the first interrupt. -/
def boot : KbdTrace := ⟨⟨0, 0⟩, [], []⟩

def exec (s : KbdTrace) : KbdEvent → Option KbdTrace
  | .interrupt scancode =>
      some ⟨kbdHandler scancode, if scancode = kbdAck then s.received else s.received ++ [scancode], s.delivered⟩
  | .read size =>
      let (_, out, kbd) := kbdRead s.kbd size
      some ⟨kbd, s.received, s.delivered ++ out.toList⟩

def pending (s : KbdTrace) : List U8 := if s.kbd.hasScancode ≠ 0 then [s.kbd.lastScancode] else []

/-- What was read is what came in, in order and without what still waits. -/
def NoneLost (s : KbdTrace) : Prop := s.received = s.delivered ++ s.pending

/-- No scancode waits when the next one comes in. -/
def Taken (s : KbdTrace) : KbdEvent → Prop
  | .interrupt _ => s.kbd.hasScancode = 0
  | .read _ => True

/-- The reader has room for a scancode. -/
def HasRoom (_ : KbdTrace) : KbdEvent → Prop
  | .interrupt _ => True
  | .read size => 1 ≤ size

instance (s : KbdTrace) : Decidable s.NoneLost := inferInstanceAs (Decidable (_ = _))

instance (s : KbdTrace) (e : KbdEvent) : Decidable (s.Taken e) :=
  match e with
  | .interrupt _ => inferInstanceAs (Decidable (_ = _))
  | .read _ => inferInstanceAs (Decidable True)

instance (s : KbdTrace) (e : KbdEvent) : Decidable (s.HasRoom e) :=
  match e with
  | .interrupt _ => inferInstanceAs (Decidable True)
  | .read _ => inferInstanceAs (Decidable (_ ≤ _))

variable {s s' : KbdTrace} {e : KbdEvent}

/-- An interrupt replaces what waits. -/
theorem interrupt_cases {scancode : U8} (h : s.exec (.interrupt scancode) = some s') :
    s'.delivered = s.delivered ∧
      (s'.received = s.received ∧ s'.pending = [] ∨ s'.received = s.received ++ [scancode] ∧ s'.pending = [scancode]) := by
  cases h
  refine ⟨rfl, ?_⟩
  by_cases hack : scancode = kbdAck
  · exact .inl (by simp [hack, pending, kbdHandler])
  · exact .inr (by simp [hack, pending, kbdHandler])

/-- A read takes what waits. -/
theorem read_cases {size : U64} (hsize : 1 ≤ size) (h : s.exec (.read size) = some s') :
    s'.received = s.received ∧ s'.delivered = s.delivered ++ s.pending ∧ s'.pending = [] := by
  simp only [exec, Option.some.injEq] at h
  subst h
  by_cases hhas : s.kbd.hasScancode = 0
  · simp [pending, kbdRead, hhas]
  · have hone : s.pending = [s.kbd.lastScancode] := if_pos hhas
    have hread : kbdRead s.kbd size = (1, some s.kbd.lastScancode, { s.kbd with hasScancode := 0 }) := by
      rw [kbdRead, if_pos hhas, if_pos hsize]
    rw [hread, hone]
    exact ⟨rfl, rfl, rfl⟩

theorem NoneLost.step (h : s.NoneLost) (hroom : s.HasRoom e) (ht : s.Taken e) (he : s.exec e = some s') : s'.NoneLost := by
  cases e with
  | interrupt scancode =>
      have hnone : s.pending = [] := by
        change s.kbd.hasScancode = 0 at ht
        simp [pending, ht]
      rw [NoneLost, hnone, List.append_nil] at h
      obtain ⟨hd, ⟨hr, hp⟩ | ⟨hr, hp⟩⟩ := interrupt_cases he
      · rw [NoneLost, hr, hd, hp, h, List.append_nil]
      · rw [NoneLost, hr, hd, hp, h]
  | read size =>
      obtain ⟨hr, hd, hp⟩ := read_cases hroom he
      rw [NoneLost, hr, hd, hp, h, List.append_nil]

/-- A scancode that waits is lost with the next interrupt. -/
theorem NoneLost.taken (h : s.NoneLost) (he : s.exec e = some s') (h' : s'.NoneLost) : s.Taken e := by
  cases e with
  | read size => trivial
  | interrupt scancode =>
      by_contra hhas
      have hone : s.pending = [s.kbd.lastScancode] := if_pos hhas
      rw [NoneLost, hone] at h
      obtain ⟨hd, ⟨hr, hp⟩ | ⟨hr, hp⟩⟩ := interrupt_cases he
      · rw [NoneLost, hr, hd, hp, h] at h'
        simpa using congrArg List.length h'
      · rw [NoneLost, hr, hd, hp, h] at h'
        simpa using congrArg List.length h'

end KbdTrace

/-- In every interleaving no scancode is lost or read twice exactly if each one is read before the next interrupt. -/
theorem keyboard_loses_none_iff {events : List KbdEvent} (hroom : AllSteps KbdTrace.exec KbdTrace.HasRoom .boot events) :
    AllStates KbdTrace.exec KbdTrace.NoneLost .boot events ↔ AllSteps KbdTrace.exec KbdTrace.Taken .boot events := by
  refine allStates_iff_allSteps (fun h => h) (fun h hd hc he => h.step hd hc he) (fun h _ he h' => h.taken he h') rfl hroom
    (run_ne_none fun s e => ?_)
  cases e with
  | interrupt scancode => exact Option.some_ne_none _
  | read size => exact Option.some_ne_none _

theorem keyboard_loses_none_iff_sample :
    AllStates KbdTrace.exec KbdTrace.NoneLost .boot [.interrupt kbdAck, .interrupt 0x1E, .read 1, .interrupt 0x9E, .read 16] :=
  (keyboard_loses_none_iff (by decide)).mpr (by decide)

/-- The press of a key is overwritten by its release. -/
theorem keyboard_loses_scancode :
    AllSteps KbdTrace.exec KbdTrace.HasRoom .boot [.interrupt 0x1E, .interrupt 0x9E, .read 1] ∧
      ¬ AllStates KbdTrace.exec KbdTrace.NoneLost .boot [.interrupt 0x1E, .interrupt 0x9E, .read 1] := by
  decide

end ShadowOS.Dev
