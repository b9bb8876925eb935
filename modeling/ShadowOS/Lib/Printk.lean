import ShadowOS.Base.Bytes

/-!
# The boot log (`lib/printf.c`, `main.c`)
-/

namespace ShadowOS

/-- The size of the section that the linker script sets aside. -/
def printkBuffSize : Nat := 0x100000

theorem printkBuffSize_pos : 0 < printkBuffSize := by decide

structure Printk where
  buff : Nat → U8
  index : Nat

namespace Printk

/-- One turn of the loop in `append_to_printk_buff`. -/
def push (p : Printk) (b : U8) : Printk where
  buff := Function.update p.buff p.index b
  index := (p.index + 1) % printkBuffSize

def appendToPrintkBuff (p : Printk) (data : List U8) : Printk := data.foldl push p

/-- `put` logs as long as there is no `stdout`. What it sends to the ports does not matter to the log. -/
def put (stdout : U64) (p : Printk) (data : List U8) : Printk := if stdout ≠ 0 then p else p.appendToPrintkBuff data

/-- The bytes that `kmain` writes to the log file. -/
def bootLog (p : Printk) : List U8 := (List.range p.index).map p.buff

variable {p : Printk} {data : List U8}

theorem length_bootLog (p : Printk) : p.bootLog.length = p.index := by
  rw [bootLog, List.length_map, List.length_range]

/-- Before the index wraps around, the log grows by the byte. -/
theorem bootLog_push (b : U8) (h : p.index + 1 < printkBuffSize) : (p.push b).bootLog = p.bootLog ++ [b] := by
  simp only [bootLog, push, Nat.mod_eq_of_lt h, List.range_succ, List.map_append, List.map_singleton, Function.update_self]
  refine congrArg (· ++ [b]) (List.map_congr_left fun i hi => ?_)
  rw [List.mem_range] at hi
  exact Function.update_of_ne hi.ne _ _

theorem index_append (h : p.index < printkBuffSize) :
    (p.appendToPrintkBuff data).index = (p.index + data.length) % printkBuffSize := by
  induction data generalizing p with
  | nil => exact (Nat.mod_eq_of_lt h).symm
  | cons b data ih =>
      have hpush : (p.push b).index = (p.index + 1) % printkBuffSize := rfl
      have hstep : p.appendToPrintkBuff (b :: data) = (p.push b).appendToPrintkBuff data := rfl
      rw [hstep, ih (Nat.mod_lt _ printkBuffSize_pos), hpush, Nat.mod_add_mod, List.length_cons, Nat.add_assoc, Nat.add_comm 1]

theorem bootLog_append (h : p.index + data.length < printkBuffSize) :
    (p.appendToPrintkBuff data).bootLog = p.bootLog ++ data := by
  induction data generalizing p with
  | nil => exact (List.append_nil _).symm
  | cons b data ih =>
      rw [List.length_cons] at h
      have hpush : (p.push b).index = p.index + 1 := Nat.mod_eq_of_lt (by omega)
      have hstep : p.appendToPrintkBuff (b :: data) = (p.push b).appendToPrintkBuff data := rfl
      rw [hstep, ih (by omega), bootLog_push b (by omega), List.append_assoc, List.singleton_append]

/-- Several calls log what one call with all their bytes would. -/
theorem foldl_put (p : Printk) (calls : List (List U8)) : calls.foldl (put 0) p = p.appendToPrintkBuff calls.flatten := by
  rw [appendToPrintkBuff, List.foldl_flatten]
  rfl

section

variable {buff : Nat → U8} {calls : List (List U8)}

theorem length_bootLog_puts :
    (calls.foldl (put 0) ⟨buff, 0⟩).bootLog.length = calls.flatten.length % printkBuffSize := by
  rw [foldl_put, length_bootLog, index_append printkBuffSize_pos, Nat.zero_add]

/-- `kmain` writes the last bytes that were logged, oldest first, as many as the buffer has room for. -/
def Complete (buff : Nat → U8) (calls : List (List U8)) : Prop :=
  (calls.foldl (put 0) ⟨buff, 0⟩).bootLog = calls.flatten.drop (calls.flatten.length - min calls.flatten.length printkBuffSize)

/-- A full buffer has wrapped around, and its index is short of what it holds. -/
theorem Complete.length_lt (h : Complete buff calls) : calls.flatten.length < printkBuffSize := by
  have hlen := congrArg List.length h
  rw [length_bootLog_puts, List.length_drop] at hlen
  have hlt := Nat.mod_lt calls.flatten.length printkBuffSize_pos
  omega

end

end Printk

/-- The log file is complete exactly if the messages before `stdout` never fill the buffer. -/
theorem boot_log_complete_iff (buff : Nat → U8) (calls : List (List U8)) :
    Printk.Complete buff calls ↔ calls.flatten.length < printkBuffSize := by
  constructor
  · exact Printk.Complete.length_lt
  · intro h
    have hroom : (Printk.mk buff 0).index + calls.flatten.length < printkBuffSize := (Nat.zero_add _).symm ▸ h
    rw [Printk.Complete, Printk.foldl_put, Printk.bootLog_append hroom, min_eq_left h.le, Nat.sub_self, List.drop_zero]
    rfl

/-- Messages that fill the buffer to its last byte leave nothing to write. -/
theorem boot_log_lost : ¬ Printk.Complete (fun _ => 0) [List.replicate printkBuffSize 65] := by
  intro h
  have hlt := h.length_lt
  rw [List.flatten_singleton, List.length_replicate] at hlt
  exact lt_irrefl _ hlt

end ShadowOS
