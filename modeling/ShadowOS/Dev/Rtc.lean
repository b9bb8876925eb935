import ShadowOS.Dev.TimeTheorems

/-!
# Reading the clock (`dev/time/rtc.c`, `dev/time/rtc.h`)

The clock may move on by a second before each read of a port.
-/

namespace ShadowOS.Dev

inductive RtcReg where
  | seconds
  | minutes
  | hours
  | day
  | month
  | year
deriving DecidableEq, Repr

/-- The clock and what will happen at the next port reads: whether the clock moves on before the read, and whether a read of
the status register finds an update in progress. -/
structure Rtc where
  clock : DateTime
  reads : List (Bool × Bool)

namespace Rtc

/-- Up to the next port read. -/
def advance (s : Rtc) : Rtc :=
  match s.reads with
  | [] => s
  | (moves, _) :: reads => ⟨if moves then s.clock.next else s.clock, reads⟩

def bcd (v : Nat) : U8 := BitVec.ofNat 8 (v / 10 * 16 + v % 10)

/-- The registers hold two decimal digits each. -/
def register (c : DateTime) : RtcReg → U8
  | .seconds => bcd c.second
  | .minutes => bcd c.minute
  | .hours => bcd c.hour
  | .day => bcd c.day
  | .month => bcd c.month
  | .year => bcd (c.year % 100)

end Rtc

/-- The loop of `rtc_wait_for_update`. -/
def waitLoop (clock : DateTime) : List (Bool × Bool) → Rtc
  | [] => ⟨clock, []⟩
  | (moves, updating) :: reads =>
      let clock := if moves then clock.next else clock
      if updating then waitLoop clock reads else ⟨clock, reads⟩

def rtcWaitForUpdate (s : Rtc) : Rtc := waitLoop s.clock s.reads

def rtcReadRegister (s : Rtc) (reg : RtcReg) : U8 × Rtc := (Rtc.register s.advance.clock reg, s.advance)

def rtcBcdToBinary (bcd : U8) : U8 := bcd / 16 * 10 + bcd % 16

/-- Hours, minutes and seconds. -/
def rtcReadTime (s : Rtc) : (U8 × U8 × U8) × Rtc :=
  let s := rtcWaitForUpdate s
  let (seconds, s) := rtcReadRegister s .seconds
  let (minutes, s) := rtcReadRegister s .minutes
  let (hours, s) := rtcReadRegister s .hours
  ((rtcBcdToBinary hours, rtcBcdToBinary minutes, rtcBcdToBinary seconds), s)

/-- Day, month and year. -/
def rtcReadDate (s : Rtc) : (U8 × U8 × U16) × Rtc :=
  let s := rtcWaitForUpdate s
  let (day, s) := rtcReadRegister s .day
  let (month, s) := rtcReadRegister s .month
  let (year, s) := rtcReadRegister s .year
  ((rtcBcdToBinary day, rtcBcdToBinary month, (rtcBcdToBinary year).setWidth 16 + 2000), s)

def getCurrentUnixTime (s : Rtc) : U32 × Rtc :=
  let ((hours, minutes, seconds), s) := rtcReadTime s
  let ((day, month, year), s) := rtcReadDate s
  (rtcToUnixTimestamp year month day hours minutes seconds, s)

namespace Rtc

/-! ## The clock at each read -/

def atSeconds (s : Rtc) : Rtc := (rtcWaitForUpdate s).advance

def atMinutes (s : Rtc) : Rtc := s.atSeconds.advance

def atHours (s : Rtc) : Rtc := s.atMinutes.advance

def atDay (s : Rtc) : Rtc := (rtcWaitForUpdate s.atHours).advance

def atMonth (s : Rtc) : Rtc := s.atDay.advance

def atYear (s : Rtc) : Rtc := s.atMonth.advance

/-- The years in which the two digits of the register tell the year. -/
def InCentury (s : Rtc) : Prop := 2000 ≤ s.clock.year ∧ s.atYear.clock.year ≤ 2099

/-- The result is between the start and the end. -/
def NotTorn (s : Rtc) : Prop :=
  s.clock.seconds ≤ (getCurrentUnixTime s).1.toNat ∧ (getCurrentUnixTime s).1.toNat ≤ (getCurrentUnixTime s).2.clock.seconds

/-- The seconds in the minutes that start between the reads of the seconds and of the minutes, in the hours that start between
the reads of the minutes and of the hours, and so on up to the year. -/
def skipped (s : Rtc) : Nat :=
  60 * (s.atMinutes.clock.seconds / 60 - s.atSeconds.clock.seconds / 60) +
    3600 * (s.atHours.clock.seconds / 3600 - s.atMinutes.clock.seconds / 3600) +
    86400 * (s.atDay.clock.seconds / 86400 - s.atHours.clock.seconds / 86400) +
    86400 * (daysBefore s.atYear.clock.year s.atMonth.clock.month - daysBefore s.atDay.clock.year s.atDay.clock.month)

/-- The seconds from the read of the seconds to the end. -/
def elapsed (s : Rtc) : Nat := s.atYear.clock.seconds - s.atSeconds.clock.seconds

/-- No field that is read after the seconds has changed since. -/
def SameFields (s : Rtc) : Prop :=
  s.atMinutes.clock.seconds / 60 = s.atSeconds.clock.seconds / 60 ∧
    s.atHours.clock.seconds / 3600 = s.atMinutes.clock.seconds / 3600 ∧
    s.atDay.clock.seconds / 86400 = s.atHours.clock.seconds / 86400 ∧
    s.atMonth.clock.month = s.atDay.clock.month ∧ s.atYear.clock.year = s.atDay.clock.year

instance (s : Rtc) : Decidable s.InCentury := inferInstanceAs (Decidable (_ ∧ _))

instance (s : Rtc) : Decidable s.NotTorn := inferInstanceAs (Decidable (_ ∧ _))

instance (s : Rtc) : Decidable s.SameFields := inferInstanceAs (Decidable (_ ∧ _))

/-! ## The clock never goes back -/

theorem advance_le (s : Rtc) : s.clock.seconds ≤ s.advance.clock.seconds := by
  obtain ⟨clock, reads⟩ := s
  cases reads with
  | nil => exact le_rfl
  | cons r reads =>
      obtain ⟨moves, updating⟩ := r
      cases moves with
      | false => exact le_rfl
      | true =>
          change clock.seconds ≤ clock.next.seconds
          rw [clock.seconds_next]
          exact Nat.le_succ _

theorem waitLoop_le (clock : DateTime) (reads : List (Bool × Bool)) : clock.seconds ≤ (waitLoop clock reads).clock.seconds := by
  induction reads generalizing clock with
  | nil => exact le_rfl
  | cons r reads ih =>
      obtain ⟨moves, updating⟩ := r
      have hmove : clock.seconds ≤ (if moves then clock.next else clock).seconds := advance_le ⟨clock, (moves, updating) :: reads⟩
      cases updating with
      | false => exact hmove
      | true => exact hmove.trans (ih _)

theorem wait_le (s : Rtc) : s.clock.seconds ≤ (rtcWaitForUpdate s).clock.seconds := waitLoop_le s.clock s.reads

theorem le_atSeconds (s : Rtc) : s.clock.seconds ≤ s.atSeconds.clock.seconds := (wait_le s).trans (advance_le _)

theorem le_atDay (s : Rtc) : s.atHours.clock.seconds ≤ s.atDay.clock.seconds := (wait_le _).trans (advance_le _)

theorem le_atYear (s : Rtc) : s.atSeconds.clock.seconds ≤ s.atYear.clock.seconds :=
  calc
    s.atSeconds.clock.seconds ≤ s.atMinutes.clock.seconds := advance_le _
    _ ≤ s.atHours.clock.seconds := advance_le _
    _ ≤ s.atDay.clock.seconds := le_atDay s
    _ ≤ s.atMonth.clock.seconds := advance_le _
    _ ≤ s.atYear.clock.seconds := advance_le _

/-! ## What is read -/

theorem rtcBcdToBinary_bcd {v : Nat} (hv : v < 100) : rtcBcdToBinary (bcd v) = BitVec.ofNat 8 v := by
  apply BitVec.eq_of_toNat_eq
  have hten : (10 : U8).toNat = 10 := rfl
  have hsixteen : (16 : U8).toNat = 16 := rfl
  rw [rtcBcdToBinary, bcd, BitVec.toNat_add, BitVec.toNat_mul, BitVec.toNat_udiv, BitVec.toNat_umod, BitVec.toNat_ofNat,
    BitVec.toNat_ofNat, hten, hsixteen]
  have hbyte : (v / 10 * 16 + v % 10) % 2 ^ 8 = v / 10 * 16 + v % 10 := by omega
  have htens : (v / 10 * 16 + v % 10) / 16 = v / 10 := by omega
  have hones : (v / 10 * 16 + v % 10) % 16 = v % 10 := by omega
  rw [hbyte, htens, hones]
  omega

theorem year_eq {y : Nat} (hy : 2000 ≤ y) (hy' : y ≤ 2099) :
    (rtcBcdToBinary (bcd (y % 100))).setWidth 16 + 2000 = BitVec.ofNat 16 y := by
  apply BitVec.eq_of_toNat_eq
  have hbase : (2000 : U16).toNat = 2000 := rfl
  rw [rtcBcdToBinary_bcd (by omega), BitVec.toNat_add, BitVec.toNat_setWidth, BitVec.toNat_ofNat, BitVec.toNat_ofNat, hbase]
  omega

/-- The months are read in order, also when the year is read later than the month. -/
theorem daysBefore_le (s : Rtc) :
    daysBefore s.atDay.clock.year s.atDay.clock.month ≤ daysBefore s.atYear.clock.year s.atMonth.clock.month ∧
      (daysBefore s.atDay.clock.year s.atDay.clock.month = daysBefore s.atYear.clock.year s.atMonth.clock.month ↔
        s.atMonth.clock.month = s.atDay.clock.month ∧ s.atYear.clock.year = s.atDay.clock.year) := by
  have hmonth : s.atDay.clock.year < s.atMonth.clock.year ∨
      s.atDay.clock.year = s.atMonth.clock.year ∧ s.atDay.clock.month ≤ s.atMonth.clock.month :=
    DateTime.month_le (advance_le s.atDay)
  have hyear : s.atMonth.clock.year < s.atYear.clock.year ∨
      s.atMonth.clock.year = s.atYear.clock.year ∧ s.atMonth.clock.month ≤ s.atYear.clock.month :=
    DateTime.month_le (advance_le s.atMonth)
  have hpos := monthDays_pos s.atDay.clock.year s.atDay.clock.month
  by_cases hsame : s.atMonth.clock.month = s.atDay.clock.month ∧ s.atYear.clock.year = s.atDay.clock.year
  · rw [hsame.1, hsame.2]
    simp
  · have hlater : daysBefore s.atDay.clock.year s.atDay.clock.month + monthDays s.atDay.clock.year s.atDay.clock.month ≤
        daysBefore s.atYear.clock.year s.atMonth.clock.month :=
      daysBefore_add_le _ _ s.atDay.clock.year_ge s.atDay.clock.month_mem (by omega)
    exact ⟨by omega, ⟨fun he => by omega, fun hc => absurd hc hsame⟩⟩

/-- The result is the time at which the seconds were read and what was skipped after that. -/
theorem toNat_getCurrentUnixTime (s : Rtc) (h : s.InCentury) :
    (getCurrentUnixTime s).1.toNat = s.atSeconds.clock.seconds + s.skipped := by
  obtain ⟨h2000, h2099⟩ := h
  have hstart := DateTime.month_le ((le_atSeconds s).trans (le_atYear s))
  have hyear : 2000 ≤ s.atYear.clock.year := by omega
  have hm := s.atMonth.clock.month_mem
  have hd : 1 ≤ s.atDay.clock.day ∧ s.atDay.clock.day ≤ 31 :=
    ⟨s.atDay.clock.day_mem.1, s.atDay.clock.day_mem.2.trans (monthDays_le _ _)⟩
  have hh := s.atHours.clock.hour_lt
  have hmin := s.atMinutes.clock.minute_lt
  have hs := s.atSeconds.clock.second_lt
  have hresult : (getCurrentUnixTime s).1 = rtcToUnixTimestamp
      ((rtcBcdToBinary (bcd (s.atYear.clock.year % 100))).setWidth 16 + 2000) (rtcBcdToBinary (bcd s.atMonth.clock.month))
      (rtcBcdToBinary (bcd s.atDay.clock.day)) (rtcBcdToBinary (bcd s.atHours.clock.hour))
      (rtcBcdToBinary (bcd s.atMinutes.clock.minute)) (rtcBcdToBinary (bcd s.atSeconds.clock.second)) := rfl
  rw [hresult, year_eq hyear h2099, rtcBcdToBinary_bcd (by omega), rtcBcdToBinary_bcd (by omega), rtcBcdToBinary_bcd (by omega),
    rtcBcdToBinary_bcd (by omega), rtcBcdToBinary_bcd (by omega), rtcToUnixTimestamp_eq (by omega) (by omega) hm hd hh hmin hs,
    BitVec.toNat_ofNat]
  -- the days up to the year 2100 fit
  have hbound : daysBefore s.atYear.clock.year s.atMonth.clock.month ≤ daysBefore 2100 1 := by
    have hle := daysBefore_add_le 2100 1 s.atYear.clock.year_ge hm (.inl (by omega))
    omega
  have h2100 : daysBefore 2100 1 = 47482 := by decide +kernel
  have hminutes : s.atSeconds.clock.seconds / 60 ≤ s.atMinutes.clock.seconds / 60 := Nat.div_le_div_right (advance_le _)
  have hhours : s.atMinutes.clock.seconds / 3600 ≤ s.atHours.clock.seconds / 3600 := Nat.div_le_div_right (advance_le _)
  have hdays : s.atHours.clock.seconds / 86400 ≤ s.atDay.clock.seconds / 86400 := Nat.div_le_div_right (le_atDay s)
  have hmonths := (daysBefore_le s).1
  have hsecond := s.atSeconds.clock.seconds_mod
  have hminute := s.atMinutes.clock.seconds_div_minute
  have hhour := s.atHours.clock.seconds_div_hour
  have hday := s.atDay.clock.seconds_div_day
  rw [Nat.mod_eq_of_lt (by omega), skipped]
  generalize daysBefore s.atYear.clock.year s.atMonth.clock.month = later at *
  generalize daysBefore s.atDay.clock.year s.atDay.clock.month = earlier at *
  omega

end Rtc

/-- The time that is read lies between start and end exactly if what is skipped between the reads takes no longer than the
reads. If they take less than a minute, this means that no field changed since the seconds were read. -/
theorem unix_time_not_torn_iff (s : Rtc) (h : s.InCentury) :
    (s.NotTorn ↔ s.skipped ≤ s.elapsed) ∧ (s.elapsed < 60 → (s.NotTorn ↔ s.SameFields)) := by
  have hstart := s.le_atSeconds
  have hyear := s.le_atYear
  have hiff : s.NotTorn ↔ s.skipped ≤ s.elapsed := by
    have hend : (getCurrentUnixTime s).2 = s.atYear := rfl
    rw [Rtc.NotTorn, s.toNat_getCurrentUnixTime h, hend, Rtc.elapsed]
    omega
  refine ⟨hiff, fun hshort => hiff.trans ?_⟩
  obtain ⟨hle, heq⟩ := s.daysBefore_le
  have hminutes : s.atSeconds.clock.seconds / 60 ≤ s.atMinutes.clock.seconds / 60 := Nat.div_le_div_right s.atSeconds.advance_le
  have hhours : s.atMinutes.clock.seconds / 3600 ≤ s.atHours.clock.seconds / 3600 := Nat.div_le_div_right s.atMinutes.advance_le
  have hdays : s.atHours.clock.seconds / 86400 ≤ s.atDay.clock.seconds / 86400 := Nat.div_le_div_right s.le_atDay
  rw [Rtc.SameFields, ← heq, Rtc.skipped]
  omega

/-- The last second of a minute. -/
def sampleSecond : DateTime := { sampleDate with second := 59, second_lt := by decide }

/-- The clock moves on before the seconds are read, and again before the year is read. -/
def sampleRtc : Rtc := ⟨sampleSecond, [(false, true), (false, false), (true, false), (false, false), (false, false),
  (false, false), (false, false), (false, false), (true, false)]⟩

theorem unix_time_not_torn_iff_sample : sampleRtc.InCentury ∧ sampleRtc.SameFields ∧ sampleRtc.NotTorn := by
  have hcentury : sampleRtc.InCentury := by decide
  have hsame : sampleRtc.SameFields := by decide
  exact ⟨hcentury, hsame, ((unix_time_not_torn_iff sampleRtc hcentury).2 (by decide)).mpr hsame⟩

/-- A minute starts after the seconds are read and before the minutes are: the result is 59 seconds ahead. -/
theorem unix_time_torn :
    (Rtc.mk sampleSecond [(false, false), (false, false), (true, false)]).InCentury ∧
      ¬ (Rtc.mk sampleSecond [(false, false), (false, false), (true, false)]).NotTorn := by
  decide +kernel

end ShadowOS.Dev
