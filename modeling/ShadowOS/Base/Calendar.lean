import Mathlib

/-!
# The civil calendar

Dates of the Gregorian calendar, and the seconds since the start of 1970.
-/

namespace ShadowOS

/-! ## Spans -/

variable {len : Nat → Nat} {k n t r N : Nat}

/-- The span that a time lies in and the time since its start, when spans of the lengths `len` follow each other from the
span `k` on. -/
def locate (len : Nat → Nat) : Nat → Nat → Nat → Nat × Nat
  | 0, k, t => (k, t)
  | fuel + 1, k, t => if t < len k then (k, t) else locate len fuel (k + 1) (t - len k)

theorem locate_eq {fuel : Nat} (ht : t = ∑ i ∈ Finset.Ico k n, len i + r) (hr : r < len n) (hkn : k ≤ n)
    (hfuel : n - k ≤ fuel) : locate len fuel k t = (n, r) := by
  induction fuel generalizing k t with
  | zero =>
      have hk : k = n := by omega
      subst hk
      rw [Finset.Ico_self, Finset.sum_empty, Nat.zero_add] at ht
      rw [ht, locate]
  | succ fuel ih =>
      rw [locate]
      by_cases hk : k = n
      · subst hk
        rw [Finset.Ico_self, Finset.sum_empty, Nat.zero_add] at ht
        rw [ht, if_pos hr]
      · have hlt : k < n := by omega
        rw [Finset.sum_eq_sum_Ico_succ_bot hlt] at ht
        rw [if_neg (by omega)]
        exact ih (by omega) hlt (by omega)

/-- Every time lies in a span. -/
theorem exists_span (hpos : ∀ i, 0 < len i) (k t : Nat) :
    ∃ n r, k ≤ n ∧ r < len n ∧ t = ∑ i ∈ Finset.Ico k n, len i + r := by
  induction t using Nat.strong_induction_on generalizing k with
  | _ t ih =>
      by_cases ht : t < len k
      · exact ⟨k, t, le_rfl, ht, by simp⟩
      · obtain ⟨n, r, hkn, hr, he⟩ := ih (t - len k) (by have := hpos k; omega) (k + 1)
        refine ⟨n, r, by omega, hr, ?_⟩
        rw [Finset.sum_eq_sum_Ico_succ_bot (by omega)]
        omega

/-- A time before the end of the last span lies in one of the spans. -/
theorem span_lt (ht : t = ∑ i ∈ Finset.Ico k n, len i + r) (hN : t < ∑ i ∈ Finset.Ico k N, len i) : n < N := by
  by_contra hc
  have hle : ∑ i ∈ Finset.Ico k N, len i ≤ ∑ i ∈ Finset.Ico k n, len i :=
    Finset.sum_le_sum_of_subset (Finset.Ico_subset_Ico le_rfl (by omega))
  omega

/-! ## Dates -/

def Leap (y : Nat) : Prop := 4 ∣ y ∧ (¬ 100 ∣ y ∨ 400 ∣ y)

instance (y : Nat) : Decidable (Leap y) := inferInstanceAs (Decidable (_ ∧ _))

def yearDays (y : Nat) : Nat := if Leap y then 366 else 365

/-- The months are counted from one. -/
def monthDays (y m : Nat) : Nat :=
  if m = 2 then if Leap y then 29 else 28 else if m = 4 ∨ m = 6 ∨ m = 9 ∨ m = 11 then 30 else 31

theorem yearDays_pos (y : Nat) : 0 < yearDays y := by
  rw [yearDays]
  split <;> omega

theorem monthDays_pos (y m : Nat) : 0 < monthDays y m := by
  rw [monthDays]
  split
  · split <;> omega
  · split <;> omega

theorem monthDays_le (y m : Nat) : monthDays y m ≤ 31 := by
  rw [monthDays]
  split
  · split <;> omega
  · split <;> omega

theorem sum_monthDays (y : Nat) : ∑ m ∈ Finset.Ico 1 13, monthDays y m = yearDays y := by
  by_cases h : Leap y
  · simp [Finset.sum_Ico_succ_top, monthDays, yearDays, h]
  · simp [Finset.sum_Ico_succ_top, monthDays, yearDays, h]

/-- The days from the start of 1970 to the start of a month. -/
def daysBefore (y m : Nat) : Nat := ∑ i ∈ Finset.Ico 1970 y, yearDays i + ∑ i ∈ Finset.Ico 1 m, monthDays y i

theorem sum_monthDays_le {m : Nat} (y : Nat) (hm : m ≤ 13) : ∑ i ∈ Finset.Ico 1 m, monthDays y i ≤ yearDays y := by
  rw [← sum_monthDays]
  exact Finset.sum_le_sum_of_subset (Finset.Ico_subset_Ico le_rfl hm)

theorem sum_yearDays_le {y y' : Nat} (hy : 1970 ≤ y) (hlt : y < y') :
    ∑ i ∈ Finset.Ico 1970 y, yearDays i + yearDays y ≤ ∑ i ∈ Finset.Ico 1970 y', yearDays i := by
  rw [← Finset.sum_Ico_succ_top hy]
  exact Finset.sum_le_sum_of_subset (Finset.Ico_subset_Ico le_rfl hlt)

/-- A month ends before a later one starts. -/
theorem daysBefore_add_le {y m : Nat} (y' m' : Nat) (hy : 1970 ≤ y) (hm : 1 ≤ m ∧ m ≤ 12) (hlt : y < y' ∨ y = y' ∧ m < m') :
    daysBefore y m + monthDays y m ≤ daysBefore y' m' := by
  rw [daysBefore, daysBefore, Nat.add_assoc, ← Finset.sum_Ico_succ_top hm.1]
  rcases hlt with hlt | ⟨rfl, hlt⟩
  · have hmonth : ∑ i ∈ Finset.Ico 1 (m + 1), monthDays y i ≤ yearDays y := sum_monthDays_le y (by omega)
    have hyear := sum_yearDays_le hy hlt
    omega
  · have hmonth : ∑ i ∈ Finset.Ico 1 (m + 1), monthDays y i ≤ ∑ i ∈ Finset.Ico 1 m', monthDays y i :=
      Finset.sum_le_sum_of_subset (Finset.Ico_subset_Ico le_rfl hlt)
    omega

/-- The same month starts later in a later year. -/
theorem daysBefore_lt {y y' m : Nat} (hy : 1970 ≤ y) (hm : 1 ≤ m ∧ m ≤ 12) (hlt : y < y') : daysBefore y m < daysBefore y' m := by
  have hle := daysBefore_add_le y' m hy hm (.inl hlt)
  have hpos := monthDays_pos y m
  omega

/-- A valid date and time from 1970 on. -/
structure DateTime where
  year : Nat
  month : Nat
  day : Nat
  hour : Nat
  minute : Nat
  second : Nat
  year_ge : 1970 ≤ year
  month_mem : 1 ≤ month ∧ month ≤ 12
  day_mem : 1 ≤ day ∧ day ≤ monthDays year month
  hour_lt : hour < 24
  minute_lt : minute < 60
  second_lt : second < 60

namespace DateTime

/-- The seconds since midnight. -/
def time (c : DateTime) : Nat := c.hour * 3600 + c.minute * 60 + c.second

/-- The days since the start of the year. -/
def yearDay (c : DateTime) : Nat := ∑ m ∈ Finset.Ico 1 c.month, monthDays c.year m + (c.day - 1)

/-- The seconds since the start of 1970. -/
def seconds (c : DateTime) : Nat := (∑ y ∈ Finset.Ico 1970 c.year, yearDays y + c.yearDay) * 86400 + c.time

theorem time_lt (c : DateTime) : c.time < 86400 := by
  have := c.hour_lt
  have := c.minute_lt
  have := c.second_lt
  rw [time]
  omega

theorem yearDay_lt (c : DateTime) : c.yearDay < yearDays c.year := by
  have hday := c.day_mem
  have hmonth := c.month_mem
  have hle : ∑ m ∈ Finset.Ico 1 (c.month + 1), monthDays c.year m ≤ ∑ m ∈ Finset.Ico 1 13, monthDays c.year m :=
    Finset.sum_le_sum_of_subset (Finset.Ico_subset_Ico le_rfl (by omega))
  rw [sum_monthDays, Finset.sum_Ico_succ_top hmonth.1] at hle
  rw [yearDay]
  omega

/-- Every number of seconds is that of a date and time. -/
theorem exists_seconds (t : Nat) : ∃ c : DateTime, c.seconds = t := by
  obtain ⟨y, d, hy, hd, hdays⟩ := exists_span yearDays_pos 1970 (t / 86400)
  obtain ⟨m, e, hm, he, hmonth⟩ := exists_span (monthDays_pos y) 1 d
  have hm' : m < 13 := span_lt hmonth (by rw [sum_monthDays]; exact hd)
  refine ⟨⟨y, m, e + 1, t % 86400 / 3600, t % 3600 / 60, t % 60, hy, ⟨hm, by omega⟩, ⟨by omega, he⟩, by omega, by omega,
    by omega⟩, ?_⟩
  simp only [seconds, yearDay, time, Nat.add_sub_cancel, ← hmonth, ← hdays]
  omega

theorem seconds_eq (c : DateTime) : c.seconds = (daysBefore c.year c.month + (c.day - 1)) * 86400 + c.time := by
  rw [seconds, yearDay, daysBefore, Nat.add_assoc]

theorem seconds_div_day (c : DateTime) : c.seconds / 86400 = daysBefore c.year c.month + (c.day - 1) := by
  have htime := c.time_lt
  rw [seconds_eq]
  omega

theorem seconds_div_hour (c : DateTime) : c.seconds / 3600 = c.seconds / 86400 * 24 + c.hour := by
  have hhour := c.hour_lt
  have hminute := c.minute_lt
  have hsecond := c.second_lt
  rw [seconds_eq, time]
  omega

theorem seconds_div_minute (c : DateTime) : c.seconds / 60 = c.seconds / 3600 * 60 + c.minute := by
  have hhour := c.hour_lt
  have hminute := c.minute_lt
  have hsecond := c.second_lt
  rw [seconds_eq, time]
  omega

theorem seconds_mod (c : DateTime) : c.seconds = c.seconds / 60 * 60 + c.second := by
  have hsecond := c.second_lt
  rw [seconds_eq, time]
  omega

/-- What is not earlier is not in an earlier month. -/
theorem month_le {c c' : DateTime} (h : c.seconds ≤ c'.seconds) : c.year < c'.year ∨ c.year = c'.year ∧ c.month ≤ c'.month := by
  by_contra hlt
  have hmonth := daysBefore_add_le c.year c.month c'.year_ge c'.month_mem (by omega)
  have hday := c'.day_mem
  have hle := Nat.div_le_div_right (c := 86400) h
  rw [seconds_div_day, seconds_div_day] at hle
  omega

/-! ## The next second -/

theorem zero_lt_sixty : 0 < 60 := by decide

def next (c : DateTime) : DateTime :=
  if hs : c.second + 1 < 60 then { c with second := c.second + 1, second_lt := hs }
  else if hmin : c.minute + 1 < 60 then
    { c with minute := c.minute + 1, minute_lt := hmin, second := 0, second_lt := zero_lt_sixty }
  else if hh : c.hour + 1 < 24 then
    { c with
      hour := c.hour + 1
      hour_lt := hh
      minute := 0
      minute_lt := zero_lt_sixty
      second := 0
      second_lt := zero_lt_sixty }
  else if hd : c.day + 1 ≤ monthDays c.year c.month then
    { c with
      day := c.day + 1
      day_mem := ⟨Nat.le_add_left 1 _, hd⟩
      hour := 0
      hour_lt := by decide
      minute := 0
      minute_lt := zero_lt_sixty
      second := 0
      second_lt := zero_lt_sixty }
  else if hm : c.month + 1 ≤ 12 then
    { c with
      month := c.month + 1
      month_mem := ⟨Nat.le_add_left 1 _, hm⟩
      day := 1
      day_mem := ⟨le_rfl, monthDays_pos _ _⟩
      hour := 0
      hour_lt := by decide
      minute := 0
      minute_lt := zero_lt_sixty
      second := 0
      second_lt := zero_lt_sixty }
  else
    { year := c.year + 1
      year_ge := Nat.le_succ_of_le c.year_ge
      month := 1
      month_mem := by decide
      day := 1
      day_mem := ⟨le_rfl, monthDays_pos _ _⟩
      hour := 0
      hour_lt := by decide
      minute := 0
      minute_lt := zero_lt_sixty
      second := 0
      second_lt := zero_lt_sixty }

theorem seconds_next (c : DateTime) : c.next.seconds = c.seconds + 1 := by
  have hhour := c.hour_lt
  have hminute := c.minute_lt
  have hsecond := c.second_lt
  have hday := c.day_mem
  have hmonth := c.month_mem
  rw [next]
  split
  · simp only [seconds_eq, time]
    omega
  · split
    · simp only [seconds_eq, time]
      omega
    · split
      · simp only [seconds_eq, time]
        omega
      · split
        · simp only [seconds_eq, time]
          omega
        · split
          · have hstart : daysBefore c.year (c.month + 1) = daysBefore c.year c.month + monthDays c.year c.month := by
              rw [daysBefore, daysBefore, Finset.sum_Ico_succ_top hmonth.1, Nat.add_assoc]
            simp only [seconds_eq, time, hstart]
            omega
          · have hlast : c.month = 12 := by omega
            have hstart : daysBefore (c.year + 1) 1 = daysBefore c.year 12 + monthDays c.year 12 := by
              have hyear := sum_monthDays c.year
              rw [Finset.sum_Ico_succ_top (show 1 ≤ 12 by decide)] at hyear
              rw [daysBefore, daysBefore, Finset.sum_Ico_succ_top c.year_ge, Finset.Ico_self, Finset.sum_empty]
              omega
            simp only [seconds_eq, time, hstart, hlast] at *
            omega

end DateTime

end ShadowOS
