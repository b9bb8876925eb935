import ShadowOS.Base.Calendar
import ShadowOS.Dev.Time

/-!
# Theorems about dates and timestamps
-/

namespace ShadowOS

/-! ## What is printed -/

/-- A number with `w` decimal digits. -/
def decimal (w v : Nat) : CString := (List.range w).reverse.map fun i => BitVec.ofNat 8 (48 + v / 10 ^ i % 10)

/-- The number that digits stand for. -/
def number (digits : CString) : Nat := digits.foldl (fun v b => 10 * v + (b.toNat - 48)) 0

/-- A date and time as it is written: `YYYY-MM-DD hh:mm:ss`. -/
def DateTime.format (c : DateTime) : CString :=
  decimal 4 c.year ++ 45 :: decimal 2 c.month ++ 45 :: decimal 2 c.day ++ 32 :: decimal 2 c.hour ++ 58 ::
    decimal 2 c.minute ++ 58 :: decimal 2 c.second

namespace Dev

/-- The timestamp of a date and time. -/
def encode (c : DateTime) : U32 :=
  rtcToUnixTimestamp (BitVec.ofNat 16 c.year) (BitVec.ofNat 8 c.month) (BitVec.ofNat 8 c.day) (BitVec.ofNat 8 c.hour)
    (BitVec.ofNat 8 c.minute) (BitVec.ofNat 8 c.second)

/-- The timestamp of the date and time that a text shows. -/
def encodeText (text : CString) : U32 :=
  rtcToUnixTimestamp (BitVec.ofNat 16 (number (text.take 4))) (BitVec.ofNat 8 (number ((text.drop 5).take 2)))
    (BitVec.ofNat 8 (number ((text.drop 8).take 2))) (BitVec.ofNat 8 (number ((text.drop 11).take 2)))
    (BitVec.ofNat 8 (number ((text.drop 14).take 2))) (BitVec.ofNat 8 (number ((text.drop 17).take 2)))

/-! ## The tables -/

theorem rtcIsLeapYear_eq (y : Nat) : rtcIsLeapYear y = decide (Leap y) := by
  simp [rtcIsLeapYear, Leap, Nat.dvd_iff_mod_eq_zero]

theorem timestampIsLeapYear_eq (y : Nat) : timestampIsLeapYear y = decide (Leap y) := rtcIsLeapYear_eq y

theorem dim_eq {m : Nat} (y : Nat) (hm : m < 12) :
    (dim.getD m 0 + if m = 1 && timestampIsLeapYear y then 1 else 0) = monthDays y (m + 1) := by
  rw [timestampIsLeapYear_eq]
  by_cases h : Leap y
  · interval_cases m <;> simp [dim, monthDays, h]
  · interval_cases m <;> simp [dim, monthDays, h]

theorem rtcDaysInMonths_eq {m : Nat} (y : Nat) (hm : 1 ≤ m) (hm' : m ≤ 12) :
    (rtcDaysInMonths.getD m 0 + if m = 2 && rtcIsLeapYear y then 1 else 0) = monthDays y m := by
  obtain ⟨m, rfl⟩ := Nat.exists_eq_add_of_le' hm
  rw [← dim_eq y (by omega), rtcIsLeapYear_eq, timestampIsLeapYear_eq]
  simp [rtcDaysInMonths, dim]

/-! ## Encoding -/

theorem foldl_add_ofNat (f : Nat → Nat) (xs : List Nat) (acc : Nat) :
    xs.foldl (fun t x => t + BitVec.ofNat 32 (f x)) (BitVec.ofNat 32 acc) = BitVec.ofNat 32 (acc + (xs.map f).sum) := by
  induction xs generalizing acc with
  | nil => simp
  | cons x xs ih => rw [List.foldl_cons, ← BitVec.ofNat_add, ih, List.map_cons, List.sum_cons, Nat.add_assoc]

theorem sum_range' (f : Nat → Nat) (a n : Nat) :
    ((List.range' a n).map f).sum = ∑ i ∈ Finset.Ico a (a + n), f i := by
  induction n generalizing a with
  | zero => simp
  | succ n ih =>
      rw [List.range'_succ, List.map_cons, List.sum_cons, ih,
        Finset.sum_eq_sum_Ico_succ_bot (show a < a + (n + 1) by omega), Nat.add_right_comm, Nat.add_assoc]

theorem setWidth_ofNat {v : Nat} (hv : v < 2 ^ 8) : (BitVec.ofNat 8 v).setWidth 32 = BitVec.ofNat 32 v := by
  apply BitVec.eq_of_toNat_eq
  rw [BitVec.toNat_setWidth, BitVec.toNat_ofNat, BitVec.toNat_ofNat, Nat.mod_eq_of_lt hv]

/-- The timestamp for fields that need not be a valid date together. -/
theorem rtcToUnixTimestamp_eq {year month day hour minute second : Nat} (hy : 1970 ≤ year) (hy' : year < 2 ^ 16)
    (hm : 1 ≤ month ∧ month ≤ 12) (hd : 1 ≤ day ∧ day ≤ 31) (hh : hour < 24) (hmin : minute < 60) (hs : second < 60) :
    rtcToUnixTimestamp (BitVec.ofNat 16 year) (BitVec.ofNat 8 month) (BitVec.ofNat 8 day) (BitVec.ofNat 8 hour)
        (BitVec.ofNat 8 minute) (BitVec.ofNat 8 second) =
      BitVec.ofNat 32 ((daysBefore year month + (day - 1)) * 86400 + hour * 3600 + minute * 60 + second) := by
  have hyears : ((List.range' 1970 (year - 1970)).map fun y => if rtcIsLeapYear y then 366 else 365).sum =
      ∑ y ∈ Finset.Ico 1970 year, yearDays y := by
    rw [sum_range', Nat.add_sub_of_le hy]
    refine Finset.sum_congr rfl fun y _ => ?_
    simp only [rtcIsLeapYear_eq, decide_eq_true_eq, yearDays]
  have hmonths : ((List.range' 1 (month - 1)).map fun m =>
      rtcDaysInMonths.getD m 0 + if m = 2 && rtcIsLeapYear year then 1 else 0).sum =
      ∑ m ∈ Finset.Ico 1 month, monthDays year m := by
    rw [sum_range', Nat.add_sub_of_le hm.1]
    refine Finset.sum_congr rfl fun m hmem => ?_
    rw [Finset.mem_Ico] at hmem
    exact rtcDaysInMonths_eq year hmem.1 (by omega)
  have hzero : (0 : U32) = BitVec.ofNat 32 0 := rfl
  simp only [rtcToUnixTimestamp, BitVec.toNat_ofNat, Nat.mod_eq_of_lt hy',
    Nat.mod_eq_of_lt (show month < 2 ^ 8 by omega), hzero, foldl_add_ofNat, hyears, hmonths]
  have hday : BitVec.ofNat 32 day - 1 = BitVec.ofNat 32 (day - 1) := by
    obtain ⟨d, hd⟩ := Nat.exists_eq_add_of_le' hd.1
    rw [hd, Nat.add_sub_cancel, BitVec.ofNat_add]
    exact BitVec.add_sub_cancel _ _
  have hnum : (86400 : U32) = BitVec.ofNat 32 86400 ∧ (3600 : U32) = BitVec.ofNat 32 3600 ∧ (60 : U32) = BitVec.ofNat 32 60 :=
    ⟨rfl, rfl, rfl⟩
  rw [setWidth_ofNat (show day < 2 ^ 8 by omega), setWidth_ofNat (show hour < 2 ^ 8 by omega),
    setWidth_ofNat (show minute < 2 ^ 8 by omega), setWidth_ofNat (show second < 2 ^ 8 by omega), hday, hnum.1,
    hnum.2.1, hnum.2.2]
  simp only [← BitVec.ofNat_add, ← BitVec.ofNat_mul, daysBefore, Nat.zero_add]

/-- The timestamp of a date and time is its number of seconds, as far as it fits. -/
theorem encode_eq (c : DateTime) (hyear : c.year < 2 ^ 16) : encode c = BitVec.ofNat 32 c.seconds := by
  have hd31 := monthDays_le c.year c.month
  have hday : 1 ≤ c.day ∧ c.day ≤ 31 := ⟨c.day_mem.1, c.day_mem.2.trans hd31⟩
  rw [encode, rtcToUnixTimestamp_eq c.year_ge hyear c.month_mem hday c.hour_lt c.minute_lt c.second_lt, c.seconds_eq,
    DateTime.time]
  exact congrArg (BitVec.ofNat 32) (by omega)

/-! ## Decoding -/

theorem yearLoop_eq (fuel y t : Nat) : yearLoop fuel y t = locate (fun y => yearDays y * 86400) fuel y t := by
  induction fuel generalizing y t with
  | zero => rfl
  | succ fuel ih =>
      have hdays : (if timestampIsLeapYear y then 366 else 365) = yearDays y := by
        simp only [timestampIsLeapYear_eq, decide_eq_true_eq, yearDays]
      simp only [yearLoop, locate, hdays, ih]
      by_cases h : yearDays y * 86400 ≤ t
      · rw [if_pos h, if_neg (Nat.not_lt.mpr h)]
      · rw [if_neg h, if_pos (Nat.lt_of_not_le h)]

theorem monthLoop_eq (y n m t : Nat) (hm : m + n ≤ 12) :
    monthLoop y n m t = locate (fun m => monthDays y (m + 1) * 86400) n m t := by
  induction n generalizing m t with
  | zero => rfl
  | succ n ih => simp only [monthLoop, locate, dim_eq y (show m < 12 by omega), ih (m + 1) _ (by omega)]

theorem decimal_two {v : Nat} (hv : v < 100) : decimal 2 v = [digit (v / 10), digit (v % 10)] := by
  have hv' : v / 10 % 10 = v / 10 := Nat.mod_eq_of_lt (by omega)
  simp [decimal, List.range_succ, digit, hv']

theorem decimal_four (v : Nat) :
    decimal 4 v = [digit (v / 1000 % 10), digit (v / 100 % 10), digit (v / 10 % 10), digit (v % 10)] := by
  simp [decimal, List.range_succ, digit]

theorem year_sub_le (c : DateTime) : (c.year - 1970) * 365 ≤ ∑ y ∈ Finset.Ico 1970 c.year, yearDays y := by
  have hle := Finset.card_nsmul_le_sum (Finset.Ico 1970 c.year) (fun y => yearDays y) 365 fun y _ => by
    rw [yearDays]
    split <;> omega
  rwa [Nat.card_Ico, smul_eq_mul] at hle

/-- The text, given what the two loops leave. -/
theorem timestampToString_eq {timestamp : U32} {utcOffset : U64} {t t₁ t₂ y m : Nat}
    (ht : (timestamp.setWidth 64 + utcOffset * 3600).toNat = t) (hy : yearLoop t 1970 t = (y, t₁))
    (hm : monthLoop y 12 0 t₁ = (m, t₂)) : timestampToString timestamp utcOffset =
      [digit (y / 1000 % 10), digit (y / 100 % 10), digit (y / 10 % 10), digit (y % 10), 45,
        digit ((m + 1) / 10), digit ((m + 1) % 10), 45, digit ((1 + t₂ / 86400) / 10), digit ((1 + t₂ / 86400) % 10), 32,
        digit (t₂ % 86400 / 3600 / 10), digit (t₂ % 86400 / 3600 % 10), 58, digit (t₂ % 86400 % 3600 / 60 / 10),
        digit (t₂ % 86400 % 3600 / 60 % 10), 58, digit (t₂ % 86400 % 3600 % 60 / 10), digit (t₂ % 86400 % 3600 % 60 % 10)] := by
  simp only [timestampToString, ht, hy, hm]

/-- The text for the seconds of a date and time is that date and time. -/
theorem timestampToString_seconds (c : DateTime) (h : c.seconds < 2 ^ 32) :
    timestampToString (BitVec.ofNat 32 c.seconds) 0 = c.format := by
  obtain ⟨hm, hm'⟩ := c.month_mem
  obtain ⟨hd, hd'⟩ := c.day_mem
  have hd31 := monthDays_le c.year c.month
  have htime := c.time_lt
  have hyd := c.yearDay_lt
  have ht : ((BitVec.ofNat 32 c.seconds).setWidth 64 + 0 * 3600 : U64).toNat = c.seconds := by
    simp
    omega
  have hyear : yearLoop c.seconds 1970 c.seconds = (c.year, c.yearDay * 86400 + c.time) := by
    rw [yearLoop_eq]
    refine locate_eq ?_ (by omega) c.year_ge ?_
    · rw [DateTime.seconds, ← Finset.sum_mul]
      omega
    · have hle := year_sub_le c
      rw [DateTime.seconds]
      omega
  have hmonth : monthLoop c.year 12 0 (c.yearDay * 86400 + c.time) = (c.month - 1, (c.day - 1) * 86400 + c.time) := by
    have hshift : ∑ m ∈ Finset.Ico 0 (c.month - 1), monthDays c.year (m + 1) = ∑ m ∈ Finset.Ico 1 c.month, monthDays c.year m := by
      rw [Finset.sum_Ico_add' (fun m => monthDays c.year m), Nat.zero_add, Nat.sub_add_cancel hm]
    rw [monthLoop_eq _ _ _ _ le_rfl]
    refine locate_eq ?_ ?_ (by omega) (by omega)
    · rw [DateTime.yearDay, ← Finset.sum_mul, hshift]
      omega
    · rw [Nat.sub_add_cancel hm]
      omega
  have hday : 1 + ((c.day - 1) * 86400 + c.time) / 86400 = c.day := by omega
  have hclock : ((c.day - 1) * 86400 + c.time) % 86400 = c.time := by omega
  have hhour := c.hour_lt
  have hminute := c.minute_lt
  have hsecond := c.second_lt
  have hhour' : c.time / 3600 = c.hour := by
    rw [DateTime.time]
    omega
  have hminute' : c.time % 3600 / 60 = c.minute := by
    rw [DateTime.time]
    omega
  have hsecond' : c.time % 3600 % 60 = c.second := by
    rw [DateTime.time]
    omega
  rw [timestampToString_eq ht hyear hmonth, hday, hclock, hhour', hminute', hsecond', Nat.sub_add_cancel hm]
  rw [DateTime.format, decimal_four, decimal_two (by omega), decimal_two (by omega), decimal_two (by omega),
    decimal_two (by omega), decimal_two (by omega)]
  simp only [List.cons_append, List.nil_append]

/-! ## Reading what was printed -/

theorem number_decimal_two {v : Nat} (hv : v < 100) : number (decimal 2 v) = v := by
  rw [decimal_two hv]
  simp only [number, digit, List.foldl_cons, List.foldl_nil, BitVec.toNat_ofNat]
  omega

theorem number_decimal_four {v : Nat} (hv : v < 10000) : number (decimal 4 v) = v := by
  rw [decimal_four]
  simp only [number, digit, List.foldl_cons, List.foldl_nil, BitVec.toNat_ofNat]
  omega

theorem encodeText_format (c : DateTime) (hyear : c.year < 10000) : encodeText c.format = encode c := by
  obtain ⟨hm, hm'⟩ := c.month_mem
  obtain ⟨hd, hd'⟩ := c.day_mem
  have hd31 := monthDays_le c.year c.month
  have hhour := c.hour_lt
  have hminute := c.minute_lt
  have hsecond := c.second_lt
  have hfields : encodeText c.format = rtcToUnixTimestamp (BitVec.ofNat 16 (number (decimal 4 c.year)))
      (BitVec.ofNat 8 (number (decimal 2 c.month))) (BitVec.ofNat 8 (number (decimal 2 c.day)))
      (BitVec.ofNat 8 (number (decimal 2 c.hour))) (BitVec.ofNat 8 (number (decimal 2 c.minute)))
      (BitVec.ofNat 8 (number (decimal 2 c.second))) := rfl
  rw [hfields, number_decimal_four hyear, number_decimal_two (by omega), number_decimal_two (by omega),
    number_decimal_two (by omega), number_decimal_two (by omega), number_decimal_two (by omega)]
  rfl

/-- A date and time of 32 bits has a year of four digits. -/
theorem year_lt (c : DateTime) (h : c.seconds < 2 ^ 32) : c.year < 10000 := by
  have hle := year_sub_le c
  rw [DateTime.seconds] at h
  omega

/-- The date and time that is printed for a timestamp gives that timestamp again, and for the timestamp of a date and time
just this date and time is printed. -/
theorem calendar_round_trip :
    (∀ t : U32, encodeText (timestampToString t 0) = t) ∧
      ∀ c : DateTime, c.seconds < 2 ^ 32 → timestampToString (encode c) 0 = c.format := by
  constructor
  · intro t
    obtain ⟨c, hc⟩ := DateTime.exists_seconds t.toNat
    have hlt : c.seconds < 2 ^ 32 := by
      rw [hc]
      exact t.isLt
    have hyear := year_lt c hlt
    have ht : BitVec.ofNat 32 c.seconds = t := by rw [hc, BitVec.ofNat_toNat, BitVec.setWidth_eq]
    rw [← ht, timestampToString_seconds c hlt, encodeText_format c hyear, encode_eq c (by omega)]
  · intro c hlt
    have hyear := year_lt c hlt
    rw [encode_eq c (by omega), timestampToString_seconds c hlt]

/-- Half past twelve on the 29th of February 2024. -/
def sampleDate : DateTime where
  year := 2024
  month := 2
  day := 29
  hour := 12
  minute := 30
  second := 0
  year_ge := by decide
  month_mem := by decide
  day_mem := by decide
  hour_lt := by decide
  minute_lt := by decide
  second_lt := DateTime.zero_lt_sixty

theorem calendar_round_trip_sample : encode sampleDate = 1709209800 ∧ timestampToString 1709209800 0 = sampleDate.format := by
  have hencode : encode sampleDate = 1709209800 := by decide +kernel
  refine ⟨hencode, ?_⟩
  rw [← hencode]
  exact calendar_round_trip.2 sampleDate (by decide)

end Dev

end ShadowOS
