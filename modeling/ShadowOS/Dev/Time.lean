import ShadowOS.Lib.CString

/-!
# Dates and timestamps (`dev/time/rtc.h`, `dev/vfs.h`)
-/

namespace ShadowOS.Dev

/-! ## From a date to a timestamp -/

def rtcDaysInMonths : List Nat := [0, 31, 28, 31, 30, 31, 30, 31, 31, 30, 31, 30, 31]

def rtcIsLeapYear (y : Nat) : Bool := y % 4 = 0 && (y % 100 ≠ 0 || y % 400 = 0)

def rtcToUnixTimestamp (year : U16) (month day hours minutes seconds : U8) : U32 :=
  let timestamp : U32 := (List.range' 1970 (year.toNat - 1970)).foldl
    (fun timestamp y => timestamp + BitVec.ofNat 32 (if rtcIsLeapYear y then 366 else 365)) 0
  let timestamp := (List.range' 1 (month.toNat - 1)).foldl
    (fun timestamp m => timestamp +
      BitVec.ofNat 32 (rtcDaysInMonths.getD m 0 + if m = 2 && rtcIsLeapYear year.toNat then 1 else 0)) timestamp
  let timestamp := timestamp + (day.setWidth 32 - 1)
  timestamp * 86400 + hours.setWidth 32 * 3600 + minutes.setWidth 32 * 60 + seconds.setWidth 32

/-! ## From a timestamp to a text -/

def dim : List Nat := [31, 28, 31, 30, 31, 30, 31, 31, 30, 31, 30, 31]

/-- The leap years of `TIMESTAMP_TO_STRING`, which has the rule once more. -/
def timestampIsLeapYear (y : Nat) : Bool := y % 4 = 0 && (y % 100 ≠ 0 || y % 400 = 0)

/-- The loop over the years; every turn takes more than a second. -/
def yearLoop : Nat → Nat → Nat → Nat × Nat
  | 0, y, t => (y, t)
  | fuel + 1, y, t =>
      let days := if timestampIsLeapYear y then 366 else 365
      if days * 86400 ≤ t then yearLoop fuel (y + 1) (t - days * 86400) else (y, t)

/-- The loop over the months, of which `n` are left. -/
def monthLoop (y : Nat) : Nat → Nat → Nat → Nat × Nat
  | 0, m, t => (m, t)
  | n + 1, m, t =>
      let days := dim.getD m 0 + if m = 1 && timestampIsLeapYear y then 1 else 0
      if t < days * 86400 then (m, t) else monthLoop y n (m + 1) (t - days * 86400)

/-- The character `'0' + n`. -/
def digit (n : Nat) : U8 := BitVec.ofNat 8 (48 + n)

def timestampToString (timestamp : U32) (utcOffset : U64) : CString :=
  let t := (timestamp.setWidth 64 + utcOffset * 3600).toNat
  let (y, t) := yearLoop t 1970 t
  let (m, t) := monthLoop y 12 0 t
  let d := 1 + t / 86400
  let t := t % 86400
  let h := t / 3600
  let t := t % 3600
  let min := t / 60
  let s := t % 60
  [digit (y / 1000 % 10), digit (y / 100 % 10), digit (y / 10 % 10), digit (y % 10), 45,
    digit ((m + 1) / 10), digit ((m + 1) % 10), 45, digit (d / 10), digit (d % 10), 32,
    digit (h / 10), digit (h % 10), 58, digit (min / 10), digit (min % 10), 58, digit (s / 10), digit (s % 10)]

end ShadowOS.Dev
