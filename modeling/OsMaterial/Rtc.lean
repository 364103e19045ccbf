import Mathlib.Data.BitVec
import Mathlib.Tactic.Ring

/-!
# The Real-Time Clock

`rtc_get_time` of `devices/rtc.c`. The registers of the clock are read until the seconds are the
same before and after. `time_t` is unsigned, so that only the time modulo `2 ^ 32` matters.

The loop over the months goes on to the current month, and leap years are counted as if 1970 were
one.

* `rtc_get_time_late`: **the clock is 26 to 32 days late**, depending on the month.
-/

namespace OsMaterial

inductive RtcReg where
  | sec
  | min
  | hour
  | mday
  | mon
  | year
  deriving DecidableEq

def RtcReg.order : RtcReg → ℕ
  | sec => 0
  | min => 1
  | hour => 2
  | mday => 3
  | mon => 4
  | year => 5

def bcdToBin (x : UInt8) : ℤ := (x &&& 0x0f).toNat + (x >>> 4).toNat * 10

def rtcRead (cmos : ℕ → RtcReg → UInt8) : ℕ → ℕ → Option (RtcReg → ℤ)
  | 0, _ => none
  | fuel + 1, n =>
    let v := fun reg : RtcReg => bcdToBin (cmos (n + reg.order) reg)
    if v .sec ≠ bcdToBin (cmos (n + 6) .sec) then rtcRead cmos fuel (n + 7) else some v

def daysPerMonth : List ℤ := [31, 28, 31, 30, 31, 30, 31, 31, 30, 31, 30, 31]

def rtcMonths (mon year : ℤ) : ℤ :=
  let year := (if year < 70 then year + 100 else year) - 70
  let time := (year * 365 + (year - 1).tdiv 4) * 24 * 60 * 60
  let time := (List.range mon.toNat).foldl
    (fun time i => time + daysPerMonth.getD i 0 * 24 * 60 * 60) time
  if 2 < mon ∧ year.tmod 4 = 0 then time + 24 * 60 * 60 else time

def rtcTime (v : RtcReg → ℤ) : ℤ :=
  rtcMonths (v .mon) (v .year) + (v .mday - 1) * 24 * 60 * 60 + v .hour * 60 * 60 + v .min * 60 +
    v .sec

def rtcGetTime (cmos : ℕ → RtcReg → UInt8) (fuel : ℕ) : Option (BitVec 32) :=
  (rtcRead cmos fuel 0).map fun v => BitVec.ofInt 32 (rtcTime v)

/-! ### The calendar -/

def leapYear (year : ℕ) : Bool := year % 4 = 0 ∧ (year % 100 ≠ 0 ∨ year % 400 = 0)

def daysIn (year month : ℕ) : ℕ :=
  if month = 2 then if leapYear year then 29 else 28
  else if month ∈ [4, 6, 9, 11] then 30 else 31

def daysBefore (year month : ℕ) : ℕ :=
  ((List.range (year - 1970)).map fun k => if leapYear (1970 + k) then 366 else 365).sum +
    ((List.range (month - 1)).map fun k => daysIn year (k + 1)).sum

structure DateTime where
  year : ℕ
  month : ℕ
  day : ℕ
  hour : ℕ
  min : ℕ
  sec : ℕ
  year_mem : 1970 ≤ year ∧ year ≤ 2069
  month_mem : 1 ≤ month ∧ month ≤ 12
  day_mem : 1 ≤ day ∧ day ≤ daysIn year month
  time_mem : hour < 24 ∧ min < 60 ∧ sec < 60

namespace DateTime

def unixTime (t : DateTime) : ℤ :=
  (((daysBefore t.year t.month + (t.day - 1) : ℤ) * 24 + t.hour) * 60 + t.min) * 60 + t.sec

def epoch : DateTime :=
  ⟨1970, 1, 1, 0, 0, 0, ⟨le_rfl, by omega⟩, ⟨le_rfl, by omega⟩, ⟨le_rfl, by decide⟩,
    ⟨by omega, by omega, by omega⟩⟩

def toBcd (n : ℕ) : UInt8 := UInt8.ofNat (n / 10 * 16 + n % 10)

def registers (t : DateTime) : RtcReg → UInt8
  | .sec => toBcd t.sec
  | .min => toBcd t.min
  | .hour => toBcd t.hour
  | .mday => toBcd t.day
  | .mon => toBcd t.month
  | .year => toBcd (t.year % 100)

theorem bcdToBin_toBcd : ∀ n < 100, bcdToBin (toBcd n) = n := by decide

theorem daysIn_lt (year month : ℕ) : daysIn year month < 100 := by
  rw [daysIn]
  split_ifs <;> omega

theorem rtcMonths_late : ∀ k < 100, ∀ m < 12,
    let late := rtcMonths (m + 1 : ℕ) ((1970 + k) % 100 : ℕ) -
      daysBefore (1970 + k) (m + 1) * 86400
    26 * 86400 ≤ late ∧ late ≤ 32 * 86400 := by
  decide +kernel

theorem rtcTime_eq (t : DateTime) :
    rtcTime (fun reg => bcdToBin (t.registers reg)) = t.unixTime +
      (rtcMonths t.month (t.year % 100 : ℕ) - daysBefore t.year t.month * 86400) := by
  have hday := t.day_mem.2.trans_lt (daysIn_lt _ _)
  have htime := t.time_mem
  have hmonth := t.month_mem
  simp only [rtcTime, unixTime, registers, bcdToBin_toBcd t.sec (by omega),
    bcdToBin_toBcd t.min (by omega), bcdToBin_toBcd t.hour (by omega), bcdToBin_toBcd t.day hday,
    bcdToBin_toBcd t.month (by omega), bcdToBin_toBcd (t.year % 100) (by omega)]
  ring

end DateTime

/-- **The clock is late**: it reads the right time plus 26 to 32 days, the same for all times of a
month. -/
theorem rtc_get_time_late (year month : ℕ) : ∃ late : ℤ, 26 * 86400 ≤ late ∧ late ≤ 32 * 86400 ∧
    ∀ t : DateTime, t.year = year → t.month = month → ∀ fuel, 0 < fuel →
      rtcGetTime (fun _ => t.registers) fuel = some (BitVec.ofInt 32 (t.unixTime + late)) ∧
      rtcGetTime (fun _ => t.registers) fuel ≠ some (BitVec.ofInt 32 t.unixTime) := by
  by_cases hmem : (1970 ≤ year ∧ year ≤ 2069) ∧ 1 ≤ month ∧ month ≤ 12
  · obtain ⟨hmin, hmax⟩ := DateTime.rtcMonths_late (year - 1970) (by omega) (month - 1) (by omega)
    rw [show 1970 + (year - 1970) = year by omega, show month - 1 + 1 = month by omega] at hmin hmax
    refine ⟨_, hmin, hmax, ?_⟩
    rintro t rfl rfl fuel hfuel
    obtain ⟨fuel, rfl⟩ : ∃ n, fuel = n + 1 := ⟨fuel - 1, by omega⟩
    have hread : rtcGetTime (fun _ => t.registers) (fuel + 1) = some (BitVec.ofInt 32
        (rtcTime fun reg => bcdToBin (t.registers reg))) := by
      rw [rtcGetTime, rtcRead, if_neg (not_not_intro rfl)]
      rfl
    rw [hread, t.rtcTime_eq]
    refine ⟨rfl, fun heq => ?_⟩
    have hmod := congrArg BitVec.toInt (Option.some.inj heq)
    rw [BitVec.toInt_ofInt, BitVec.toInt_ofInt, Int.bmod_eq_bmod_iff_bmod_sub_eq_zero] at hmod
    rw [add_sub_cancel_left] at hmod
    have hdvd := Int.dvd_of_bmod_eq_zero hmod
    omega
  · refine ⟨26 * 86400, le_rfl, by decide, ?_⟩
    rintro t rfl rfl
    exact absurd ⟨t.year_mem, t.month_mem⟩ hmem

/-- The beginning of 1970. -/
theorem rtc_get_time_late_epoch : ∃ late : ℤ, 26 * 86400 ≤ late ∧ late ≤ 32 * 86400 ∧
    rtcGetTime (fun _ => DateTime.epoch.registers) 1 = some (BitVec.ofInt 32 late) := by
  obtain ⟨late, hmin, hmax, h⟩ := rtc_get_time_late 1970 1
  rw [(h .epoch rfl rfl 1 (by decide)).1, show DateTime.epoch.unixTime = 0 by decide, Int.zero_add]
  exact ⟨late, hmin, hmax, rfl⟩

/-- The beginning of 1970 is read as the beginning of its second month. -/
theorem rtc_get_time_epoch :
    rtcGetTime (fun _ => DateTime.epoch.registers) 1 = some (BitVec.ofInt 32 (31 * 86400)) := by
  decide

end OsMaterial
