import RPCortex.Fat12.Write

/-! The times of a FAT volume.  `fat_time_encode` walks the years and the months, `fat_epoch` sums them up; what
one encodes the other decodes, to the even second. -/

namespace RPCortex.Fat12

open Lib

variable {year days fuel : Nat}

/-- The days of a year. -/
def yearLength (year : Nat) : Nat := if isLeap year then 366 else 365

/-- The days from 1970 to the start of a year. -/
def yearStart (year : Nat) : Nat := ((List.range' 1970 (year - 1970)).map yearLength).sum

/-- The days of the months. -/
def monthLengths (leap : Bool) : List Nat := [31, if leap then 29 else 28, 31, 30, 31, 30, 31, 31, 30, 31, 30, 31]

/-- The date in a year field, a month field and a day field is one of the calendar. -/
def ValidDate (date : Nat) : Prop :=
  1 ≤ date / 32 % 16 ∧ date / 32 % 16 ≤ 12 ∧ 1 ≤ date % 32 ∧
    date % 32 ≤ (monthLengths (isLeap (1980 + date / 512 % 128))).getD (date / 32 % 16 - 1) 0

theorem yearLength_bounds (year : Nat) : 365 ≤ yearLength year ∧ yearLength year ≤ 366 := by
  unfold yearLength
  split <;> omega

theorem yearStart_succ (h : 1970 ≤ year) : yearStart (year + 1) = yearStart year + yearLength year := by
  have one : year + 1 - 1970 = year - 1970 + 1 := by omega
  have last : 1970 + (year - 1970) = year := by omega
  rw [yearStart, yearStart, one, List.range'_1_concat, List.map_append, List.sum_append, last]
  simp

theorem yearStart_ge (h : 1970 ≤ year) : 365 * (year - 1970) ≤ yearStart year := by
  induction year, h using Nat.le_induction with
  | base =>
    rw [Nat.sub_self]
    exact Nat.zero_le _
  | succ year h ih =>
    have one : year + 1 - 1970 = year - 1970 + 1 := Nat.succ_sub h
    rw [yearStart_succ h, one, Nat.mul_succ]
    exact Nat.add_le_add ih (yearLength_bounds year).1

/-- The walk over the years stops in the year that the day is in. -/
theorem yearOf_spec (from' : 1970 ≤ year) (enough : days < 365 * fuel) :
    year ≤ (yearOf fuel year days).1 ∧ (yearOf fuel year days).2 < yearLength (yearOf fuel year days).1 ∧
      yearStart (yearOf fuel year days).1 + (yearOf fuel year days).2 = yearStart year + days := by
  induction fuel generalizing year days with
  | zero => omega
  | succ fuel ih =>
    have step : yearOf (fuel + 1) year days = if days < yearLength year then (year, days)
        else yearOf fuel (year + 1) (days - yearLength year) := rfl
    rw [step]
    split
    · rename_i inside
      exact ⟨le_rfl, inside, rfl⟩
    · have bounds := yearLength_bounds year
      obtain ⟨le, lt, same⟩ := @ih (year + 1) (days - yearLength year) (by omega) (by omega)
      rw [yearStart_succ from'] at same
      exact ⟨by omega, lt, by omega⟩

example : monthOf (monthLengths false) 1 31 = (2, 1) := by decide +kernel

/-- The walk over the months ends in the month that the day is in, as the decoder counts. -/
theorem monthOf_spec : ∀ leap : Bool, ∀ day < 366, day < (if leap then 366 else 365) →
    1 ≤ (monthOf (monthLengths leap) 1 day).1 ∧ (monthOf (monthLengths leap) 1 day).1 ≤ 12 ∧
      1 ≤ (monthOf (monthLengths leap) 1 day).2 ∧
      (monthOf (monthLengths leap) 1 day).2 ≤
        (monthLengths leap).getD ((monthOf (monthLengths leap) 1 day).1 - 1) 0 ∧
      daysBefore.getD ((monthOf (monthLengths leap) 1 day).1 - 1) 0 +
        (if leap && 2 < (monthOf (monthLengths leap) 1 day).1 then 1 else 0) +
        ((monthOf (monthLengths leap) 1 day).2 - 1) = day := by
  decide +kernel

theorem monthLengths_le : ∀ leap : Bool, ∀ m < 12, (monthLengths leap).getD m 0 ≤ 31 := by decide

/-! ### Encoding and decoding -/

theorem date_fields {y m d : Nat} (hy : y < 128) (hm : m < 16) (hd : d < 32) :
    (y * 512 + m * 32 + d) / 512 % 128 = y ∧ (y * 512 + m * 32 + d) / 32 % 16 = m ∧
      (y * 512 + m * 32 + d) % 32 = d := by
  omega

theorem time_fields {h m s : Nat} (hh : h < 32) (hm : m < 64) (hs : s < 32) :
    (h * 2048 + m * 32 + s) / 2048 % 32 = h ∧ (h * 2048 + m * 32 + s) / 32 % 64 = m ∧
      (h * 2048 + m * 32 + s) % 32 = s := by
  omega

/-- What the decoder makes of fields that fit into their bits. -/
theorem fatEpoch_fields {y m d h mi s : Nat} (hy : y < 128) (hm : 1 ≤ m) (hm' : m < 16) (hd : 1 ≤ d)
    (hd' : d < 32) (hh : h < 32) (hmi : mi < 64) (hs : s < 32) :
    fatEpoch (y * 512 + m * 32 + d) (h * 2048 + mi * 32 + s) =
      ((yearStart (1980 + y) + (daysBefore.getD (m - 1) 0 +
        (if isLeap (1980 + y) && 2 < m then 1 else 0) + (d - 1))) * 86400 +
        (h * 3600 + mi * 60 + s * 2)) % 2 ^ 32 := by
  have some_ : y * 512 + m * 32 + d ≠ 0 := by omega
  have valid : ¬(m = 0 ∨ d = 0) := by omega
  obtain ⟨year, month, day⟩ := date_fields hy hm' hd'
  obtain ⟨hour, minute, second⟩ := time_fields hh hmi hs
  simp only [fatEpoch, if_neg some_, year, month, day, hour, minute, second, if_neg valid]
  have years : ((List.range' 1970 (1980 + y - 1970)).map fun y => if isLeap y then 366 else 365).sum =
      yearStart (1980 + y) := rfl
  rw [years, Nat.add_assoc (yearStart _), Nat.add_assoc (yearStart _)]

theorem yearStart_1980 : yearStart 1980 = 3652 := rfl

/-- The fields of a time from 1980 on: they fit, they are a date, and they stand for the day and the second. -/
theorem fatTimeEncode_fields {t : Nat} (late : 315532800 ≤ t) (small : t < 2 ^ 32) : ∃ y m d,
    y < 127 ∧ 1 ≤ m ∧ m ≤ 12 ∧ 1 ≤ d ∧ d ≤ (monthLengths (isLeap (1980 + y))).getD (m - 1) 0 ∧
      fatTimeEncode t = (y * 512 + m * 32 + d, t % 86400 / 3600 * 2048 + t % 86400 % 3600 / 60 * 32 +
        t % 86400 % 60 / 2) ∧
      yearStart (1980 + y) + (daysBefore.getD (m - 1) 0 + (if isLeap (1980 + y) && 2 < m then 1 else 0) +
        (d - 1)) = t / 86400 := by
  have days : (t - 315532800) / 86400 = t / 86400 - 3652 := by omega
  have rem : (t - 315532800) % 86400 = t % 86400 := by omega
  obtain ⟨from', inside, same⟩ := @yearOf_spec 1980 (t / 86400 - 3652) ((t / 86400 - 3652) / 300 + 1)
    (by omega) (by omega)
  rw [yearStart_1980] at same
  obtain ⟨y, hy⟩ := Nat.exists_eq_add_of_le from'
  generalize hr : (yearOf ((t / 86400 - 3652) / 300 + 1) 1980 (t / 86400 - 3652)).2 = r at inside same
  rw [hy] at inside same
  have few : y < 127 := by
    by_contra far
    have least := @yearStart_ge (1980 + y) (by omega)
    omega
  have lt := (yearLength_bounds (1980 + y)).2
  obtain ⟨least, most, first, last, day⟩ := monthOf_spec (isLeap (1980 + y)) r (by omega) inside
  refine ⟨y, _, _, few, least, most, first, last, ?_, by rw [day]; omega⟩
  rw [fatTimeEncode, if_neg (by omega)]
  simp only [days, rem, hy, hr]
  have field : min (1980 + y - 1980) 127 = y := by omega
  rw [field]
  rfl

/-- `fat_epoch` of `fat_time_encode`: the time, to the even second, and the first day that there is before it. -/
def storedTime (t : Nat) : Nat := fatEpoch (fatTimeEncode t).1 (fatTimeEncode t).2

theorem storedTime_early {t : Nat} (early : t < 315532800) : storedTime t = 315532800 := by
  rw [storedTime, fatTimeEncode, if_pos early]
  rfl

theorem storedTime_late {t : Nat} (late : 315532800 ≤ t) (small : t < 2 ^ 32) : storedTime t = t - t % 2 := by
  obtain ⟨y, m, d, hy, hm, hm', hd, hd', encoded, day⟩ := fatTimeEncode_fields late small
  have short := monthLengths_le (isLeap (1980 + y)) (m - 1) (by omega)
  rw [storedTime, encoded, fatEpoch_fields (by omega) hm (by omega) hd (by omega) (by omega) (by omega) (by omega),
    day, Nat.mod_eq_of_lt (by omega)]
  omega

/-- A time of 32 bits comes back as it was stored, in order, and is a date of the calendar. -/
theorem fatTime_roundTrip (t : UInt32) :
    storedTime t.toNat = (if t.toNat < 315532800 then 315532800 else t.toNat - t.toNat % 2) ∧
      ValidDate (fatTimeEncode t.toNat).1 ∧
      ∀ t' : UInt32, t ≤ t' → storedTime t.toNat ≤ storedTime t'.toNat := by
  have stored (t : UInt32) :
      storedTime t.toNat = if t.toNat < 315532800 then 315532800 else t.toNat - t.toNat % 2 := by
    split
    · exact storedTime_early ‹_›
    · exact storedTime_late (Nat.not_lt.mp ‹_›) t.toNat_lt
  refine ⟨stored t, ?_, fun t' le => ?_⟩
  · by_cases early : t.toNat < 315532800
    · rw [fatTimeEncode, if_pos early]
      exact ⟨by decide, by decide, by decide, by decide⟩
    · obtain ⟨y, m, d, hy, hm, hm', hd, hd', encoded, -⟩ :=
        fatTimeEncode_fields (Nat.not_lt.mp early) t.toNat_lt
      have short := monthLengths_le (isLeap (1980 + y)) (m - 1) (by omega)
      obtain ⟨year, month, day⟩ := @date_fields y m d (by omega) (by omega) (by omega)
      rw [encoded, ValidDate, year, month, day]
      exact ⟨hm, hm', hd, hd'⟩
  · have le' : t.toNat ≤ t'.toNat := UInt32.le_iff_toNat_le.mp le
    rw [stored t, stored t']
    split <;> split <;> omega

/-- The last second of the 28th of February 2000. -/
theorem fatTime_roundTrip_leap : storedTime 951782399 = 951782398 ∧ storedTime 951782399 ≤ storedTime 951782400 :=
  ⟨(fatTime_roundTrip 951782399).1, (fatTime_roundTrip 951782399).2.2 951782400 (by decide)⟩

end RPCortex.Fat12
