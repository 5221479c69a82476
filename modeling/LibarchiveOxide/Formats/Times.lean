import LibarchiveOxide.Cab.Times
import LibarchiveOxide.Iso.Fields
import LibarchiveOxide.Lib.Gregorian
import LibarchiveOxide.Lib.Result
import LibarchiveOxide.Zip.Fields

/-! # Times on the calendar

ISO 9660 and DOS times are dates with a time of the day. Four functions of the sources compute with the
eras of the calendar: `timestamp_parts` and `civil_from_days` find the date of a day, and
`timestamp_from_parts` and `days_from_civil` the day of a date. Each of them agrees with the numbering of
the dates, so a time that is written is read, up to what its format cannot hold. -/

namespace LibarchiveOxide.Formats.Times

open Core.Failure Core.Metadata Lib.Gregorian Lib.Slice Lib.Result Iso.Fields
open Zip.Fields (civilFromDays dosDatetime)
open Cab.Times (daysFromCivil dosDatetimeToTimestamp)

/-- The date and the time of the day that a timestamp is. -/
structure Denotes (t : Timestamp) (d : Date) (hour minute second : ℕ) : Prop where
  hour_lt : hour < 24
  minute_lt : minute < 60
  second_lt : second < 60
  secs : t.secs.toInt = d.number * 86400 + (hour * 3600 + minute * 60 + second : ℕ)

variable {t : Timestamp} {d : Date} {hour minute second : ℕ}

theorem exists_denotes (t : Timestamp) : ∃ d hour minute second, Denotes t d hour minute second := by
  obtain ⟨d, hd⟩ := number_bijective.2 (t.secs.toInt / 86400)
  obtain ⟨rest, hrest⟩ : ∃ rest : ℕ, (rest : ℤ) = t.secs.toInt % 86400 :=
    ⟨(t.secs.toInt % 86400).toNat, by omega⟩
  exact ⟨d, rest / 3600, rest % 3600 / 60, rest % 60, by omega, by omega, by omega, by omega⟩

theorem Denotes.unique {d' : Date} {hour' minute' second' : ℕ} (h : Denotes t d hour minute second)
    (h' : Denotes t d' hour' minute' second') :
    d = d' ∧ hour = hour' ∧ minute = minute' ∧ second = second' := by
  obtain ⟨h1, h2, h3, hsecs⟩ := h
  obtain ⟨h1', h2', h3', hsecs'⟩ := h'
  refine ⟨number_injective ?_, ?_, ?_, ?_⟩ <;> omega

theorem Denotes.day (h : Denotes t d hour minute second) : t.secs.toInt / 86400 = d.number := by
  obtain ⟨h1, h2, h3, hsecs⟩ := h
  omega

theorem Denotes.rest (h : Denotes t d hour minute second) :
    t.secs.toInt % 86400 = (hour * 3600 + minute * 60 + second : ℕ) := by
  obtain ⟨h1, h2, h3, hsecs⟩ := h
  omega

/-! ### The four conversions -/

theorem civilFromDays_number (d : Date) : civilFromDays d.number = (d.year, d.month, d.day) :=
  civil_number d

/-- Dividing by 400 with the remainder that a negative year needs. -/
theorem tdiv_era (year : ℤ) : (if 0 ≤ year then year else year - 399).tdiv 400 = year / 400 := by
  split_ifs with h
  · exact Int.tdiv_eq_ediv_of_nonneg h
  · have hneg : year - 399 = -(399 - year) := by omega
    rw [hneg, Int.neg_tdiv, Int.tdiv_eq_ediv_of_nonneg (by omega)]
    omega

theorem daysFromCivil_number (d : Date) : daysFromCivil d.year d.month d.day = d.number := by
  rw [number_eq]
  unfold daysFromCivil ofCivil
  dsimp only
  rw [tdiv_era]

theorem add_month (part : ℤ) :
    part + (if part < 10 then 3 else -9) = if part < 10 then part + 3 else part - 9 := by
  split_ifs <;> ring

theorem add_year (year month : ℤ) :
    year + (if month ≤ 2 then 1 else 0) = if month ≤ 2 then year + 1 else year := by
  split_ifs <;> ring

/-- **`timestamp_parts` is the date and the time of the day.** -/
theorem timestampParts_eq (h : Denotes t d hour minute second) (hmin : -2 ^ 31 ≤ d.year)
    (hmax : d.year < 2 ^ 31) :
    timestampParts t = some (d.year, d.month.toNat, d.day.toNat, hour, minute, second) := by
  have hcivil := civil_number d
  rw [← h.day] at hcivil
  unfold civil at hcivil
  simp only [Prod.mk.injEq] at hcivil
  obtain ⟨hyear, hmonth, hday⟩ := hcivil
  have hrest := h.rest
  have hhour := h.hour_lt
  have hminute := h.minute_lt
  have hsecond := h.second_lt
  unfold timestampParts
  dsimp only
  rw [add_month, add_year, hyear, hmonth, hday, if_pos ⟨hmin, hmax⟩]
  simp only [Option.some.injEq, Prod.mk.injEq, true_and]
  refine ⟨?_, ?_, ?_⟩ <;> omega

theorem i64Of_toInt (x : Int64) : i64Of x.toInt = some x := by
  have hlow := x.le_toInt
  have hhigh := x.toInt_lt
  rw [i64Of, if_pos ⟨hlow, hhigh⟩, Int64.ofInt_toInt]

theorem monthLength_le (year month : ℤ) : monthLength year month ≤ 31 := by
  have hleap := leapDay_mem year
  unfold monthLength
  split_ifs <;> omega

/-- **`timestamp_from_parts` is the moment of the date and the time of the day.** -/
theorem timestampFromParts_eq (h : Denotes t d hour minute second) {nanos : ℕ}
    (hnanos : nanos < 1000000000) :
    timestampFromParts d.year d.month.toNat d.day.toNat hour minute second 0 nanos =
      some ⟨t.secs, nanos, hnanos⟩ := by
  have hmonth := d.month_mem
  have hday := d.day_mem
  have hlast : d.day ≤ 31 := hday.2.trans (monthLength_le d.year d.month)
  have hhour := h.hour_lt
  have hminute := h.minute_lt
  have hsecond := h.second_lt
  have hnumber := number_eq d
  obtain ⟨m, hm⟩ : ∃ m : ℕ, d.month = m := ⟨d.month.toNat, by omega⟩
  obtain ⟨k, hk⟩ : ∃ k : ℕ, d.day = k := ⟨d.day.toNat, by omega⟩
  rw [hm, Int.toNat_natCast, hk, Int.toNat_natCast]
  rw [hm, hk] at hnumber
  have hnew : (Timestamp.new t.secs nanos).toOption = some ⟨t.secs, nanos, hnanos⟩ := by
    rw [Timestamp.new, dif_pos hnanos]
    rfl
  unfold timestampFromParts
  rw [if_neg (by omega)]
  dsimp only
  refine Option.bind_eq_some_iff.mpr ⟨t.secs, ?_, hnew⟩
  rw [← i64Of_toInt, h.secs, hnumber]
  congr 1
  unfold ofCivil
  dsimp only
  by_cases hearly : m ≤ 2
  · rw [if_pos hearly, if_neg (by omega), if_pos (by omega), if_neg (by omega)]
    push_cast
    ring
  · rw [if_neg hearly, if_pos (by omega), if_neg (by omega), if_pos (by omega)]
    push_cast
    ring_nf

/-! ### ISO 9660 times -/

theorem digit_byte (n : ℕ) :
    (chr '0' ≤ chr '0' + UInt8.ofNat (n % 10) ∧ chr '0' + UInt8.ofNat (n % 10) ≤ chr '9') ∧
      (chr '0' + UInt8.ofNat (n % 10) - chr '0').toNat = n % 10 := by
  have hlt := Nat.mod_lt n (show 10 > 0 by omega)
  generalize n % 10 = k at hlt ⊢
  interval_cases k <;> decide

theorem mem_decimal {w n : ℕ} {b : UInt8} (h : b ∈ decimal w n) : chr '0' ≤ b := by
  induction w generalizing n with
  | zero => exact absurd h (List.not_mem_nil)
  | succ w ih =>
    rcases List.mem_append.mp h with h | h
    · exact ih h
    · rw [List.mem_singleton.mp h]
      exact (digit_byte n).1.1

/-- **A number that is written with `w` digits is read.** -/
theorem digits_decimal {w n : ℕ} (hw : w ≠ 0) (h : n < 10 ^ w) (hmax : n ≤ u32Max) :
    digits (decimal w n) = some n := by
  have hsign : (decimal w n).head? ≠ some (chr '+') := fun hhead =>
    absurd (mem_decimal (List.mem_of_mem_head? hhead)) (by decide)
  have hne : decimal w n ≠ [] := by
    obtain ⟨w, rfl⟩ := Nat.exists_eq_succ_of_ne_zero hw
    exact List.append_ne_nil_of_right_ne_nil _ (List.cons_ne_nil _ _)
  have hbody : (if (decimal w n).head? = some (chr '+') ∧ (decimal w n).length ≠ 1 then
      (decimal w n).tail else decimal w n) = decimal w n := if_neg (fun hplus => hsign hplus.1)
  unfold digits
  rw [hbody]
  dsimp only
  rw [if_neg hne]
  clear hw hsign hne hbody
  induction w generalizing n with
  | zero =>
    rw [pow_zero, Nat.lt_one_iff] at h
    rw [h]
    rfl
  | succ w ih =>
    have hhigh : n / 10 < 10 ^ w := Nat.div_lt_of_lt_mul (by rwa [← pow_succ'])
    have hbyte := digit_byte n
    rw [decimal, List.foldlM_append, ih hhigh (by omega)]
    simp only [List.foldlM_cons, List.foldlM_nil, Option.bind_eq_bind, Option.bind_some]
    rw [if_pos hbyte.1, hbyte.2, if_pos (by omega)]
    exact congrArg some (Nat.div_add_mod' n 10)

/-- A timestamp with the hundredths of an ISO 9660 time. -/
def hundredths (t : Timestamp) : Timestamp :=
  ⟨t.secs, t.nanos / 10000000 * 10000000, by have := t.nanos_lt; omega⟩

/-- **A long time of ISO 9660 is read as it was written**, up to its hundredths. -/
theorem longIsoTime_longTimestamp (h : Denotes t d hour minute second)
    (hyear : 0 ≤ d.year ∧ d.year ≤ 9999) :
    (longTimestamp t).bind longIsoTime = some (hundredths t) := by
  have hmonth := d.month_mem
  have hday := d.day_mem
  have hlast : d.day ≤ 31 := hday.2.trans (monthLength_le d.year d.month)
  have hhour := h.hour_lt
  have hminute := h.minute_lt
  have hsecond := h.second_lt
  have hnanos := t.nanos_lt
  have hwritten : longTimestamp t = some (decimal 4 d.year.toNat ++ decimal 2 d.month.toNat ++
      decimal 2 d.day.toNat ++ decimal 2 hour ++ decimal 2 minute ++ decimal 2 second ++
      decimal 2 (t.nanos / 10000000) ++ [0]) := by
    rw [longTimestamp, timestampParts_eq h (by omega) (by omega)]
    exact if_pos hyear
  have hmax : u32Max = 4294967295 := rfl
  have hread4 (n : ℕ) (hn : n < 10000) : digits (decimal 4 n) = some n :=
    digits_decimal (by decide) hn (by omega)
  have hread2 (n : ℕ) (hn : n < 100) : digits (decimal 2 n) = some n :=
    digits_decimal (by decide) hn (by omega)
  have hbyte (n : ℕ) (hn : n < 100) : (digits (decimal 2 n)).bind u8Of = some n := by
    rw [hread2 n hn]
    exact if_pos (by omega)
  have hparts := timestampFromParts_eq h (hundredths t).nanos_lt
  rw [hwritten, Option.bind_some, longIsoTime, if_neg (fun hne => hne rfl)]
  calc _ = (do
        let year ← digits (decimal 4 d.year.toNat)
        let month ← (digits (decimal 2 d.month.toNat)).bind u8Of
        let day ← (digits (decimal 2 d.day.toNat)).bind u8Of
        let hour ← (digits (decimal 2 hour)).bind u8Of
        let minute ← (digits (decimal 2 minute)).bind u8Of
        let second ← (digits (decimal 2 second)).bind u8Of
        let part ← digits (decimal 2 (t.nanos / 10000000))
        timestampFromParts year month day hour minute second 0 (part * 10000000)) := rfl
    _ = some (hundredths t) := by
      rw [hread4 d.year.toNat (by omega), hbyte d.month.toNat (by omega),
        hbyte d.day.toNat (by omega), hbyte hour (by omega), hbyte minute (by omega),
        hbyte second (by omega), hread2 (t.nanos / 10000000) (by omega)]
      simp only [Option.bind_eq_bind, Option.bind_some]
      rw [Int.toNat_of_nonneg hyear.1]
      exact hparts

/-! ### DOS times -/

/-- A timestamp as a DOS time has it. -/
def evenSecond (t : Timestamp) : Timestamp :=
  .fromSeconds (Int64.ofInt (t.secs.toInt - t.secs.toInt % 2))

/-- **`dos_datetime` is the date and the time of the day.** -/
theorem dosDatetime_eq (h : Denotes t d hour minute second)
    (hyear : 1980 ≤ d.year ∧ d.year ≤ 2107) :
    dosDatetime (some t) = (hour * 2 ^ 11 + minute * 2 ^ 5 + second / 2,
      (d.year - 1980).toNat * 2 ^ 9 + d.month.toNat * 2 ^ 5 + d.day.toNat) := by
  have hmonth := d.month_mem
  have hday := d.day_mem
  have hrest := h.rest
  have hhour := h.hour_lt
  have hminute := h.minute_lt
  have hsecond := h.second_lt
  have hepoch : ¬ t.secs.toInt < 315532800 := by
    have hstart : yearStart 1980 = 3652 := rfl
    have hmono := yearStart_strictMono.monotone hyear.1
    have hmem := (number_mem d).1.1
    have hsecs := h.secs
    omega
  unfold dosDatetime
  dsimp only
  rw [if_neg hepoch, h.day, civilFromDays_number]
  dsimp only
  rw [hrest, max_eq_left (by omega), min_eq_left (by omega)]
  refine Prod.ext ?_ ?_ <;> dsimp only <;> omega

theorem dosDate_fields (year : ℕ) {month day : ℕ} (hmonth : month < 16) (hday : day < 32) :
    (year * 2 ^ 9 + month * 2 ^ 5 + day) / 512 = year ∧
      (year * 2 ^ 9 + month * 2 ^ 5 + day) / 32 % 16 = month ∧
      (year * 2 ^ 9 + month * 2 ^ 5 + day) % 32 = day := by
  refine ⟨?_, ?_, ?_⟩ <;> omega

theorem dosTime_fields {half : ℕ} (hhour : hour < 32) (hminute : minute < 64) (hhalf : half < 32) :
    (hour * 2 ^ 11 + minute * 2 ^ 5 + half) / 2048 % 32 = hour ∧
      (hour * 2 ^ 11 + minute * 2 ^ 5 + half) / 32 % 64 = minute ∧
      (hour * 2 ^ 11 + minute * 2 ^ 5 + half) % 32 = half := by
  refine ⟨?_, ?_, ?_⟩ <;> omega

/-- **A DOS time is read as it was written**, up to its even seconds. -/
theorem dosDatetimeToTimestamp_dosDatetime (h : Denotes t d hour minute second)
    (hyear : 1980 ≤ d.year ∧ d.year ≤ 2107) :
    dosDatetimeToTimestamp (dosDatetime (some t)).2 (dosDatetime (some t)).1 =
      some (evenSecond t) := by
  have hmonth := d.month_mem
  have hday := d.day_mem
  have hlast : d.day ≤ 31 := hday.2.trans (monthLength_le d.year d.month)
  have hhour := h.hour_lt
  have hminute := h.minute_lt
  have hsecond := h.second_lt
  have hsecs := h.secs
  have hdays := daysFromCivil_number d
  obtain ⟨y, hy⟩ : ∃ y : ℕ, d.year = 1980 + y := ⟨(d.year - 1980).toNat, by omega⟩
  obtain ⟨m, hm⟩ : ∃ m : ℕ, d.month = m := ⟨d.month.toNat, by omega⟩
  obtain ⟨k, hk⟩ : ∃ k : ℕ, d.day = k := ⟨d.day.toNat, by omega⟩
  rw [hy, hm, hk] at hdays
  rw [dosDatetime_eq h hyear]
  dsimp only
  rw [hy, add_sub_cancel_left, hm, hk, Int.toNat_natCast, Int.toNat_natCast, Int.toNat_natCast]
  obtain ⟨hyears, hmonths, hdayOf⟩ := dosDate_fields y (show m < 16 by omega) (show k < 32 by omega)
  obtain ⟨hhours, hminutes, hhalves⟩ :=
    dosTime_fields (show hour < 32 by omega) (show minute < 64 by omega) (show second / 2 < 32 by omega)
  have hyears' : ((y * 2 ^ 9 + m * 2 ^ 5 + k : ℕ) : ℤ) / 512 = y := by
    exact_mod_cast congrArg Nat.cast hyears
  rw [dosDatetimeToTimestamp, hyears', hmonths, hdayOf, hhours, hminutes, hhalves, if_neg (by omega)]
  dsimp only
  rw [if_neg (by omega), hdays]
  have heven : d.number * 86400 + ((hour : ℤ) * 3600 + minute * 60 + (second / 2 * 2 : ℕ)) =
      t.secs.toInt - t.secs.toInt % 2 := by
    omega
  unfold evenSecond
  rw [← heven]

/-! ### The conversions -/

/-- **The conversions of dates and times are inverse to each other.** Every timestamp has a date and a
time of the day. -/
theorem calendar_inverse :
    (∀ t : Timestamp, ∃ d hour minute second, Denotes t d hour minute second ∧
      (0 ≤ d.year ∧ d.year ≤ 9999 →
        (longTimestamp t).bind longIsoTime = some (hundredths t) ∧
          timestampParts t =
            some (d.year, d.month.toNat, d.day.toNat, hour, minute, second)) ∧
      (1980 ≤ d.year ∧ d.year ≤ 2107 →
        dosDatetimeToTimestamp (dosDatetime (some t)).2 (dosDatetime (some t)).1 =
          some (evenSecond t))) ∧
    ∀ days : ℤ, ∃ d : Date, civilFromDays days = (d.year, d.month, d.day) ∧ d.number = days ∧
      daysFromCivil d.year d.month d.day = days := by
  refine ⟨fun t => ?_, fun days => ?_⟩
  · obtain ⟨d, hour, minute, second, h⟩ := exists_denotes t
    refine ⟨d, hour, minute, second, h, fun hyear => ⟨longIsoTime_longTimestamp h hyear, ?_⟩,
      dosDatetimeToTimestamp_dosDatetime h⟩
    exact timestampParts_eq h (by omega) (by omega)
  · obtain ⟨d, rfl⟩ := number_bijective.2 days
    exact ⟨d, civilFromDays_number d, rfl, daysFromCivil_number d⟩

end LibarchiveOxide.Formats.Times
