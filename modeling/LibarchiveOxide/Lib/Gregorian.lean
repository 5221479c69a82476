import Mathlib.Tactic

/-! # The Gregorian calendar

Years are integers, and every one of them has the months and leap days of the calendar. A `Date` has a
number, its distance from the first of January 1970 in days. The number of the day after it is the next
one (`number_next`), and every integer is the number of one date (`number_bijective`).

`civil` and `ofCivil` compute with eras of 400 years, which begin with a March: all of them have 146097
days, and the leap day is the last day of its year. They are the two directions of the numbering
(`civil_spec`, `number_eq`). -/

namespace LibarchiveOxide.Lib.Gregorian

/-! ### Dates -/

/-- A year with a leap day. -/
def IsLeap (year : ℤ) : Prop := year % 4 = 0 ∧ (year % 100 = 0 → year % 400 = 0)

instance (year : ℤ) : Decidable (IsLeap year) :=
  inferInstanceAs (Decidable (year % 4 = 0 ∧ (year % 100 = 0 → year % 400 = 0)))

/-- The number of leap days in a year. -/
def leapDay (year : ℤ) : ℤ := if IsLeap year then 1 else 0

/-- The number of days of a month. -/
def monthLength (year month : ℤ) : ℤ :=
  if month = 2 then 28 + leapDay year
  else if month = 4 ∨ month = 6 ∨ month = 9 ∨ month = 11 then 30
  else 31

/-- A date of the calendar. -/
@[ext] structure Date where
  year : ℤ
  month : ℤ
  day : ℤ
  month_mem : 1 ≤ month ∧ month ≤ 12
  day_mem : 1 ≤ day ∧ day ≤ monthLength year month

/-- The leap days since the year 0, up to the end of a year. -/
def leaps (year : ℤ) : ℤ := year / 4 - year / 100 + year / 400

/-- The number of the first day of a year. -/
def yearStart (year : ℤ) : ℤ := 365 * year + leaps (year - 1) - 719527

/-- The days of a year before a month. -/
def monthStart (year month : ℤ) : ℤ :=
  ((List.range (month - 1).toNat).map fun (i : ℕ) => monthLength year (i + 1)).sum

/-- The days from the first of January 1970. -/
def Date.number (d : Date) : ℤ := yearStart d.year + monthStart d.year d.month + (d.day - 1)

theorem leapDay_mem (year : ℤ) : 0 ≤ leapDay year ∧ leapDay year ≤ 1 := by
  unfold leapDay
  split <;> decide

theorem monthLength_pos (year month : ℤ) : 28 ≤ monthLength year month := by
  have hleap := leapDay_mem year
  unfold monthLength
  split_ifs <;> omega

/-- The day after a date. -/
def Date.next (d : Date) : Date :=
  if hday : d.day < monthLength d.year d.month then
    { d with
      day := d.day + 1
      day_mem := ⟨by have := d.day_mem; omega, by omega⟩ }
  else if hmonth : d.month < 12 then
    { year := d.year
      month := d.month + 1
      day := 1
      month_mem := ⟨by have := d.month_mem; omega, by omega⟩
      day_mem := ⟨le_rfl, by have := monthLength_pos d.year (d.month + 1); omega⟩ }
  else
    { year := d.year + 1
      month := 1
      day := 1
      month_mem := ⟨le_rfl, by decide⟩
      day_mem := ⟨le_rfl, by have := monthLength_pos (d.year + 1) 1; omega⟩ }

/-! ### Beginnings of years and months -/

theorem leaps_eq (year : ℤ) : leaps year = leaps (year - 1) + leapDay year := by
  unfold leaps leapDay IsLeap
  split_ifs <;> omega

theorem yearStart_succ (year : ℤ) : yearStart (year + 1) = yearStart year + 365 + leapDay year := by
  have hleaps := leaps_eq year
  unfold yearStart
  rw [show year + 1 - 1 = year by omega]
  omega

theorem monthStart_succ (year : ℤ) {month : ℤ} (h : 1 ≤ month) :
    monthStart year (month + 1) = monthStart year month + monthLength year month := by
  obtain ⟨n, rfl⟩ : ∃ n : ℕ, month = n + 1 := ⟨(month - 1).toNat, by omega⟩
  have hlast : ((n : ℤ) + 1 + 1 - 1).toNat = n + 1 := by omega
  have hnow : ((n : ℤ) + 1 - 1).toNat = n := by omega
  unfold monthStart
  rw [hlast, hnow, List.range_succ, List.map_append, List.sum_append]
  simp

theorem map_monthLength (year : ℤ) :
    (List.range 12).map (fun (i : ℕ) => monthLength year (i + 1)) =
      [31, 28 + leapDay year, 31, 30, 31, 30, 31, 31, 30, 31, 30, 31] := by
  simp [List.range_succ, monthLength]

/-- From March on the months are those of a year that begins with a March. -/
theorem monthStart_eq (year month : ℤ) (h : 1 ≤ month ∧ month ≤ 13) :
    monthStart year month =
      if month ≤ 2 then 31 * (month - 1) else (153 * (month - 3) + 2) / 5 + 59 + leapDay year := by
  obtain ⟨h1, h13⟩ := h
  have htake : monthStart year month =
      (([31, 28 + leapDay year, 31, 30, 31, 30, 31, 31, 30, 31, 30, 31] : List ℤ).take
        (month - 1).toNat).sum := by
    rw [← map_monthLength, ← List.map_take, List.take_range, min_eq_left (by omega)]
    rfl
  rw [htake]
  generalize leapDay year = leap
  interval_cases month <;> simp <;> ring

/-! ### Numbers -/

/-- The first of January 1970. -/
def epoch : Date := ⟨1970, 1, 1, by decide, by decide⟩

theorem number_epoch : epoch.number = 0 := rfl

theorem Date.day_le (d : Date) : d.day ≤ monthLength d.year d.month := d.day_mem.2

/-- **The next day has the next number.** -/
theorem number_next (d : Date) : d.next.number = d.number + 1 := by
  have hlast := d.day_le
  unfold Date.next
  split_ifs with hday hmonth
  · unfold Date.number
    dsimp only
    omega
  · have hmonths := monthStart_succ d.year d.month_mem.1
    unfold Date.number
    dsimp only
    omega
  · have hdecember : d.month = 12 := by
      have := d.month_mem
      omega
    have hyears := yearStart_succ d.year
    have hmonths := monthStart_succ d.year d.month_mem.1
    have hend := monthStart_eq d.year 13 (by decide)
    have hstart : monthStart (d.year + 1) 1 = 0 := rfl
    rw [hdecember] at hmonths hday hlast
    rw [if_neg (by decide)] at hend
    unfold Date.number
    rw [hdecember]
    dsimp only
    rw [hstart]
    norm_num at hmonths hend
    omega

/-- A date lies in its year and in its month. -/
theorem number_mem (d : Date) :
    (yearStart d.year ≤ d.number ∧ d.number < yearStart (d.year + 1)) ∧
      monthStart d.year d.month ≤ d.number - yearStart d.year ∧
      d.number - yearStart d.year < monthStart d.year (d.month + 1) := by
  obtain ⟨hfirst, hlast⟩ := d.day_mem
  have hmonth := d.month_mem
  have hnext := monthStart_succ d.year hmonth.1
  have hstart := monthStart_eq d.year d.month (by omega)
  have hafter := monthStart_eq d.year (d.month + 1) (by omega)
  have hyear := yearStart_succ d.year
  have hleap := leapDay_mem d.year
  have hnumber : d.number = yearStart d.year + monthStart d.year d.month + (d.day - 1) := rfl
  have hlow : 0 ≤ monthStart d.year d.month := by
    rw [hstart]
    split_ifs <;> omega
  have hhigh : monthStart d.year (d.month + 1) ≤ 365 + leapDay d.year := by
    rw [hafter]
    split_ifs <;> omega
  omega

theorem yearStart_strictMono : StrictMono yearStart :=
  strictMono_int_of_lt_succ fun year => by
    have hnext := yearStart_succ year
    have hleap := leapDay_mem year
    omega

theorem monthStart_mono (year : ℤ) {m m' : ℤ} (h1 : 1 ≤ m) (hle : m ≤ m') :
    monthStart year m ≤ monthStart year m' := by
  induction m', hle using Int.leInduction with
  | base => exact le_rfl
  | succ n hn ih =>
    have hnext := monthStart_succ year (h1.trans hn)
    have hlength := monthLength_pos year n
    omega

/-- **A number has one date at most.** -/
theorem number_injective : Function.Injective Date.number := by
  intro d e h
  obtain ⟨⟨hd1, hd2⟩, hd3, hd4⟩ := number_mem d
  obtain ⟨⟨he1, he2⟩, he3, he4⟩ := number_mem e
  have hyear : d.year = e.year := by
    have hle := yearStart_strictMono.lt_iff_lt.mp (show yearStart d.year < yearStart (e.year + 1) by omega)
    have hge := yearStart_strictMono.lt_iff_lt.mp (show yearStart e.year < yearStart (d.year + 1) by omega)
    omega
  have hmonth : d.month = e.month := by
    rw [hyear, h] at hd3 hd4
    by_contra hne
    rcases Int.lt_or_gt_of_ne hne with hlt | hlt
    · have hmono := monthStart_mono e.year (by have := d.month_mem; omega) (Int.add_one_le_iff.mpr hlt)
      omega
    · have hmono := monthStart_mono e.year (by have := e.month_mem; omega) (Int.add_one_le_iff.mpr hlt)
      omega
  have hday : d.day = e.day := by
    unfold Date.number at h
    rw [hyear, hmonth] at h
    omega
  exact Date.ext hyear hmonth hday

/-! ### Eras -/

/-- The number of a date, from the year of its era. -/
def ofCivil (year month day : ℤ) : ℤ :=
  let year := if month ≤ 2 then year - 1 else year
  let era := year / 400
  let yearOfEra := year - era * 400
  let monthShift := if 2 < month then month - 3 else month + 9
  let dayOfYear := (153 * monthShift + 2) / 5 + day - 1
  let dayOfEra := yearOfEra * 365 + yearOfEra / 4 - yearOfEra / 100 + dayOfYear
  era * 146097 + dayOfEra - 719468

/-- The year, the month and the day of a number. -/
def civil (number : ℤ) : ℤ × ℤ × ℤ :=
  let z := number + 719468
  let era := z / 146097
  let dayOfEra := z - era * 146097
  let yearOfEra := (dayOfEra - dayOfEra / 1460 + dayOfEra / 36524 - dayOfEra / 146096) / 365
  let year := yearOfEra + era * 400
  let dayOfYear := dayOfEra - (365 * yearOfEra + yearOfEra / 4 - yearOfEra / 100)
  let monthPart := (5 * dayOfYear + 2) / 153
  let day := dayOfYear - (153 * monthPart + 2) / 5 + 1
  let month := if monthPart < 10 then monthPart + 3 else monthPart - 9
  (if month ≤ 2 then year + 1 else year, month, day)

/-- The days of the eras and of the years of an era. -/
theorem era_eq (year : ℤ) :
    year / 400 * 146097 + ((year - year / 400 * 400) * 365 + (year - year / 400 * 400) / 4 -
      (year - year / 400 * 400) / 100) = 365 * year + leaps year := by
  unfold leaps
  omega

/-- **The number of a date is computed from its era.** -/
theorem number_eq (d : Date) : d.number = ofCivil d.year d.month d.day := by
  have hmonth := d.month_mem
  have hstart := monthStart_eq d.year d.month (by omega)
  have hleaps := leaps_eq d.year
  unfold Date.number ofCivil yearStart
  dsimp only
  rw [hstart]
  split_ifs with h1 h2
  · omega
  · have hera := era_eq (d.year - 1)
    omega
  · have hera := era_eq d.year
    omega
  · omega

/-- **The year of a day of an era.** The days that the year leaves are at most 365, and as many only
where a leap day ends it. -/
theorem yearOfEra_spec {dayOfEra year : ℤ} (h0 : 0 ≤ dayOfEra) (h1 : dayOfEra < 146097)
    (hyear : year = (dayOfEra - dayOfEra / 1460 + dayOfEra / 36524 - dayOfEra / 146096) / 365) :
    (0 ≤ year ∧ year ≤ 399) ∧ 0 ≤ dayOfEra - (365 * year + year / 4 - year / 100) ∧
      dayOfEra - (365 * year + year / 4 - year / 100) ≤ 365 ∧
      (dayOfEra - (365 * year + year / 4 - year / 100) = 365 → IsLeap (year + 1)) := by
  have hin : 0 ≤ year ∧ year ≤ 399 := by omega
  -- The last day of the era would begin a fifth century.
  have hcentury : dayOfEra / 36524 - dayOfEra / 146096 = year / 100 := by
    have hcases : dayOfEra / 36524 = 0 ∨ dayOfEra / 36524 = 1 ∨ dayOfEra / 36524 = 2 ∨
        dayOfEra / 36524 = 3 ∨ dayOfEra / 146096 = 1 := by omega
    rcases hcases with h | h | h | h | h <;> omega
  have hfloor : 365 * year ≤ dayOfEra - dayOfEra / 1460 + year / 100 ∧
      dayOfEra - dayOfEra / 1460 + year / 100 ≤ 365 * year + 364 := by omega
  have hlast : dayOfEra / 36524 = 4 → year = 399 := by omega
  clear hyear
  refine ⟨hin, by omega, by omega, fun hlong => ?_⟩
  have hfourth : (year + 1) % 4 = 0 := by
    have hcases : year % 4 = 0 ∨ year % 4 = 1 ∨ year % 4 = 2 ∨ year % 4 = 3 := by omega
    rcases hcases with h | h | h | h <;> omega
  refine ⟨hfourth, fun hhundredth => ?_⟩
  have hcases : year / 100 = 0 ∨ year / 100 = 1 ∨ year / 100 = 2 ∨ year / 100 = 3 := by omega
  rcases hcases with h | h | h | h <;> omega

/-- **The month of a day of a year** that begins with a March: the day is one of the month, and the last
one of February only in the longest years. -/
theorem monthPart_spec {dayOfYear month : ℤ} (h0 : 0 ≤ dayOfYear) (h1 : dayOfYear ≤ 365)
    (hmonth : month = (5 * dayOfYear + 2) / 153) :
    (0 ≤ month ∧ month ≤ 11) ∧ 0 ≤ dayOfYear - (153 * month + 2) / 5 ∧
      dayOfYear - (153 * month + 2) / 5 ≤ 30 ∧
      (month = 1 ∨ month = 3 ∨ month = 6 ∨ month = 8 → dayOfYear - (153 * month + 2) / 5 ≤ 29) ∧
      (month = 11 → dayOfYear - (153 * month + 2) / 5 ≤ 27 ∨ dayOfYear = 365 ∧
        dayOfYear - (153 * month + 2) / 5 = 28) := by
  have hin : 0 ≤ month ∧ month ≤ 11 := by omega
  obtain ⟨h0', h11⟩ := hin
  refine ⟨⟨h0', h11⟩, ?_⟩
  interval_cases month <;> omega

/-- The month of the calendar for one of a year that begins with a March. -/
def monthOf (monthPart : ℤ) : ℤ := if monthPart < 10 then monthPart + 3 else monthPart - 9

theorem ofCivil_monthOf {era yearOfEra monthPart : ℤ} (hyear : 0 ≤ yearOfEra ∧ yearOfEra ≤ 399)
    (hmonth : 0 ≤ monthPart ∧ monthPart ≤ 11) (day : ℤ) :
    ofCivil (if monthOf monthPart ≤ 2 then yearOfEra + era * 400 + 1 else yearOfEra + era * 400)
        (monthOf monthPart) day =
      era * 146097 + (365 * yearOfEra + yearOfEra / 4 - yearOfEra / 100 +
        ((153 * monthPart + 2) / 5 + day - 1)) - 719468 := by
  have hera : (yearOfEra + era * 400) / 400 = era := by omega
  unfold ofCivil monthOf
  dsimp only
  by_cases hlate : monthPart < 10
  · rw [if_pos hlate, if_neg (by omega), if_neg (by omega), if_pos (by omega), hera]
    have hmarch : monthPart + 3 - 3 = monthPart := by omega
    rw [hmarch, Int.add_sub_cancel]
    omega
  · rw [if_neg hlate, if_pos (by omega), if_pos (by omega), if_neg (by omega), Int.add_sub_cancel, hera]
    have hmarch : monthPart - 9 + 9 = monthPart := by omega
    rw [hmarch, Int.add_sub_cancel]
    omega

/-- **Every number has a date**, and `civil` computes it. -/
theorem civil_spec (number : ℤ) :
    ∃ d : Date, civil number = (d.year, d.month, d.day) ∧ d.number = number := by
  obtain ⟨era, hera⟩ : ∃ era, era = (number + 719468) / 146097 := ⟨_, rfl⟩
  obtain ⟨doe, hdoe⟩ : ∃ doe, doe = number + 719468 - era * 146097 := ⟨_, rfl⟩
  obtain ⟨yoe, hyoe⟩ : ∃ yoe, yoe = (doe - doe / 1460 + doe / 36524 - doe / 146096) / 365 := ⟨_, rfl⟩
  obtain ⟨doy, hdoy⟩ : ∃ doy, doy = doe - (365 * yoe + yoe / 4 - yoe / 100) := ⟨_, rfl⟩
  obtain ⟨part, hpart⟩ : ∃ part, part = (5 * doy + 2) / 153 := ⟨_, rfl⟩
  have hcivil : civil number =
      (if monthOf part ≤ 2 then yoe + era * 400 + 1 else yoe + era * 400, monthOf part,
        doy - (153 * part + 2) / 5 + 1) := by
    subst hpart hdoy hyoe hdoe hera
    rfl
  obtain ⟨hyear, hlow, hhigh, hlong⟩ := yearOfEra_spec (by omega) (by omega) hyoe
  rw [← hdoy] at hlow hhigh hlong
  obtain ⟨hmonth, hday, hlast, hshort, hfebruary⟩ := monthPart_spec hlow hhigh hpart
  have hleap (h : doy = 365) : leapDay (yoe + era * 400 + 1) = 1 := by
    refine if_pos ?_
    have hyearly := hlong h
    unfold IsLeap at hyearly ⊢
    omega
  have hmonths : 1 ≤ monthOf part ∧ monthOf part ≤ 12 := by
    unfold monthOf
    split_ifs <;> omega
  have hdays : doy - (153 * part + 2) / 5 + 1 ≤
      monthLength (if monthOf part ≤ 2 then yoe + era * 400 + 1 else yoe + era * 400)
        (monthOf part) := by
    have hmem := leapDay_mem (yoe + era * 400 + 1)
    unfold monthLength monthOf
    by_cases hlate : part < 10
    · rw [if_pos hlate, if_neg (show ¬ part + 3 ≤ 2 by omega), if_neg (show ¬ part + 3 = 2 by omega)]
      split_ifs <;> omega
    · rw [if_neg hlate, if_pos (show part - 9 ≤ 2 by omega)]
      split_ifs
      · rcases hfebruary (by omega) with hle | ⟨heq, hle⟩
        · omega
        · have := hleap heq
          omega
      · omega
      · omega
  refine ⟨⟨if monthOf part ≤ 2 then yoe + era * 400 + 1 else yoe + era * 400, monthOf part,
    doy - (153 * part + 2) / 5 + 1, hmonths, by omega, hdays⟩, hcivil, ?_⟩
  rw [number_eq]
  dsimp only
  rw [ofCivil_monthOf hyear hmonth]
  omega

/-- **Dates and their numbers.** -/
theorem number_bijective : Function.Bijective Date.number := by
  refine ⟨number_injective, fun number => ?_⟩
  obtain ⟨d, -, hd⟩ := civil_spec number
  exact ⟨d, hd⟩

/-- The date of a number is what `civil` computes. -/
theorem civil_number (d : Date) : civil d.number = (d.year, d.month, d.day) := by
  obtain ⟨e, hcivil, hnumber⟩ := civil_spec d.number
  rw [hcivil, number_injective hnumber]

end LibarchiveOxide.Lib.Gregorian
