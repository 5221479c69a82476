import LibarchiveOxide.Core.Metadata

/-! # The DOS times of a cabinet -/

namespace LibarchiveOxide.Cab.Times

open Core.Metadata

/-- `days_from_civil`. -/
def daysFromCivil (year month day : ℤ) : ℤ :=
  let year := if month ≤ 2 then year - 1 else year
  let era := (if 0 ≤ year then year else year - 399).tdiv 400
  let yearOfEra := year - era * 400
  let monthShift := if 2 < month then month - 3 else month + 9
  let dayOfYear := (153 * monthShift + 2) / 5 + day - 1
  let dayOfEra := yearOfEra * 365 + yearOfEra / 4 - yearOfEra / 100 + dayOfYear
  era * 146097 + dayOfEra - 719468

/-- `dos_datetime_to_timestamp`. -/
def dosDatetimeToTimestamp (date time : ℕ) : Option Timestamp :=
  if date = 0 ∧ time = 0 then none
  else
    let month := date / 32 % 16
    let day := date % 32
    let hour := time / 2048 % 32
    let minute := time / 32 % 64
    let second := time % 32 * 2
    if month < 1 ∨ 12 < month ∨ day < 1 ∨ 23 < hour ∨ 59 < minute then none
    else
      let days := daysFromCivil (1980 + date / 512) month day
      some (.fromSeconds (Int64.ofInt (days * 86400 + (hour * 3600 + minute * 60 + second))))

end LibarchiveOxide.Cab.Times
