import LibarchiveOxide.Lib.Result
import LibarchiveOxide.Tar.Encoder

/-! # PAX values and records, read back

A decimal number is read back if it is a `u64`. A time is a sign, a number and at most nine digits behind
a point (`text`); so it comes back unless its seconds have no `i64` as their magnitude. -/

namespace LibarchiveOxide.Tar.PaxRoundTrip

open Core.Failure Core.Metadata Lib.Radix Lib.Result Tar.Header Tar.Pax Tar.Encoder

/-! ### Decimal numbers -/

/-- The character of a digit. -/
def digit (d : ℕ) : Byte := chr '0' + UInt8.ofNat d

theorem isDigit_digit {d : ℕ} (h : d < 10) : isDigit (digit d) = true ∧ (digit d - chr '0').toNat = d := by
  interval_cases d <;> decide

theorem ne_of_isDigit {b c : Byte} (h : isDigit b = true) (hc : isDigit c = false) : b ≠ c := by
  rintro rfl
  rw [h] at hc
  cases hc

theorem asciiDecimalFrom_map : ∀ {ds : List ℕ} (val : ℕ), (∀ d ∈ ds, d < 10) →
    horner 10 val ds ≤ u64Max → asciiDecimalFrom val (ds.map digit) = .ok (horner 10 val ds)
  | [], val, _, _ => rfl
  | d :: ds, val, hd, hmax => by
    obtain ⟨hlt, hds⟩ := List.forall_mem_cons.mp hd
    obtain ⟨hdigit, heq⟩ := isDigit_digit hlt
    have hstep := le_horner (by decide : 0 < 10) ds (val * 10 + d)
    rw [horner_cons] at hmax
    rw [List.map_cons, asciiDecimalFrom, if_pos hdigit, heq, checkedMul_of_le (by omega),
      Option.bind_some, checkedAdd_of_le (by omega)]
    exact asciiDecimalFrom_map _ hds hmax

theorem decimalBytes_ne_nil (n : ℕ) : decimalBytes n ≠ [] := fun h =>
  numeral_ne_nil (List.map_eq_nil_iff.mp h)

theorem isDigit_of_mem {n : ℕ} {b : Byte} (h : b ∈ decimalBytes n) : isDigit b = true := by
  obtain ⟨d, hd, rfl⟩ := List.mem_map.mp h
  exact (isDigit_digit (lt_of_mem_numeral (by decide) hd)).1

/-- **A number is read back.** -/
theorem asciiDecimal_decimalBytes {n : ℕ} (h : n ≤ u64Max) : asciiDecimal (decimalBytes n) = .ok n := by
  have hread := asciiDecimalFrom_map 0 (fun d hd => lt_of_mem_numeral (by decide : 1 < 10) hd)
    (by rw [horner_numeral 10 n]; exact h)
  rw [horner_numeral] at hread
  rw [asciiDecimal, if_neg (by simpa using decimalBytes_ne_nil n)]
  exact hread

/-- The first byte that is no digit is the one behind a number. -/
theorem findIdx_decimalBytes {c : Byte} (hc : isDigit c = false) (n : ℕ) (rest : List Byte) :
    (decimalBytes n ++ c :: rest).findIdx? (· == c) = some (decimalBytes n).length := by
  have hnone : (decimalBytes n).findIdx? (· == c) = none := List.findIdx?_eq_none_iff.mpr fun _ hb =>
    beq_false_of_ne (ne_of_isDigit (isDigit_of_mem hb) hc)
  rw [List.findIdx?_append, hnone, List.findIdx?_cons]
  simp

theorem findIdx_decimalBytes_none {c : Byte} (hc : isDigit c = false) (n : ℕ) :
    (decimalBytes n).findIdx? (· == c) = none := List.findIdx?_eq_none_iff.mpr fun _ hb =>
  beq_false_of_ne (ne_of_isDigit (isDigit_of_mem hb) hc)

/-! ### Timestamps -/

/-- The digits of the nanoseconds. -/
def fraction (nanos : ℕ) : List Byte :=
  if nanos = 0 then [] else chr '.' :: (digitsBE 10 9 nanos).map digit

/-- A time as it is written: a sign, the seconds and the nanoseconds. -/
def text (negative : Bool) (seconds nanos : ℕ) : List Byte :=
  (if negative then [chr '-'] else []) ++ (decimalBytes seconds ++ fraction nanos)

theorem parseNanos_map : ∀ (ds : List ℕ) (acc : ℕ), (∀ d ∈ ds, d < 10) →
    parseNanos ds.length acc (ds.map digit) = .ok (horner 10 acc ds)
  | [], acc, _ => rfl
  | d :: ds, acc, hd => by
    obtain ⟨hlt, hds⟩ := List.forall_mem_cons.mp hd
    obtain ⟨hdigit, heq⟩ := isDigit_digit hlt
    rw [List.length_cons, List.map_cons, parseNanos, if_pos hdigit, heq, horner_cons]
    exact parseNanos_map ds _ hds

theorem parseNanos_digits {nanos : ℕ} (h : nanos < 1000000000) :
    parseNanos 9 0 ((digitsBE 10 9 nanos).map digit) = .ok nanos := by
  have hread := parseNanos_map (digitsBE 10 9 nanos) 0
    fun d hd => lt_of_mem_digitsBE (by decide) hd
  rw [length_digitsBE, horner_digitsBE (by decide) (by simpa using h)] at hread
  exact hread

/-- What is before and behind the point of a value. -/
def splitPoint (value : List Byte) : List Byte × List Byte :=
  match value.findIdx? (· == chr '.') with
  | some dot => (value.take dot, value.drop (dot + 1))
  | none => (value, [])

/-- The seconds and nanoseconds that a sign and the parts of a time stand for. -/
def signed (negative : Bool) (magnitude : Int64) (nanos : ℕ) : Except Error (Int64 × ℕ) :=
  if negative && nanos != 0 then do
    let secs ← okOr (((i64Of (-magnitude.toInt)).bind fun s => i64Of (s.toInt - 1)))
      (.limitExceeded "PAX timestamp underflow")
    pure (secs, 1000000000 - nanos)
  else if negative then do
    let secs ← okOr (i64Of (-magnitude.toInt)) (.limitExceeded "PAX timestamp underflow")
    pure (secs, 0)
  else pure (magnitude, nanos)

/-- A time of a sign, a number and digits behind the point. -/
def parseParts (negative : Bool) (parts : List Byte × List Byte) : Except Error Timestamp := do
  let magnitude ← okOr (i64Of (← asciiDecimal parts.1)) (.limitExceeded "PAX timestamp exceeds i64")
  let nanos ← parseNanos 9 0 parts.2
  let (secs, nanos) ← signed negative magnitude nanos
  (Timestamp.new secs nanos).mapError fun _ => .malformed "invalid PAX timestamp"

theorem parseParts_eq (negative : Bool) (secsPart fracPart : List Byte) : (do
      let magnitude ← okOr (i64Of (← asciiDecimal secsPart))
        (.limitExceeded "PAX timestamp exceeds i64")
      let nanos ← parseNanos 9 0 fracPart
      let (secs, nanos) ←
        if negative && nanos != 0 then do
          let secs ← okOr (((i64Of (-magnitude.toInt)).bind fun s => i64Of (s.toInt - 1)))
            (.limitExceeded "PAX timestamp underflow")
          pure (secs, 1000000000 - nanos)
        else if negative then do
          let secs ← okOr (i64Of (-magnitude.toInt)) (.limitExceeded "PAX timestamp underflow")
          pure (secs, 0)
        else pure (magnitude, nanos)
      (Timestamp.new secs nanos).mapError fun _ => .malformed "invalid PAX timestamp") =
    parseParts negative (secsPart, fracPart) := by
  unfold parseParts
  cases asciiDecimal secsPart with
  | error e => rw [error_bind, error_bind]
  | ok seconds =>
    rw [ok_bind, ok_bind]
    cases okOr (i64Of seconds) (Error.limitExceeded "PAX timestamp exceeds i64") with
    | error e => rw [error_bind, error_bind]
    | ok magnitude =>
      rw [ok_bind, ok_bind]
      cases parseNanos 9 0 fracPart with
      | error e => rw [error_bind, error_bind]
      | ok nanos =>
        rw [ok_bind, ok_bind]
        unfold signed
        by_cases hboth : (negative && nanos != 0) = true
        · rw [if_pos hboth, if_pos hboth, bind_assoc]
        · rw [if_neg hboth, if_neg hboth]
          by_cases hnegative : negative = true
          · rw [if_pos hnegative, if_pos hnegative, bind_assoc]
          · rw [if_neg hnegative, if_neg hnegative]

theorem parsePaxTime_eq (value : List Byte) : parsePaxTime value =
    parseParts (value.head? == some (chr '-'))
      (splitPoint (if value.head? == some (chr '-') then value.tail else value)) := by
  unfold parsePaxTime splitPoint
  dsimp only
  generalize (value.head? == some (chr '-')) = negative
  generalize (if negative = true then value.tail else value) = unsigned
  cases unsigned.findIdx? (· == chr '.') with
  | none => exact parseParts_eq negative unsigned []
  | some dot => exact parseParts_eq negative (unsigned.take dot) (unsigned.drop (dot + 1))

theorem splitPoint_text (seconds : ℕ) {nanos : ℕ} (hn : nanos < 1000000000) :
    (splitPoint (decimalBytes seconds ++ fraction nanos)).1 = decimalBytes seconds ∧
      parseNanos 9 0 (splitPoint (decimalBytes seconds ++ fraction nanos)).2 = .ok nanos := by
  have hdot : isDigit (chr '.') = false := by decide
  unfold splitPoint fraction
  by_cases hzero : nanos = 0
  · rw [if_pos hzero, List.append_nil, findIdx_decimalBytes_none hdot, hzero]
    exact ⟨rfl, rfl⟩
  · rw [if_neg hzero, findIdx_decimalBytes hdot]
    dsimp only
    refine ⟨List.take_left, ?_⟩
    rw [List.drop_append, List.drop_eq_nil_of_le (by omega), Nat.add_sub_cancel_left,
      List.nil_append, List.drop_succ_cons, List.drop_zero]
    exact parseNanos_digits hn

/-- **A time that was written** is read by its parts. -/
theorem parsePaxTime_text {negative : Bool} {seconds nanos : ℕ} (hs : seconds ≤ u64Max)
    (hn : nanos < 1000000000) : parsePaxTime (text negative seconds nanos) = (do
      let magnitude ← okOr (i64Of seconds) (.limitExceeded "PAX timestamp exceeds i64")
      let (secs, nanos) ← signed negative magnitude nanos
      (Timestamp.new secs nanos).mapError fun _ => .malformed "invalid PAX timestamp") := by
  have hhead : ((text negative seconds nanos).head? == some (chr '-')) = negative := by
    unfold text
    cases negative with
    | true => rfl
    | false =>
      cases hdigits : decimalBytes seconds with
      | nil => exact absurd hdigits (decimalBytes_ne_nil seconds)
      | cons b rest =>
        have hb : isDigit b = true := isDigit_of_mem (n := seconds) (hdigits ▸ List.mem_cons_self)
        have hne : b ≠ chr '-' := ne_of_isDigit hb (by decide)
        simpa using hne
  have hbody : (if negative = true then (text negative seconds nanos).tail
      else text negative seconds nanos) = decimalBytes seconds ++ fraction nanos := by
    unfold text
    cases negative <;> rfl
  obtain ⟨hfirst, hsecond⟩ := splitPoint_text seconds hn
  rw [parsePaxTime_eq, hhead, hbody]
  unfold parseParts
  rw [hfirst, asciiDecimal_decimalBytes hs, ok_bind, hsecond]
  rfl

/-- A time is written as a sign, the magnitude of its seconds and nanoseconds. -/
theorem formatPaxTimestamp_eq (t : Timestamp) : formatPaxTimestamp t =
    if 0 ≤ t.secs.toInt then text false t.secs.toInt.natAbs t.nanos
    else if t.nanos = 0 then text true t.secs.toInt.natAbs 0
    else text true (t.secs.toInt + 1).natAbs (1000000000 - t.nanos) := by
  have hn := t.nanos_lt
  unfold formatPaxTimestamp text fraction
  by_cases hzero : t.nanos = 0
  · rw [if_pos hzero, signedDecimalBytes]
    by_cases hneg : t.secs.toInt < 0
    · rw [if_pos hneg, if_neg (by omega), if_pos hzero]
      simp
    · rw [if_neg hneg, if_pos (by omega)]
      simp [hzero]
  · rw [if_neg hzero]
    by_cases hneg : t.secs.toInt < 0
    · rw [if_pos hneg, if_neg (by omega), if_neg hzero, if_pos rfl, if_neg (by omega),
        Int.natAbs_neg]
      rfl
    · rw [if_neg hneg, if_pos (by omega), if_neg Bool.false_ne_true, if_neg hzero]
      rfl

theorem i64Of_eq_some {n : ℤ} (h0 : -2 ^ 63 ≤ n) (h : n < 2 ^ 63) : i64Of n = some (Int64.ofInt n) :=
  if_pos ⟨h0, h⟩

theorem i64Of_eq_none {n : ℤ} (h : 2 ^ 63 ≤ n) : i64Of n = none := if_neg (by omega)

/-- **A time comes back** if and only if its seconds are not the least `i64` without nanoseconds. -/
theorem pax_time_round_trip (t : Timestamp) : parsePaxTime (formatPaxTimestamp t) = .ok t ↔
    ¬ (t.secs = Int64.minValue ∧ t.nanos = 0) := by
  have hn := t.nanos_lt
  have hlow := t.secs.le_toInt
  have hhigh := t.secs.toInt_lt
  have hmax : (2 : ℕ) ^ 63 ≤ u64Max := by
    unfold u64Max
    norm_num
  have hnew : ∀ {secs : Int64} {nanos : ℕ}, secs = t.secs → nanos = t.nanos →
      (Timestamp.new secs nanos).mapError (fun _ => Error.malformed "invalid PAX timestamp") =
        .ok t := by
    rintro _ _ rfl rfl
    unfold Timestamp.new
    rw [dif_pos hn]
    rfl
  have hleast : t.secs = Int64.minValue ↔ t.secs.toInt = -2 ^ 63 := by
    rw [← Int64.toInt_inj]
    rfl
  rw [formatPaxTimestamp_eq]
  by_cases hnonneg : 0 ≤ t.secs.toInt
  · rw [if_pos hnonneg, parsePaxTime_text (by omega) hn, i64Of_eq_some (by omega) (by omega),
      okOr_some, ok_bind]
    have hback : Int64.ofInt (t.secs.toInt.natAbs : ℤ) = t.secs := by
      rw [Int.natAbs_of_nonneg hnonneg, Int64.ofInt_toInt]
    refine iff_of_true ?_ fun h => ?_
    · exact hnew hback rfl
    · have := hleast.mp h.1
      omega
  · rw [if_neg hnonneg]
    by_cases hzero : t.nanos = 0
    · rw [if_pos hzero, parsePaxTime_text (by omega) (by omega)]
      by_cases hmin : t.secs.toInt = -2 ^ 63
      · rw [i64Of_eq_none (by omega)]
        exact iff_of_false nofun fun h => h ⟨hleast.mpr hmin, hzero⟩
      · rw [i64Of_eq_some (by omega) (by omega), okOr_some, ok_bind]
        refine iff_of_true ?_ fun h => hmin (hleast.mp h.1)
        unfold signed
        rw [if_neg (by decide), if_pos rfl, Int64.toInt_ofInt_of_le (by omega) (by omega),
          i64Of_eq_some (by omega) (by omega), okOr_some, ok_bind]
        refine hnew ?_ hzero.symm
        rw [Int.ofNat_natAbs_of_nonpos (by omega), neg_neg, Int64.ofInt_toInt]
    · rw [if_neg hzero, parsePaxTime_text (by omega) (by omega),
        i64Of_eq_some (by omega) (by omega), okOr_some, ok_bind]
      refine iff_of_true ?_ fun h => hzero h.2
      have hnanos : (true && (1000000000 - t.nanos != 0)) = true := by
        simp
        omega
      unfold signed
      rw [if_pos hnanos, Int64.toInt_ofInt_of_le (by omega) (by omega),
        i64Of_eq_some (by omega) (by omega), Option.bind_some,
        Int64.toInt_ofInt_of_le (by omega) (by omega), i64Of_eq_some (by omega) (by omega), okOr_some,
        ok_bind]
      refine hnew ?_ (by omega)
      have hsecs : -((t.secs.toInt + 1).natAbs : ℤ) - 1 = t.secs.toInt := by omega
      rw [hsecs, Int64.ofInt_toInt]

/-- The time of the least seconds is not read back. -/
theorem pax_time_least : ∃ t : Timestamp, parsePaxTime (formatPaxTimestamp t) ≠ .ok t :=
  ⟨⟨Int64.minValue, 0, by decide⟩, by decide +kernel⟩

/-! ### Records -/

/-- The number of digits of a length. -/
def digits (n : ℕ) : ℕ := (decimalBytes n).length

theorem digits_mono {m n : ℕ} (h : m ≤ n) : digits m ≤ digits n := by
  unfold digits decimalBytes
  rw [List.length_map, List.length_map]
  exact length_numeral_mono (by decide) h

theorem digits_le {n : ℕ} (h : n ≤ u64Max) : digits n ≤ 20 := by
  unfold digits decimalBytes
  rw [List.length_map]
  refine length_numeral_le (by decide) (by decide) (h.trans_lt ?_)
  unfold u64Max
  norm_num

theorem digits_pos (n : ℕ) : 0 < digits n := List.length_pos_iff.mpr (decimalBytes_ne_nil n)

/-- **The search ends** at a length that counts its own digits: the candidates grow, and twenty digits
are enough. -/
theorem paxLength_spec {bodyLength : ℕ} (hmax : bodyLength + 20 ≤ u64Max) : ∀ (rounds : ℕ) {d : ℕ},
    d ≤ 20 → 20 < d + rounds → d ≤ digits (bodyLength + d) →
    ∃ length, paxLength bodyLength rounds (bodyLength + d) = .ok length ∧
      length = bodyLength + digits length ∧ length ≤ u64Max
  | 0, d, hd, hrounds, _ => by omega
  | rounds + 1, d, hd, hrounds, hgrows => by
    have hle : digits (bodyLength + d) ≤ 20 := digits_le (by omega)
    have hdigits : (decimalBytes (bodyLength + d)).length = digits (bodyLength + d) := rfl
    rw [paxLength, hdigits, checkedAdd_of_le (by omega)]
    dsimp only
    by_cases hfound : bodyLength + digits (bodyLength + d) = bodyLength + d
    · rw [if_pos hfound]
      exact ⟨_, rfl, hfound.symm, by omega⟩
    · rw [if_neg hfound]
      exact paxLength_spec hmax _ hle (by omega) (digits_mono (by omega))

/-- A key that a record can have. -/
def ValidKey (key : List Byte) : Prop := key ≠ [] ∧ ∀ b ∈ key, b ≠ chr '=' ∧ b ≠ 0x0A ∧ b ≠ 0

/-- The record of a pair, with its length in front. -/
def recordOf (length : ℕ) (key value : List Byte) : List Byte :=
  decimalBytes length ++ chr ' ' :: key ++ chr '=' :: value ++ [0x0A]

variable {key value : List Byte}

theorem length_recordOf (length : ℕ) (key value : List Byte) :
    (recordOf length key value).length = digits length + key.length + value.length + 3 := by
  unfold recordOf digits
  simp only [List.length_append, List.length_cons, List.length_nil]
  omega

/-- **A record is written**, and its prefix is its length. -/
theorem paxRecord_eq (hkey : ValidKey key) (hfits : key.length + value.length + 23 ≤ u64Max) :
    ∃ record, paxRecord key value = .ok record ∧ record = recordOf record.length key value ∧
      record.length ≤ u64Max := by
  obtain ⟨hne, hbytes⟩ := hkey
  have hvalid : ¬ (key.isEmpty = true ∨
      key.any (fun b => b == chr '=' || b == 0x0A || b == 0) = true) := by
    rintro (hempty | hany)
    · exact hne (List.isEmpty_iff.mp hempty)
    · obtain ⟨b, hb, hbad⟩ := List.any_eq_true.mp hany
      obtain ⟨h1, h2, h3⟩ := hbytes b hb
      simp [h1, h2, h3] at hbad
  have hbody : 1 + key.length + 1 + value.length + 1 + 20 ≤ u64Max := by omega
  obtain ⟨length, hlength, heq, hmax⟩ :=
    paxLength_spec hbody paxRounds (d := 1) (by omega) (by decide) (digits_pos _)
  have hwhole : (recordOf length key value).length = length := by
    rw [length_recordOf]
    omega
  refine ⟨recordOf length key value, ?_, by rw [hwhole], by rw [hwhole]; exact hmax⟩
  unfold paxRecord
  rw [if_neg hvalid, checkedAdd_of_le (by omega), Option.bind_some, checkedAdd_of_le (by omega),
    Option.bind_some, checkedAdd_of_le (by omega), Option.bind_some, checkedAdd_of_le (by omega),
    okOr_some, ok_bind, hlength, ok_bind]
  rfl

/-- **A record is split off**, whatever follows it. -/
theorem splitPaxRecord_recordOf {length : ℕ} (hkey : ValidKey key) (hmax : length ≤ u64Max)
    (hlength : (recordOf length key value).length = length) (rest : List Byte) :
    splitPaxRecord (recordOf length key value ++ rest) = .ok (key, value, rest) := by
  have hspace : isDigit (chr ' ') = false := by decide
  obtain ⟨hne, hbytes⟩ := hkey
  have hwhole := length_recordOf length key value
  have hfind : (recordOf length key value ++ rest).findIdx? (· == chr ' ') =
      some (decimalBytes length).length := by
    unfold recordOf
    simp only [List.append_assoc, List.cons_append]
    exact findIdx_decimalBytes hspace length _
  have hprefix : (recordOf length key value ++ rest).take (decimalBytes length).length =
      decimalBytes length := by
    unfold recordOf
    simp only [List.append_assoc, List.cons_append, List.take_left]
  have hbody : ((recordOf length key value ++ rest).take (length - 1)).drop
      ((decimalBytes length).length + 1) = key ++ chr '=' :: value := by
    have hcut : recordOf length key value ++ rest =
        (decimalBytes length ++ chr ' ' :: (key ++ chr '=' :: value)) ++ (0x0A :: rest) := by
      unfold recordOf
      simp only [List.append_assoc, List.cons_append, List.nil_append]
    have hlen : (decimalBytes length ++ chr ' ' :: (key ++ chr '=' :: value)).length =
        length - 1 := by
      unfold digits at hwhole
      simp only [List.length_append, List.length_cons]
      omega
    rw [hcut, ← hlen, List.take_left, List.drop_append, List.drop_eq_nil_of_le (by omega),
      Nat.add_sub_cancel_left]
    rfl
  have heq : (key ++ chr '=' :: value).findIdx? (· == chr '=') = some key.length := by
    have hnone : key.findIdx? (· == chr '=') = none :=
      List.findIdx?_eq_none_iff.mpr fun b hb => beq_false_of_ne (hbytes b hb).1
    rw [List.findIdx?_append, hnone, List.findIdx?_cons]
    simp
  have hrest : (recordOf length key value ++ rest).drop length = rest := by
    rw [List.drop_append, hlength, Nat.sub_self, List.drop_zero,
      List.drop_eq_nil_of_le hlength.le, List.nil_append]
  have hroom : ¬ (length < (decimalBytes length).length + 2 ∨
      (recordOf length key value ++ rest).length < length) := by
    have hdigits : (decimalBytes length).length = digits length := rfl
    rw [List.length_append]
    omega
  unfold splitPaxRecord
  rw [hfind, okOr_some, ok_bind, hprefix, asciiDecimal_decimalBytes hmax, ok_bind, if_neg hroom]
  dsimp only
  rw [hbody, heq, okOr_some, ok_bind, hrest, List.take_left, List.drop_append,
    List.drop_eq_nil_of_le (by omega), Nat.add_sub_cancel_left]
  rfl

/-! ### Lists of records -/

/-- Pairs that can be written: their keys are valid and their records fit into memory. -/
structure Writable (pairs : List (List Byte × List Byte)) : Prop where
  keys : ∀ p ∈ pairs, ValidKey p.1
  fits : ∀ p ∈ pairs, p.1.length + p.2.length + 23 ≤ u64Max

/-- The pairs applied one after the other. -/
def applyAll : List (List Byte × List Byte) → Overrides → Except Error Overrides
  | [], into => .ok into
  | (key, value) :: rest, into => do applyAll rest (← applyPax key value into)

variable {pairs : List (List Byte × List Byte)}

/-- **The records are split into the pairs**, and each is applied. -/
theorem parsePaxFrom_records : ∀ {pairs : List (List Byte × List Byte)} {rounds : ℕ}
    (into : Overrides), Writable pairs → ∃ bytes, paxRecords pairs = .ok bytes ∧
      (bytes.length ≤ rounds → parsePaxFrom rounds bytes into = applyAll pairs into)
  | [], rounds, into, _ => by
    refine ⟨[], rfl, fun _ => ?_⟩
    cases rounds with
    | zero => rfl
    | succ n => rfl
  | (key, value) :: pairs, rounds, into, ⟨hkeys, hfits⟩ => by
    obtain ⟨hkey, hkeys⟩ := List.forall_mem_cons.mp hkeys
    obtain ⟨hfit, hfits⟩ := List.forall_mem_cons.mp hfits
    obtain ⟨record, hrecord, heq, hmax⟩ := paxRecord_eq hkey hfit
    obtain ⟨bytes, hbytes, -⟩ := @parsePaxFrom_records pairs 0 into ⟨hkeys, hfits⟩
    refine ⟨record ++ bytes, ?_, fun hrounds => ?_⟩
    · rw [paxRecords, hrecord, ok_bind, hbytes]
      rfl
    · have hpos : 0 < record.length := by
        rw [heq, length_recordOf]
        omega
      rw [List.length_append] at hrounds
      obtain ⟨n, rfl⟩ : ∃ n, rounds = n + 1 := ⟨rounds - 1, by omega⟩
      have hne : ¬ (record ++ bytes).isEmpty = true := by
        rw [List.isEmpty_iff, List.append_eq_nil_iff, ← List.length_eq_zero_iff]
        omega
      have hsplit := splitPaxRecord_recordOf hkey hmax (congrArg List.length heq).symm bytes
      rw [← heq] at hsplit
      rw [parsePaxFrom, if_neg hne, hsplit, ok_bind, applyAll]
      dsimp only
      cases happly : applyPax key value into with
      | error e => rfl
      | ok after =>
        obtain ⟨bytes', hbytes', hrest⟩ := @parsePaxFrom_records pairs n after ⟨hkeys, hfits⟩
        obtain rfl := Except.ok.inj (hbytes.symm.trans hbytes')
        rw [ok_bind, ok_bind, hrest (by omega)]

/-! ### Values that are interpreted -/

/-- The keys whose values are numbers. -/
def numberKeys : List (List Byte) :=
  [bstr "size", bstr "uid", bstr "gid", bstr "GNU.sparse.size", bstr "GNU.sparse.realsize"]

/-- The keys whose values are times. -/
def timeKeys : List (List Byte) :=
  [bstr "mtime", bstr "atime", bstr "ctime", bstr "LIBARCHIVE.creationtime", bstr "SCHILY.birthtime"]

/-- The value can be interpreted, if its key asks for it. -/
structure Interpretable (p : List Byte × List Byte) : Prop where
  number : p.1 ∈ numberKeys → ∃ n, asciiDecimal p.2 = .ok n
  time : p.1 ∈ timeKeys → ∃ t, parsePaxTime p.2 = .ok t

theorem interpretable_other (hnumber : key ∉ numberKeys) (htime : key ∉ timeKeys) (value : List Byte) :
    Interpretable (key, value) := ⟨fun h => absurd h hnumber, fun h => absurd h htime⟩

theorem interpretable_number (hnumber : key ∈ numberKeys) (htime : key ∉ timeKeys) :
    Interpretable (key, value) ↔ ∃ n, asciiDecimal value = .ok n :=
  ⟨fun h => h.number hnumber, fun h => ⟨fun _ => h, fun h => absurd h htime⟩⟩

theorem interpretable_time (hnumber : key ∉ numberKeys) (htime : key ∈ timeKeys) :
    Interpretable (key, value) ↔ ∃ t, parsePaxTime value = .ok t :=
  ⟨fun h => h.time htime, fun h => ⟨fun h => absurd h hnumber, fun _ => h⟩⟩

/-- What a branch of `apply_pax` does with a value: it is kept as it is, or interpreted. -/
theorem interprets {α : Type} {x : Except Error α} {f : α → Overrides} {p : List (List Byte × List Byte)}
    (hf : ∀ a, (f a).pax = p) :
    ((∃ after, (do return f (← x)) = Except.ok after) ↔ ∃ a, x = .ok a) ∧
      ∀ after, (do return f (← x)) = Except.ok after → after.pax = p := by
  constructor
  · constructor
    · rintro ⟨after, h⟩
      obtain ⟨a, ha, -⟩ := bind_eq_ok.mp h
      exact ⟨a, ha⟩
    · rintro ⟨a, rfl⟩
      exact ⟨f a, rfl⟩
  · intro after h
    obtain ⟨a, -, h⟩ := bind_eq_ok.mp h
    cases h
    exact hf a

theorem asciiDecimalU64_ok : (∃ n, asciiDecimalU64 value = .ok n) ↔ ∃ n, asciiDecimal value = .ok n := by
  unfold asciiDecimalU64
  constructor
  · rintro ⟨n, h⟩
    obtain ⟨a, ha, -⟩ := bind_eq_ok.mp h
    exact ⟨a, ha⟩
  · rintro ⟨n, h⟩
    rw [h]
    exact ⟨_, rfl⟩

/-- **A pair is applied** if and only if its value can be interpreted, and is kept as it is. -/
theorem applyPax_ok (key value : List Byte) (into : Overrides) :
    ((∃ after, applyPax key value into = .ok after) ↔ Interpretable (key, value)) ∧
      ∀ after, applyPax key value into = .ok after → after.pax = into.pax ++ [(key, value)] := by
  have hkept : ∀ {o : Overrides} {p}, o.pax = p → key ∉ numberKeys → key ∉ timeKeys →
      ((∃ after, (Except.ok o : Except Error Overrides) = .ok after) ↔ Interpretable (key, value)) ∧
        ∀ after, (Except.ok o : Except Error Overrides) = .ok after → after.pax = p := by
    intro o p ho hnumber htime
    refine ⟨iff_of_true ⟨o, rfl⟩ (interpretable_other hnumber htime value), fun after h => ?_⟩
    rw [← Except.ok.inj h, ho]
  have hnumber : ∀ {f : UInt64 → Overrides} {p}, (∀ a, (f a).pax = p) → key ∈ numberKeys →
      key ∉ timeKeys →
      ((∃ after, (do return f (← asciiDecimalU64 value)) = Except.ok after) ↔
        Interpretable (key, value)) ∧
        ∀ after, (do return f (← asciiDecimalU64 value)) = Except.ok after → after.pax = p := by
    intro f p hf hin hout
    obtain ⟨hiff, hpax⟩ := interprets (x := asciiDecimalU64 value) hf
    exact ⟨hiff.trans (asciiDecimalU64_ok.trans (interpretable_number hin hout).symm), hpax⟩
  have htime : ∀ {f : Timestamp → Overrides} {p}, (∀ a, (f a).pax = p) → key ∉ numberKeys →
      key ∈ timeKeys →
      ((∃ after, (do return f (← parsePaxTime value)) = Except.ok after) ↔
        Interpretable (key, value)) ∧
        ∀ after, (do return f (← parsePaxTime value)) = Except.ok after → after.pax = p := by
    intro f p hf hout hin
    obtain ⟨hiff, hpax⟩ := interprets (x := parsePaxTime value) hf
    exact ⟨hiff.trans (interpretable_time hout hin).symm, hpax⟩
  unfold applyPax
  dsimp only
  by_cases h1 : key = bstr "path"
  · rw [if_pos h1]
    exact hkept rfl (by rw [h1]; decide) (by rw [h1]; decide)
  rw [if_neg h1]
  by_cases h2 : key = bstr "linkpath"
  · rw [if_pos h2]
    exact hkept rfl (by rw [h2]; decide) (by rw [h2]; decide)
  rw [if_neg h2]
  by_cases h3 : key = bstr "size"
  · rw [if_pos h3]
    exact hnumber (fun _ => rfl) (by rw [h3]; decide) (by rw [h3]; decide)
  rw [if_neg h3]
  by_cases h4 : key = bstr "uid"
  · rw [if_pos h4]
    exact hnumber (fun _ => rfl) (by rw [h4]; decide) (by rw [h4]; decide)
  rw [if_neg h4]
  by_cases h5 : key = bstr "gid"
  · rw [if_pos h5]
    exact hnumber (fun _ => rfl) (by rw [h5]; decide) (by rw [h5]; decide)
  rw [if_neg h5]
  by_cases h6 : key = bstr "mtime"
  · rw [if_pos h6]
    exact htime (fun _ => rfl) (by rw [h6]; decide) (by rw [h6]; decide)
  rw [if_neg h6]
  by_cases h7 : key = bstr "atime"
  · rw [if_pos h7]
    exact htime (fun _ => rfl) (by rw [h7]; decide) (by rw [h7]; decide)
  rw [if_neg h7]
  by_cases h8 : key = bstr "ctime"
  · rw [if_pos h8]
    exact htime (fun _ => rfl) (by rw [h8]; decide) (by rw [h8]; decide)
  rw [if_neg h8]
  by_cases h9 : key = bstr "LIBARCHIVE.creationtime" ∨ key = bstr "SCHILY.birthtime"
  · rw [if_pos h9]
    refine htime (fun _ => rfl) ?_ ?_
    · rcases h9 with h9 | h9 <;> rw [h9] <;> decide
    · rcases h9 with h9 | h9 <;> rw [h9] <;> decide
  rw [if_neg h9]
  by_cases h10 : key = bstr "uname"
  · rw [if_pos h10]
    exact hkept rfl (by rw [h10]; decide) (by rw [h10]; decide)
  rw [if_neg h10]
  by_cases h11 : key = bstr "gname"
  · rw [if_pos h11]
    exact hkept rfl (by rw [h11]; decide) (by rw [h11]; decide)
  rw [if_neg h11]
  by_cases h12 : key = bstr "GNU.sparse.size" ∨ key = bstr "GNU.sparse.realsize"
  · rw [if_pos h12]
    refine hnumber (fun _ => rfl) ?_ ?_
    · rcases h12 with h12 | h12 <;> rw [h12] <;> decide
    · rcases h12 with h12 | h12 <;> rw [h12] <;> decide
  rw [if_neg h12]
  push Not at h9 h12
  refine hkept rfl ?_ ?_
  · simp [numberKeys, h3, h4, h5, h12]
  · simp [timeKeys, h6, h7, h8, h9]

/-- All pairs are applied if and only if all of their values can be interpreted. -/
theorem applyAll_ok : ∀ (pairs : List (List Byte × List Byte)) (into : Overrides),
    ((∃ after, applyAll pairs into = .ok after) ↔ ∀ p ∈ pairs, Interpretable p) ∧
      ∀ after, applyAll pairs into = .ok after → after.pax = into.pax ++ pairs
  | [], into => by
    refine ⟨iff_of_true ⟨into, rfl⟩ (by simp), fun after h => ?_⟩
    rw [← Except.ok.inj h, List.append_nil]
  | (key, value) :: rest, into => by
    obtain ⟨hiff, hpax⟩ := applyPax_ok key value into
    rw [List.forall_mem_cons, ← hiff, applyAll]
    cases happly : applyPax key value into with
    | error e =>
      rw [error_bind]
      refine ⟨iff_of_false ?_ ?_, fun after h => ?_⟩
      · rintro ⟨after, h⟩
        cases h
      · rintro ⟨⟨next, h⟩, -⟩
        cases h
      · cases h
    | ok next =>
      obtain ⟨hrest, hall⟩ := applyAll_ok rest next
      rw [ok_bind]
      refine ⟨hrest.trans ⟨fun h => ⟨⟨next, rfl⟩, h⟩, fun h => h.2⟩, fun after h => ?_⟩
      rw [hall after h, hpax next happly, List.append_assoc]
      rfl

/-- **The records are exact**: every record is written with its own length in front, and the records of
a list are read back as the list, in order, if and only if the values that the reader interprets can be
interpreted. -/
theorem pax_records_exact (pairs : List (List Byte × List Byte)) (h : Writable pairs) :
    (∀ p ∈ pairs, ∃ record, paxRecord p.1 p.2 = .ok record ∧
      record = recordOf record.length p.1 p.2) ∧
    ∃ bytes, paxRecords pairs = .ok bytes ∧
      ((∃ after, parsePax bytes {} = .ok after) ↔ ∀ p ∈ pairs, Interpretable p) ∧
      ∀ after, parsePax bytes {} = .ok after → after.pax = pairs := by
  constructor
  · intro p hp
    obtain ⟨record, hrecord, heq, -⟩ := paxRecord_eq (h.keys p hp) (h.fits p hp)
    exact ⟨record, hrecord, heq⟩
  · obtain ⟨bytes, hbytes, -⟩ := @parsePaxFrom_records pairs 0 {} h
    obtain ⟨bytes', hbytes', hparse⟩ := @parsePaxFrom_records pairs bytes.length {} h
    obtain rfl := Except.ok.inj (hbytes.symm.trans hbytes')
    obtain ⟨hiff, hpax⟩ := applyAll_ok pairs {}
    refine ⟨bytes, hbytes, ?_, ?_⟩
    · unfold parsePax
      rw [hparse le_rfl]
      exact hiff
    · unfold parsePax
      rw [hparse le_rfl]
      exact hpax

/-- Two records; the value of the first one holds what separates records. -/
theorem pax_records_exact_two : (∀ p ∈ [(bstr "comment", bstr "a=b\n"), (bstr "uid", bstr "7")],
      ∃ record, paxRecord p.1 p.2 = .ok record ∧ record = recordOf record.length p.1 p.2) ∧
    ∃ bytes, paxRecords [(bstr "comment", bstr "a=b\n"), (bstr "uid", bstr "7")] = .ok bytes ∧
      ((∃ after, parsePax bytes {} = .ok after) ↔
        ∀ p ∈ [(bstr "comment", bstr "a=b\n"), (bstr "uid", bstr "7")], Interpretable p) ∧
      ∀ after, parsePax bytes {} = .ok after →
        after.pax = [(bstr "comment", bstr "a=b\n"), (bstr "uid", bstr "7")] :=
  pax_records_exact [(bstr "comment", bstr "a=b\n"), (bstr "uid", bstr "7")]
    ⟨by unfold ValidKey; decide +kernel, by
      unfold u64Max
      decide⟩

/-- A value that the reader interprets can be written, but not be read. -/
theorem pax_record_refused : ∃ bytes, ValidKey (bstr "size") ∧
    paxRecords [(bstr "size", bstr "x")] = .ok bytes ∧
      ∀ after, parsePax bytes {} ≠ .ok after :=
  ⟨bstr "9 size=x\n", by unfold ValidKey; decide +kernel, by decide +kernel, by
    intro after
    have : parsePax (bstr "9 size=x\n") {} = .error (.malformed "invalid decimal digit") := by
      decide +kernel
    rw [this]
    nofun⟩

end LibarchiveOxide.Tar.PaxRoundTrip
