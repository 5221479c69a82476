import LibarchiveOxide.Core.Failure
import LibarchiveOxide.Lib.Radix
import LibarchiveOxide.Lib.Slice
import LibarchiveOxide.Stream.Event

/-! # The fields of an ISO 9660 image

Numbers are stored twice, with the least significant byte first and with the most significant byte
first, and a reader takes them only if both agree. -/

namespace LibarchiveOxide.Iso.Fields

open Core.Failure Core.Metadata Lib.LittleEndian Lib.Slice Stream.Event

def SECTOR : ℕ := 2048
def DESCRIPTOR_START : ℕ := 16
def DIRECTORY_RECORD_BASE : ℕ := 33
def DIRECTORY_FLAG : Byte := 0x02

/-- `u32::MAX`. -/
def u32Max : ℕ := 2 ^ 32 - 1

/-- `iso_error`. -/
def isoError (kind : ErrorKind) (context : String) : StreamError :=
  .archive (.inFormat "iso9660" kind context)

/-! ### Numbers -/

/-- A number of `n` bytes in both orders. -/
def bothEndian (n value : ℕ) : List Byte := leBytes n value ++ (leBytes n value).reverse

/-- `both_endian_u32`. -/
def bothEndianU32 (value : ℕ) : List Byte := bothEndian 4 value

/-- `both_endian_u16`. -/
def bothEndianU16 (value : ℕ) : List Byte := bothEndian 2 value

/-- A number of `n` bytes in both orders at an offset. -/
def isoNumber (n : ℕ) (truncated disagree : String) (bytes : List Byte) (offset : ℕ) :
    Except StreamError ℕ :=
  if bytes.length < offset + n + n then .error (isoError .malformed truncated)
  else
    let little := leValue (window bytes offset (offset + n))
    if little ≠ leValue (window bytes (offset + n) (offset + n + n)).reverse then
      .error (isoError .malformed disagree)
    else .ok little

/-- `iso_u16`. -/
def isoU16 (bytes : List Byte) (offset : ℕ) : Except StreamError ℕ :=
  isoNumber 2 "truncated both-endian u16" "both-endian u16 values disagree" bytes offset

/-- `iso_u32`. -/
def isoU32 (bytes : List Byte) (offset : ℕ) : Except StreamError ℕ :=
  isoNumber 4 "truncated both-endian u32" "both-endian u32 values disagree" bytes offset

variable {n value : ℕ}

@[simp] theorem length_bothEndian : (bothEndian n value).length = n + n := by
  simp [bothEndian]

/-- `timestamp_from_parts`. -/
def timestampFromParts (year : ℤ) (month day hour minute second : ℕ) (offsetQuarters : ℤ)
    (nanos : ℕ) : Option Timestamp :=
  if ¬ (1 ≤ month ∧ month ≤ 12) ∨ ¬ (1 ≤ day ∧ day ≤ 31) ∨ 23 < hour ∨ 59 < minute ∨ 60 < second ∨
      ¬ (-48 ≤ offsetQuarters ∧ offsetQuarters ≤ 52) then none
  else do
    let adjustedYear := year - if month ≤ 2 then 1 else 0
    let era := adjustedYear / 400
    let yearOfEra := adjustedYear - era * 400
    let adjustedMonth : ℤ := month + if 2 < month then -3 else 9
    let dayOfYear := (153 * adjustedMonth + 2) / 5 + day - 1
    let dayOfEra := yearOfEra * 365 + yearOfEra / 4 - yearOfEra / 100 + dayOfYear
    let days := era * 146097 + dayOfEra - 719468
    let secs ← i64Of (days * 86400 + hour * 3600 + minute * 60 + second - offsetQuarters * 15 * 60)
    (Timestamp.new secs nanos).toOption

/-- `i8::from_ne_bytes`. -/
def i8Of (b : Byte) : ℤ := if b.toNat < 128 then b.toNat else (b.toNat : ℤ) - 256

/-- `short_iso_time`. -/
def shortIsoTime : List Byte → Option Timestamp
  | [year, month, day, hour, minute, second, offset] =>
    timestampFromParts (year.toNat + 1900) month.toNat day.toNat hour.toNat minute.toNat
      second.toNat (i8Of offset) 0
  | _ => none

/-- A decimal number as `str::parse::<u32>` reads it: digits behind an optional plus sign. -/
def digits (text : List Byte) : Option ℕ :=
  let body := if text.head? = some (chr '+') ∧ text.length ≠ 1 then text.tail else text
  if body = [] then none
  else body.foldlM (fun value b =>
    if chr '0' ≤ b ∧ b ≤ chr '9' then
      let next := value * 10 + (b - chr '0').toNat
      if next ≤ u32Max then some next else none
    else none) 0

/-- `u8::try_from`. -/
def u8Of (n : ℕ) : Option ℕ := if n < 256 then some n else none

/-- `long_iso_time`. -/
def longIsoTime (raw : List Byte) : Option Timestamp :=
  if raw.length ≠ 17 then none
  else do
    let year ← digits (window raw 0 4)
    let month ← (digits (window raw 4 6)).bind u8Of
    let day ← (digits (window raw 6 8)).bind u8Of
    let hour ← (digits (window raw 8 10)).bind u8Of
    let minute ← (digits (window raw 10 12)).bind u8Of
    let second ← (digits (window raw 12 14)).bind u8Of
    let hundredths ← digits (window raw 14 16)
    timestampFromParts year month day hour minute second (i8Of (raw.getD 16 0)) (hundredths * 10000000)

/-- `timestamp_parts`. -/
def timestampParts (t : Timestamp) : Option (ℤ × ℕ × ℕ × ℕ × ℕ × ℕ) :=
  let days := t.secs.toInt / 86400
  let seconds := t.secs.toInt % 86400
  let shifted := days + 719468
  let era := shifted / 146097
  let dayOfEra := shifted - era * 146097
  let yearOfEra := (dayOfEra - dayOfEra / 1460 + dayOfEra / 36524 - dayOfEra / 146096) / 365
  let dayOfYear := dayOfEra - (365 * yearOfEra + yearOfEra / 4 - yearOfEra / 100)
  let monthPrime := (5 * dayOfYear + 2) / 153
  let day := dayOfYear - (153 * monthPrime + 2) / 5 + 1
  let month := monthPrime + if monthPrime < 10 then 3 else -9
  let year := yearOfEra + era * 400 + if month ≤ 2 then 1 else 0
  if -2 ^ 31 ≤ year ∧ year < 2 ^ 31 then
    some (year, month.toNat, day.toNat, (seconds / 3600).toNat, (seconds % 3600 / 60).toNat,
      (seconds % 60).toNat)
  else none

/-- The `w` decimal digits of a number. -/
def decimal : ℕ → ℕ → List Byte
  | 0, _ => []
  | w + 1, n => decimal w (n / 10) ++ [chr '0' + UInt8.ofNat (n % 10)]

/-- `long_timestamp`. -/
def longTimestamp (t : Timestamp) : Option (List Byte) := do
  let (year, month, day, hour, minute, second) ← timestampParts t
  if 0 ≤ year ∧ year ≤ 9999 then
    some (decimal 4 year.toNat ++ decimal 2 month ++ decimal 2 day ++ decimal 2 hour ++
      decimal 2 minute ++ decimal 2 second ++ decimal 2 (t.nanos / 10000000) ++ [0])
  else none

/-- `short_timestamp`. -/
def shortTimestamp (t : Timestamp) : Option (List Byte) := do
  let (year, month, day, hour, minute, second) ← timestampParts t
  if 1900 ≤ year ∧ year ≤ 2155 then
    some ([(year - 1900).toNat, month, day, hour, minute, second, 0].map UInt8.ofNat)
  else none

end LibarchiveOxide.Iso.Fields

/-! # The names of an ISO image

The primary tree has names of capital letters, digits, underscores and dots; the Joliet tree has names
in UTF-16, for which bytes that are not UTF-8 are replaced. -/

namespace LibarchiveOxide.Iso.Names

open Core.Failure Core.Budget Core.Metadata Stream.Event Iso.Fields

/-! ### Identifiers -/

def isUpper (b : Byte) : Bool := chr 'A' ≤ b && b ≤ chr 'Z'

def isLower (b : Byte) : Bool := chr 'a' ≤ b && b ≤ chr 'z'

def isDigit (b : Byte) : Bool := chr '0' ≤ b && b ≤ chr '9'

/-- A byte of a name in the primary tree. -/
def primaryByte (b : Byte) : Byte :=
  if isLower b then b - 32
  else if isUpper b || isDigit b || b == chr '_' || b == chr '.' then b
  else chr '_'

/-- `primary_name`. -/
def primaryName (name : List Byte) : List Byte :=
  if name = [] then [chr '_'] else name.map primaryByte

/-- `char::REPLACEMENT_CHARACTER`. -/
def replacement : ℕ := 0xFFFD

/-- The bytes that may follow the first byte of a sequence of three or four. -/
def secondRange (b0 : Byte) : Byte × Byte :=
  if b0 = 0xE0 then (0xA0, 0xBF)
  else if b0 = 0xED then (0x80, 0x9F)
  else if b0 = 0xF0 then (0x90, 0xBF)
  else if b0 = 0xF4 then (0x80, 0x8F)
  else (0x80, 0xBF)

/-- `String::from_utf8_lossy`: the code points, with one replacement for each longest start of a
sequence that goes wrong. -/
def lossy : List Byte → List ℕ
  | [] => []
  | [b0] => if b0 < 0x80 then [b0.toNat] else [replacement]
  | b0 :: b1 :: rest =>
    if b0 < 0x80 then b0.toNat :: lossy (b1 :: rest)
    else if b0 < 0xC2 ∨ 0xF4 < b0 then replacement :: lossy (b1 :: rest)
    else if b0 < 0xE0 then
      if isCont b1 then ((b0.toNat - 0xC0) * 64 + (b1.toNat - 0x80)) :: lossy rest
      else replacement :: lossy (b1 :: rest)
    else if b1 < (secondRange b0).1 ∨ (secondRange b0).2 < b1 then replacement :: lossy (b1 :: rest)
    else
      match rest with
      | [] => [replacement]
      | [b2] =>
        if ¬ isCont b2 then replacement :: lossy [b2]
        else if b0 < 0xF0 then
          [(b0.toNat - 0xE0) * 4096 + (b1.toNat - 0x80) * 64 + (b2.toNat - 0x80)]
        else [replacement]
      | b2 :: b3 :: rest3 =>
        if ¬ isCont b2 then replacement :: lossy (b2 :: b3 :: rest3)
        else if b0 < 0xF0 then
          ((b0.toNat - 0xE0) * 4096 + (b1.toNat - 0x80) * 64 + (b2.toNat - 0x80)) ::
            lossy (b3 :: rest3)
        else if ¬ isCont b3 then replacement :: lossy (b3 :: rest3)
        else
          ((b0.toNat - 0xF0) * 262144 + (b1.toNat - 0x80) * 4096 + (b2.toNat - 0x80) * 64 +
            (b3.toNat - 0x80)) :: lossy rest3

/-- `char::encode_utf16`. -/
def utf16 (c : ℕ) : List ℕ :=
  if c < 0x10000 then [c] else [0xD800 + (c - 0x10000) / 1024, 0xDC00 + (c - 0x10000) % 1024]

/-- A unit that Joliet does not allow is an underscore. -/
def jolietUnit (unit : ℕ) : ℕ :=
  if unit < 32 ∨ unit ∈ [(chr '*').toNat, (chr '/').toNat, (chr ':').toNat, (chr ';').toNat,
      (chr '?').toNat, (chr '\\').toNat] then (chr '_').toNat
  else unit

/-- `joliet_name`. -/
def jolietName (name : List Byte) : List Byte :=
  ((lossy name).flatMap utf16).flatMap fun unit =>
    [UInt8.ofNat (jolietUnit unit / 256), UInt8.ofNat (jolietUnit unit)]

/-! ### Paths -/

/-- `normalize_path`. -/
def normalizePath (path : ArchivePath) (limits : Limits) :
    Except StreamError (List (List Byte)) := do
  let bytes := path.raw
  if bytes = [] ∨ bytes.head? = some (chr '/') ∨ 0 ∈ bytes then
    throw (isoError .protocol "ISO path must be a non-empty relative byte path")
  if exceeds bytes.length limits.pathBytes then
    throw (isoError .limit "ISO path exceeds configured limit")
  let components := (bytes.splitOn (chr '/')).filter (· ≠ [])
  if components = [] ∨ components.any (fun c => c = bstr "." ∨ c = bstr "..") then
    throw (isoError .protocol "ISO path contains an invalid component")
  if exceeds components.length limits.nesting then
    throw (isoError .limit "ISO path nesting exceeds configured limit")
  return components

/-- `validate_identifier`. -/
def validateIdentifier (identifier : List Byte) : Except StreamError Unit :=
  if 255 < identifier.length then
    .error (isoError .unsupported "ISO identifier exceeds one-byte length")
  else .ok ()

end LibarchiveOxide.Iso.Names
