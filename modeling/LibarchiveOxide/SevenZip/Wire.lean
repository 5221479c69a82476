import LibarchiveOxide.Core.Failure
import LibarchiveOxide.Core.Metadata
import LibarchiveOxide.Lib.Parser
import LibarchiveOxide.Lib.Radix

/-! # The bytes of a 7z header

A bounds-checked cursor over the header, with the little-endian words, the variable-length numbers
and the bit vectors of the header grammar, and their writers. Numbers are `u64` values: the shifted
parts that the source joins with `|` never overlap, so they are added here. -/

namespace LibarchiveOxide.SevenZip.Wire

open Core.Failure Lib

export LibarchiveOxide.Lib.LittleEndian (leValue leBytes)

/-- Failures of the header parser. -/
inductive HeaderError where
  | malformed (context : String)
  | unsupported (context : String)
  | limitExceeded (context : String)
deriving DecidableEq

/-- The cursor: how many bytes were consumed, and those that were not. -/
structure ByteReader where
  pos : ℕ := 0
  rest : List Byte
deriving DecidableEq

/-- A parser of header bytes. -/
abbrev Parse := StateT ByteReader (Except HeaderError)

/-- A failure of kind `Malformed`. -/
def malformed {α : Type} (context : String) : Parse α := throw (.malformed context)

/-- A failure of kind `Unsupported`. -/
def unsupported {α : Type} (context : String) : Parse α := throw (.unsupported context)

/-- `ByteReader::u8`. -/
def u8 : Parse Byte := fun r =>
  match r.rest with
  | [] => .error (.malformed "7z: unexpected end of header")
  | b :: rest => .ok (b, ⟨r.pos + 1, rest⟩)

/-- `ByteReader::remaining`. -/
def remaining : Parse ℕ := fun r => .ok (r.rest.length, r)

/-- `ByteReader::bytes`. -/
def bytes (n : ℕ) : Parse (List Byte) := fun r =>
  if u64Max < r.pos + n then .error (.malformed "7z: header length overflow")
  else if r.rest.length < n then .error (.malformed "7z: truncated header field")
  else .ok (r.rest.take n, ⟨r.pos + n, r.rest.drop n⟩)

/-- `ByteReader::u16`. -/
def u16 : Parse ℕ := do
  let b ← bytes 2
  pure (leValue b)

/-- `ByteReader::u32`. -/
def u32 : Parse ℕ := do
  let b ← bytes 4
  pure (leValue b)

/-- `ByteReader::u64`. -/
def u64 : Parse ℕ := do
  let b ← bytes 8
  pure (leValue b)

/-- The loop of `ByteReader::number`, from its round `i` on, with the rounds that are left. -/
def numberLoop (first : ℕ) : ℕ → ℕ → ℕ → ℕ → Parse ℕ
  | 0, _, _, value => pure value
  | n + 1, i, mask, value =>
    if first / mask % 2 = 0 then pure (value + first % mask * 2 ^ (8 * i))
    else do
      let b ← u8
      numberLoop first n (i + 1) (mask / 2) (value + b.toNat * 2 ^ (8 * i))

/-- `ByteReader::number`. -/
def number : Parse ℕ := do
  let first ← u8
  numberLoop first.toNat 8 0 0x80 0

/-- The loop of `ByteReader::bit_vector`. -/
def bitLoop : ℕ → ℕ → ℕ → Parse (List Bool)
  | 0, _, _ => pure []
  | n + 1, cur, mask => do
    let (cur, mask) ← if mask = 0 then (do
        let b ← u8
        pure (b.toNat, 0x80))
      else pure (cur, mask)
    let bits ← bitLoop n cur (mask / 2)
    pure (decide (cur / mask % 2 = 1) :: bits)

/-- `ByteReader::bit_vector`. -/
def bitVector (n : ℕ) : Parse (List Bool) := bitLoop n 0 0

/-! ### Writers -/

/-- The loop of `write_number`, from its round `i` on, with the rounds that are left: the first byte
and the number of bytes that follow it. -/
def writeNumberLoop (value : ℕ) : ℕ → ℕ → ℕ → ℕ → ℕ × ℕ
  | 0, i, _, first => (first, i)
  | n + 1, i, mask, first =>
    if value < 2 ^ (7 * (i + 1)) then (first + value / 2 ^ (8 * i) % 256, i)
    else writeNumberLoop value n (i + 1) (mask / 2) (first + mask)

/-- `write_number`. -/
def writeNumber (value : ℕ) : List Byte :=
  let (first, i) := writeNumberLoop value 8 0 0x80 0
  UInt8.ofNat first :: leBytes i value

/-- The loop of `write_bit_vector`. -/
def writeBitLoop : List Bool → ℕ → ℕ → List Byte
  | [], cur, mask => if mask ≠ 0x80 then [UInt8.ofNat cur] else []
  | bit :: bits, cur, mask =>
    let cur := if bit then cur + mask else cur
    if mask / 2 = 0 then UInt8.ofNat cur :: writeBitLoop bits 0 0x80
    else writeBitLoop bits cur (mask / 2)

/-- `write_bit_vector`. -/
def writeBitVector (bits : List Bool) : List Byte := writeBitLoop bits 0 0x80

end LibarchiveOxide.SevenZip.Wire

/-! # Names and times

Names are kept as UTF-8 in metadata and as UTF-16LE in the header. Both conversions are lossy where
their input is not well formed, as those of the standard library are. Code points are numbers here;
`Scalar` are those a `char` can have. -/

namespace LibarchiveOxide.SevenZip.Names

open Core.Failure Core.Metadata

/-- `char::REPLACEMENT_CHARACTER`. -/
def replacement : ℕ := 0xFFFD

/-! ### UTF-8 -/

/-- The UTF-8 bytes of a code point. -/
def utf8Encode (c : ℕ) : List Byte :=
  if c < 0x80 then [UInt8.ofNat c]
  else if c < 0x800 then [UInt8.ofNat (0xC0 + c / 64), UInt8.ofNat (0x80 + c % 64)]
  else if c < 0x10000 then
    [UInt8.ofNat (0xE0 + c / 4096), UInt8.ofNat (0x80 + c / 64 % 64), UInt8.ofNat (0x80 + c % 64)]
  else
    [UInt8.ofNat (0xF0 + c / 262144), UInt8.ofNat (0x80 + c / 4096 % 64),
      UInt8.ofNat (0x80 + c / 64 % 64), UInt8.ofNat (0x80 + c % 64)]

/-! ### UTF-16 -/

/-- `char::decode_utf16` with replacement characters for the surrogates that are not in a pair. -/
def utf16Lossy : List ℕ → List ℕ
  | [] => []
  | u :: rest =>
    if u < 0xD800 ∨ 0xDFFF < u then u :: utf16Lossy rest
    else if 0xDC00 ≤ u then replacement :: utf16Lossy rest
    else
      match rest with
      | v :: rest1 =>
        if 0xDC00 ≤ v ∧ v ≤ 0xDFFF then
          (0x10000 + (u - 0xD800) * 1024 + (v - 0xDC00)) :: utf16Lossy rest1
        else replacement :: utf16Lossy (v :: rest1)
      | [] => [replacement]

/-- The little-endian code units of bytes; an odd byte at the end is left out. -/
def unitsOf : List Byte → List ℕ
  | lo :: hi :: rest => (lo.toNat + 256 * hi.toNat) :: unitsOf rest
  | _ => []

/-- `utf16le_to_bytes`. -/
def utf16leToBytes (raw : List Byte) : List Byte := (utf16Lossy (unitsOf raw)).flatMap utf8Encode

/-! ### Times -/

/-- `FILETIME_EPOCH_DIFF`. -/
def filetimeEpochDiff : ℤ := 11644473600

/-- The largest `i64`, as an integer. -/
def maxI64 : ℤ := 2 ^ 63 - 1

/-- An integer brought into the range of `i64`, as the saturating operations do. -/
def saturate (n : ℤ) : ℤ := max (-2 ^ 63) (min n maxI64)

/-- `timestamp_to_filetime`. -/
def timestampToFiletime (t : Timestamp) : ℕ :=
  let secs := saturate (t.secs.toInt + filetimeEpochDiff)
  let ticks := saturate (saturate (secs * 10000000) + (t.nanos / 100 : ℕ))
  ticks.toNat

/-- `filetime_to_timestamp`. -/
def filetimeToTimestamp (ft : ℕ) : Timestamp :=
  let ticks : ℕ := min ft (2 ^ 63 - 1)
  ⟨Int64.ofInt ((ticks / 10000000 : ℕ) - filetimeEpochDiff), ticks % 10000000 * 100, by omega⟩

end LibarchiveOxide.SevenZip.Names
