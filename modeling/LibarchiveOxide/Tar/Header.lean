import LibarchiveOxide.Core.Metadata
import LibarchiveOxide.Lib.Radix
import LibarchiveOxide.Lib.Slice

/-! # The ustar header block

Field ranges, numeric fields (octal ASCII or GNU base-256), the checksum, and the two builders of
extension headers. Functions that fill a mutable slice in the source return the bytes they leave in
it. -/

namespace LibarchiveOxide.Tar.Header

open Core.Failure Core.Metadata Lib.Slice Lib.Radix

/-- tar block size. -/
def BLOCK : ℕ := 512

/-! ### Field ranges -/

def fName : ℕ × ℕ := (0, 100)
def fMode : ℕ × ℕ := (100, 108)
def fUid : ℕ × ℕ := (108, 116)
def fGid : ℕ × ℕ := (116, 124)
def fSize : ℕ × ℕ := (124, 136)
def fMtime : ℕ × ℕ := (136, 148)
def fChksum : ℕ × ℕ := (148, 156)
def oTypeflag : ℕ := 156
def fLinkname : ℕ × ℕ := (157, 257)
def fMagic : ℕ × ℕ := (257, 263)
def fUname : ℕ × ℕ := (265, 297)
def fGname : ℕ × ℕ := (297, 329)
def fDevmajor : ℕ × ℕ := (329, 337)
def fDevminor : ℕ × ℕ := (337, 345)
def fPrefix : ℕ × ℕ := (345, 500)

/-- A fixed field of the header. -/
def field (hdr : List Byte) (r : ℕ × ℕ) : List Byte := window hdr r.1 r.2

/-- The byte at an offset of the header. -/
def byteAt (hdr : List Byte) (i : ℕ) : Byte := hdr.getD i 0

/-- The bytes up to the first NUL. -/
def cstr (f : List Byte) : List Byte := f.takeWhile (· != 0)

/-- `prefix` + "/" + `name`. -/
def joinPrefixName (pre name : List Byte) : List Byte := pre ++ chr '/' :: name

/-- Kind of a typeflag; unknown flags are regular files. -/
def kindFromTypeflag (tf : Byte) : EntryKind :=
  if tf = chr '5' then .dir
  else if tf = chr '1' then .hardlink
  else if tf = chr '2' then .symlink
  else if tf = chr '3' then .char
  else if tf = chr '4' then .block
  else if tf = chr '6' then .fifo
  else .file

/-- Typeflag of a kind. -/
def typeflagFor : EntryKind → Except Error Byte
  | .file => .ok (chr '0')
  | .dir => .ok (chr '5')
  | .symlink => .ok (chr '2')
  | .hardlink => .ok (chr '1')
  | .char => .ok (chr '3')
  | .block => .ok (chr '4')
  | .fifo => .ok (chr '6')
  | .socket => .error (.unsupported "tar: unsupported entry kind for write")

/-! ### Numeric fields, read -/

/-- The loop of the base-256 branch. -/
def parseBase256From (val : ℕ) : List Byte → Except Error ℕ
  | [] => .ok val
  | b :: rest =>
    match (checkedMul val 256).bind (checkedAdd · b.toNat) with
    | some v => parseBase256From v rest
    | none => .error (.malformed "base-256 numeric overflow")

/-- The loop of the octal branch; `seen` is set by the first digit. -/
def parseOctalFrom (val : ℕ) (seen : Bool) : List Byte → Except Error ℕ
  | [] => .ok val
  | b :: rest =>
    if b = chr ' ' ∨ b = 0 then
      if seen then .ok val else parseOctalFrom val seen rest
    else if chr '0' ≤ b ∧ b ≤ chr '7' then
      match (checkedMul val 8).bind (checkedAdd · (b - chr '0').toNat) with
      | some v => parseOctalFrom v true rest
      | none => .error (.malformed "octal numeric overflow")
    else .error (.malformed "invalid octal digit")

/-- A numeric field: base-256 if the high bit of its first byte is set, else octal ASCII. -/
def parseNumeric (f : List Byte) : Except Error ℕ :=
  match f with
  | [] => .ok 0
  | first :: rest =>
    if first &&& 0x80 ≠ 0 then parseBase256From (first &&& 0x7f).toNat rest
    else parseOctalFrom 0 false f

/-- `usize_of`: every `u64` is a `usize` on the targets modelled. -/
def usizeOf (v : ℕ) : Except Error ℕ :=
  if v ≤ u64Max then .ok v else .error (.limitExceeded "size exceeds usize")

/-- Rounds a byte length up to the next block boundary. -/
def roundUp (size : ℕ) : Except Error ℕ := do
  let size ← usizeOf size
  let sum ← okOr (checkedAdd size (BLOCK - 1)) (.malformed "size overflow")
  okOr (checkedMul (sum / BLOCK) BLOCK) (.malformed "size overflow")

/-! ### The checksum -/

/-- The header as the checksum sees it: its own field read as spaces. -/
def checksumView (hdr : List Byte) : List Byte :=
  hdr.zipIdx.map fun (b, i) => if fChksum.1 ≤ i ∧ i < fChksum.2 then chr ' ' else b

/-- The value of a byte read as an `i8`. -/
def signedByte (b : Byte) : ℤ := if b.toNat < 128 then b.toNat else (b.toNat : ℤ) - 256

/-- Verifies the header checksum, unsigned or signed. -/
def verifyChecksum (hdr : List Byte) : Except Error Unit := do
  let stored ← parseNumeric (field hdr fChksum)
  let unsigned := ((checksumView hdr).map UInt8.toNat).sum
  let signed := ((checksumView hdr).map signedByte).sum
  if stored = unsigned ∨ signed = (stored : ℤ) then .ok ()
  else .error (.malformed "header checksum mismatch")

/-! ### Numeric fields, written -/

/-- Whether `val` fits in `digits` octal digits. -/
def fitsOctal (val digits : ℕ) : Bool := decide (22 ≤ digits) || decide (val < 2 ^ (3 * digits))

/-- `u64::to_be_bytes`. -/
def beBytes64 (val : ℕ) : List Byte := (digitsBE 256 8 val).map UInt8.ofNat

/-- The GNU base-256 encoding of `val` in a field of `n` bytes. -/
def putBase256 (n val : ℕ) : Except Error (List Byte) :=
  let capacity := n - 1
  let bytes := beBytes64 val
  if capacity < 8 ∧ (bytes.take (8 - capacity)).any (· != 0) then
    .error (.unsupported "tar: value too large for numeric field")
  else
    let take := min capacity 8
    .ok (splice (splice (List.replicate n 0) 0 [0x80]) (n - take) (bytes.drop (8 - take)))

/-- A numeric field of `n` bytes: zero-padded octal and a NUL if the value fits, else base-256. -/
def putOctal (n val : ℕ) : Except Error (List Byte) :=
  if fitsOctal val (n - 1) then
    .ok ((digitsBE 8 (n - 1) val).map (fun d => chr '0' + UInt8.ofNat d) ++ [0])
  else putBase256 n val

/-- Writes a numeric field into its range of the header. -/
def putField (h : List Byte) (r : ℕ × ℕ) (val : ℕ) : Except Error (List Byte) := do
  return splice h r.1 (← putOctal (r.2 - r.1) val)

/-- Computes and writes the header checksum: six octal digits, a NUL and a space. -/
def writeChecksum (h : List Byte) : Except Error (List Byte) := do
  let h := splice h fChksum.1 (List.replicate 8 (chr ' '))
  let sum := (h.map UInt8.toNat).sum
  let h ← putField h (fChksum.1, fChksum.2 - 1) sum
  return splice h (fChksum.2 - 1) [chr ' ']

/-- `copy_field`: the value cut to the field, the rest zero. -/
def copyField (n : ℕ) (value : List Byte) : List Byte :=
  splice (List.replicate n 0) 0 (value.take (min n value.length))

/-! ### Blocks -/

/-- The zero block the headers are built in. -/
def zeroBlock : List Byte := List.replicate BLOCK 0

/-- The magic and version bytes. -/
def putMagic (h : List Byte) : List Byte :=
  splice (splice (splice h fMagic.1 (bstr "ustar")) 263 [chr '0']) 264 [chr '0']

/-- A header without a link name: name, mode, owner, size, time, typeflag, magic and checksum. The
extension headers and the entry headers are instances. -/
def buildHeader (name : List Byte) (mode uid gid size mtime : ℕ) (typeflag : Byte)
    (link : List Byte) : Except Error (List Byte) := do
  let h := splice zeroBlock 0 name
  let h ← putField h fMode mode
  let h ← putField h fUid uid
  let h ← putField h fGid gid
  let h ← putField h fSize size
  let h ← putField h fMtime mtime
  let h := splice h oTypeflag [typeflag]
  let h := splice h fLinkname.1 link
  writeChecksum (putMagic h)

end LibarchiveOxide.Tar.Header

/-! # PAX records, timestamps and sparse maps

A PAX record is `"LEN KEY=VALUE\n"`, where `LEN` is the decimal length of the whole record, its own
digits included. `applyPax` keeps every record as a raw pair and interprets the known keys. -/

namespace LibarchiveOxide.Tar.Pax

open Core.Failure Core.Metadata Lib.Radix Tar.Header

/-- What a preceding header imposes on the next entry, or a global one on all entries. -/
structure Overrides where
  path : Option (List Byte) := none
  linkpath : Option (List Byte) := none
  size : Option UInt64 := none
  mtime : Option Timestamp := none
  atime : Option Timestamp := none
  ctime : Option Timestamp := none
  birthtime : Option Timestamp := none
  uid : Option UInt64 := none
  gid : Option UInt64 := none
  uname : Option (List Byte) := none
  gname : Option (List Byte) := none
  sparseRealsize : Option UInt64 := none
  pax : List (List Byte × List Byte) := []
deriving DecidableEq

/-- Merges the set fields of `src` into `dst`; the raw records are appended. -/
def mergeOwned (dst src : Overrides) : Overrides where
  path := src.path.or dst.path
  linkpath := src.linkpath.or dst.linkpath
  size := src.size.or dst.size
  mtime := src.mtime.or dst.mtime
  atime := src.atime.or dst.atime
  ctime := src.ctime.or dst.ctime
  birthtime := src.birthtime.or dst.birthtime
  uid := src.uid.or dst.uid
  gid := src.gid.or dst.gid
  uname := src.uname.or dst.uname
  gname := src.gname.or dst.gname
  sparseRealsize := src.sparseRealsize.or dst.sparseRealsize
  pax := dst.pax ++ src.pax

/-! ### Decimal numbers -/

/-- `u8::is_ascii_digit`. -/
def isDigit (b : Byte) : Bool := chr '0' ≤ b && b ≤ chr '9'

/-- The loop of `ascii_decimal`. -/
def asciiDecimalFrom (val : ℕ) : List Byte → Except Error ℕ
  | [] => .ok val
  | b :: rest =>
    if isDigit b then
      match (checkedMul val 10).bind (checkedAdd · (b - chr '0').toNat) with
      | some v => asciiDecimalFrom v rest
      | none => .error (.limitExceeded "decimal overflow")
    else .error (.malformed "invalid decimal digit")

/-- `ascii_decimal`. -/
def asciiDecimal (bytes : List Byte) : Except Error ℕ :=
  if bytes.isEmpty then .error (.malformed "empty decimal") else asciiDecimalFrom 0 bytes

/-- `ascii_decimal_u64`: the same number as a `u64`, whose range the loop has checked. -/
def asciiDecimalU64 (bytes : List Byte) : Except Error UInt64 := do
  return UInt64.ofNat (← asciiDecimal bytes)

/-- `to_string` of an unsigned number. -/
def decimalBytes (n : ℕ) : List Byte := (numeral 10 n).map fun d => chr '0' + UInt8.ofNat d

/-- `to_string` of a signed number. -/
def signedDecimalBytes (n : ℤ) : List Byte :=
  if n < 0 then chr '-' :: decimalBytes n.natAbs else decimalBytes n.natAbs

/-- `u8::is_ascii_whitespace`. -/
def isAsciiWhitespace (b : Byte) : Bool :=
  b == chr ' ' || b == 0x09 || b == 0x0A || b == 0x0C || b == 0x0D

/-- `trim_ascii_space`. -/
def trimAsciiSpace (v : List Byte) : List Byte :=
  ((v.dropWhile isAsciiWhitespace).reverse.dropWhile isAsciiWhitespace).reverse

/-! ### Timestamps -/

/-- The fractional digits as nanoseconds: nine of them, missing ones read as zero. -/
def parseNanos : ℕ → ℕ → List Byte → Except Error ℕ
  | 0, nanos, _ => .ok nanos
  | k + 1, nanos, [] => parseNanos k (nanos * 10) []
  | k + 1, nanos, b :: rest =>
    if isDigit b then parseNanos k (nanos * 10 + (b - chr '0').toNat) rest
    else .error (.malformed "invalid fractional second")

/-- `parse_pax_time`: `"secs"` or `"secs.nanos"`, with an optional sign. -/
def parsePaxTime (value : List Byte) : Except Error Timestamp := do
  let negative := value.head? == some (chr '-')
  let value := if negative then value.tail else value
  let (secsPart, fracPart) :=
    match value.findIdx? (· == chr '.') with
    | some dot => (value.take dot, value.drop (dot + 1))
    | none => (value, [])
  let magnitude ← okOr (i64Of (← asciiDecimal secsPart)) (.limitExceeded "PAX timestamp exceeds i64")
  let nanos ← parseNanos 9 0 fracPart
  let (secs, nanos) ←
    if negative && nanos != 0 then do
      let secs ← okOr (((i64Of (-magnitude.toInt)).bind fun s => i64Of (s.toInt - 1)))
        (.limitExceeded "PAX timestamp underflow")
      pure (secs, 1000000000 - nanos)
    else if negative then do
      let secs ← okOr (i64Of (-magnitude.toInt)) (.limitExceeded "PAX timestamp underflow")
      pure (secs, 0)
    else pure (magnitude, nanos)
  (Timestamp.new secs nanos).mapError fun _ => .malformed "invalid PAX timestamp"

/-- `format_pax_timestamp`. -/
def formatPaxTimestamp (t : Timestamp) : List Byte :=
  if t.nanos = 0 then signedDecimalBytes t.secs.toInt
  else if t.secs.toInt < 0 then
    let integral := (-(t.secs.toInt + 1)).natAbs
    let fraction := 1000000000 - t.nanos
    chr '-' :: decimalBytes integral ++ chr '.' ::
      (digitsBE 10 9 fraction).map fun d => chr '0' + UInt8.ofNat d
  else
    decimalBytes t.secs.toInt.natAbs ++ chr '.' ::
      (digitsBE 10 9 t.nanos).map fun d => chr '0' + UInt8.ofNat d

/-! ### Records -/

/-- `apply_pax`: records the pair and interprets the known keys. -/
def applyPax (key value : List Byte) (into : Overrides) : Except Error Overrides :=
  let into := { into with pax := into.pax ++ [(key, value)] }
  if key = bstr "path" then .ok { into with path := some value }
  else if key = bstr "linkpath" then .ok { into with linkpath := some value }
  else if key = bstr "size" then do return { into with size := some (← asciiDecimalU64 value) }
  else if key = bstr "uid" then do return { into with uid := some (← asciiDecimalU64 value) }
  else if key = bstr "gid" then do return { into with gid := some (← asciiDecimalU64 value) }
  else if key = bstr "mtime" then do return { into with mtime := some (← parsePaxTime value) }
  else if key = bstr "atime" then do return { into with atime := some (← parsePaxTime value) }
  else if key = bstr "ctime" then do return { into with ctime := some (← parsePaxTime value) }
  else if key = bstr "LIBARCHIVE.creationtime" ∨ key = bstr "SCHILY.birthtime" then do
    return { into with birthtime := some (← parsePaxTime value) }
  else if key = bstr "uname" then .ok { into with uname := some value }
  else if key = bstr "gname" then .ok { into with gname := some value }
  else if key = bstr "GNU.sparse.size" ∨ key = bstr "GNU.sparse.realsize" then do
    return { into with sparseRealsize := some (← asciiDecimalU64 value) }
  else .ok into

/-- The head of a record list: key, value and the remaining bytes. -/
def splitPaxRecord (records : List Byte) : Except Error (List Byte × List Byte × List Byte) := do
  let sp ← okOr (records.findIdx? (· == chr ' ')) (.malformed "pax: missing length separator")
  let len ← asciiDecimal (records.take sp)
  if len < sp + 2 ∨ records.length < len then throw (.malformed "pax: bad record length")
  let body := (records.take (len - 1)).drop (sp + 1)
  let eq ← okOr (body.findIdx? (· == chr '=')) (.malformed "pax: missing '='")
  return (body.take eq, body.drop (eq + 1), records.drop len)

/-- The loop of `parse_pax`. Every round removes at least two bytes, so the length of the records is
enough rounds. -/
def parsePaxFrom : ℕ → List Byte → Overrides → Except Error Overrides
  | 0, _, into => .ok into
  | n + 1, records, into =>
    if records.isEmpty then .ok into
    else do
      let (key, value, rest) ← splitPaxRecord records
      parsePaxFrom n rest (← applyPax key value into)

/-- `parse_pax`. -/
def parsePax (records : List Byte) (into : Overrides) : Except Error Overrides :=
  parsePaxFrom records.length records into

/-- The search of `push_pax_record` for a length that counts its own digits. The candidates grow and
a length has at most twenty digits, so `paxRounds` rounds are enough. -/
def paxLength (bodyLength : ℕ) : ℕ → ℕ → Except Error ℕ
  | 0, _ => .error (.limitExceeded "PAX record length overflow")
  | n + 1, length =>
    match checkedAdd bodyLength (decimalBytes length).length with
    | none => .error (.limitExceeded "PAX record length overflow")
    | some exact => if exact = length then .ok length else paxLength bodyLength n exact

/-- Rounds that always suffice. -/
def paxRounds : ℕ := 24

/-- `push_pax_record`: the bytes appended. -/
def paxRecord (key value : List Byte) : Except Error (List Byte) := do
  if key.isEmpty ∨ key.any (fun b => b == chr '=' || b == 0x0A || b == 0) then
    throw (.malformed "invalid PAX key")
  let bodyLength ← okOr
    ((((checkedAdd 1 key.length).bind (checkedAdd · 1)).bind (checkedAdd · value.length)).bind
      (checkedAdd · 1))
    (.limitExceeded "PAX record length overflow")
  let length ← paxLength bodyLength paxRounds (bodyLength + 1)
  return decimalBytes length ++ chr ' ' :: key ++ chr '=' :: value ++ [0x0A]

/-! ### Sparse maps -/

/-- The pairs of a comma-separated map. -/
def parseMapFields : List (List Byte) → Except Error (List SparseExtent)
  | [] => .ok []
  | [_] => .error (.malformed "GNU sparse map has an odd field count")
  | offset :: length :: rest => do
    let o ← asciiDecimal (trimAsciiSpace offset)
    let l ← asciiDecimal (trimAsciiSpace length)
    let e ← (SparseExtent.new o l).mapError fun _ => .malformed "invalid GNU sparse extent"
    return e :: (← parseMapFields rest)

/-- `slice::split`: the pieces between the separators, at least one. -/
def splitOn (sep : Byte) : List Byte → List (List Byte)
  | [] => [[]]
  | b :: rest =>
    if b = sep then [] :: splitOn sep rest
    else match splitOn sep rest with
      | piece :: pieces => (b :: piece) :: pieces
      | [] => [[b]]

/-- The scan of the raw records for sparse keys: the last map, the pairs and an open offset. -/
def scanSparse : List (List Byte × List Byte) → Option (List Byte) → List SparseExtent →
    Option ℕ → Except Error (Option (List Byte) × List SparseExtent × Option ℕ)
  | [], map, pairs, offset => .ok (map, pairs, offset)
  | (key, value) :: rest, map, pairs, offset =>
    if key = bstr "GNU.sparse.map" then scanSparse rest (some value) pairs offset
    else if key = bstr "GNU.sparse.offset" then do
      scanSparse rest map pairs (some (← asciiDecimal value))
    else if key = bstr "GNU.sparse.numbytes" then
      match offset with
      | none => .error (.malformed "GNU sparse length without offset")
      | some o => do
        let e ← (SparseExtent.new o (← asciiDecimal value)).mapError fun _ =>
          .malformed "invalid GNU sparse extent"
        scanSparse rest map (pairs ++ [e]) none
    else scanSparse rest map pairs offset

/-- `pax_sparse_extents`. -/
def paxSparseExtents (global pending : Overrides) : Except Error (List SparseExtent) := do
  let (map, pairs, offset) ← scanSparse (global.pax ++ pending.pax) none [] none
  if offset.isSome then throw (.malformed "GNU sparse offset without length")
  match map with
  | some map => parseMapFields (splitOn (chr ',') map)
  | none => return pairs

/-- The descriptors of an old-GNU header or extension block; empty ones are skipped. -/
def parseGnuSparseDescriptors (block : List Byte) (start : ℕ) :
    ℕ → Except Error (List SparseExtent)
  | 0 => .ok []
  | count + 1 => do
    let before ← parseGnuSparseDescriptors block start count
    let descriptor := (block.drop (start + count * 24)).take 24
    if descriptor.length < 24 then throw (.malformed "truncated GNU sparse descriptor")
    let offset ← parseNumeric (descriptor.take 12)
    let length ← parseNumeric (descriptor.drop 12)
    if length = 0 then return before
    else
      let e ← (SparseExtent.new offset length).mapError fun _ =>
        .malformed "invalid GNU sparse extent"
      return before ++ [e]

/-- The loop of `validate_sparse_extents`: the end of the last extent and the bytes stored. -/
def validateSparseFrom (logicalSize : ℕ) : ℕ → ℕ → List SparseExtent → Except Error ℕ
  | _, stored, [] => .ok stored
  | previousEnd, stored, e :: rest =>
    if e.offset < previousEnd ∨ logicalSize < e.end then
      .error (.malformed "GNU sparse extents overlap or exceed logical size")
    else match checkedAdd stored e.length with
      | none => .error (.malformed "GNU sparse stored size overflow")
      | some stored => validateSparseFrom logicalSize e.end stored rest

/-- `validate_sparse_extents`. -/
def validateSparseExtents (extents : List SparseExtent) (logicalSize storedSize : ℕ) :
    Except Error Unit := do
  let stored ← validateSparseFrom logicalSize 0 0 extents
  if stored = storedSize then .ok ()
  else .error (.malformed "GNU sparse extent bytes differ from stored size")

end LibarchiveOxide.Tar.Pax
