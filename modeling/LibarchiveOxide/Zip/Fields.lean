import LibarchiveOxide.Core.Metadata
import LibarchiveOxide.Lib.Radix
import LibarchiveOxide.Lib.Result

/-! # The records of a ZIP archive, as they are written

Names, extra fields and comments have 16-bit length fields, and a length that does not fit is written
as `0xFFFF`. Sizes and offsets from `0xFFFF_FFFF` on move to a ZIP64 extra field, of which the local
header holds the two sizes and the central one also the offset. -/

namespace LibarchiveOxide.Zip.Fields

open Core.Failure Core.Metadata Lib Lib.LittleEndian

def localSignature : ℕ := 0x04034b50
def centralSignature : ℕ := 0x02014b50
def descriptorSignature : ℕ := 0x08074b50
def eocdSignature : ℕ := 0x06054b50
def zip64EocdSignature : ℕ := 0x06064b50
def zip64LocatorSignature : ℕ := 0x07064b50
def zip64Extra : ℕ := 0x0001
def aesExtra : ℕ := 0x9901

/-- Info-ZIP extended timestamp. -/
def extendedTimestampExtra : ℕ := 0x5455

/-- NTFS timestamps. -/
def ntfsTimestampExtra : ℕ := 0x000a

/-- Info-ZIP new Unix: numeric user and group. -/
def infozipUnixNewExtra : ℕ := 0x7855

/-- Info-ZIP old Unix: access and modification time. -/
def infozipUnixOldExtra : ℕ := 0x5855

def u16Sentinel : ℕ := 0xFFFF
def u32Sentinel : ℕ := 0xFFFFFFFF

/-- `Self::error`. -/
def zipError (kind : ErrorKind) (context : String) : ArchiveError := .inFormat "zip" kind context

/-- `field_u16`. -/
def fieldU16 (value : ℕ) : ℕ := if value ≤ u16Sentinel then value else u16Sentinel

/-- `field_u32`. -/
def fieldU32 (value : ℕ) : ℕ := if value ≤ u32Sentinel then value else u32Sentinel

/-! ### Extra fields -/

/-- One extra field. -/
def extraField (id length : ℕ) (value : List Byte) : List Byte :=
  leBytes 2 id ++ leBytes 2 length ++ value

/-- The walk of `zip_extra_contains_id`. Every field takes four bytes, so as many rounds as there
are bytes are enough. -/
def extraContainsLoop (wanted : ℕ) : ℕ → List Byte → Bool
  | 0, _ => false
  | fuel + 1, extra =>
    if extra.length < 4 then false
    else if leValue (extra.take 2) = wanted then true
    else extraContainsLoop wanted fuel (extra.drop (4 + leValue ((extra.drop 2).take 2)))

/-- `zip_extra_contains_id`. -/
def extraContains (extra : List Byte) (wanted : ℕ) : Bool :=
  extraContainsLoop wanted extra.length extra

/-- The `zip-extra` extensions that `begin_entry` keeps. -/
def preservedExtra : List Extension → Except ArchiveError (List Byte)
  | [] => .ok []
  | e :: es =>
    match e.key with
    | [low, high] =>
      let id := leValue [low, high]
      if e.namespace_ ≠ "zip-extra" ∨ id = zip64Extra ∨ id = aesExtra then preservedExtra es
      else if u16Sentinel < e.value.length then
        .error (zipError .limit "preserved ZIP extra field exceeds format field")
      else do
        let rest ← preservedExtra es
        .ok (extraField id e.value.length e.value ++ rest)
    | _ => preservedExtra es

/-- The seconds of a timestamp, if they are an `i32`. -/
def i32Seconds (t : Timestamp) : Option ℤ :=
  if -2 ^ 31 ≤ t.secs.toInt ∧ t.secs.toInt < 2 ^ 31 then some t.secs.toInt else none

/-- The flag and the bytes of one of the three times. -/
def timeField (bit : ℕ) (t : Option Timestamp) : ℕ × List Byte :=
  match t.bind i32Seconds with
  | some seconds => (bit, leBytes 4 (seconds % 2 ^ 32).toNat)
  | none => (0, [])

/-- `push_extended_timestamp`. -/
def extendedTimestamp (times : EntryTimes) : List Byte :=
  let modified := timeField 1 times.modified
  let accessed := timeField 2 times.accessed
  let changed := timeField 4 times.changed
  let flags := modified.1 + accessed.1 + changed.1
  let body := modified.2 ++ accessed.2 ++ changed.2
  if flags = 0 then []
  else extraField extendedTimestampExtra (fieldU16 (1 + body.length)) (UInt8.ofNat flags :: body)

/-- `push_infozip_unix`. -/
def infozipUnix (owner : Owner) : List Byte :=
  match owner.uid, owner.gid with
  | some uid, some gid =>
    if uid.toNat ≤ u16Sentinel ∧ gid.toNat ≤ u16Sentinel then
      extraField infozipUnixNewExtra 4 (leBytes 2 uid.toNat ++ leBytes 2 gid.toNat)
    else []
  | _, _ => []

/-- The extra fields that are derived from typed metadata, unless an equivalent one is kept. -/
def derivedExtra (m : EntryMetadata) (kept : List Byte) : List Byte :=
  let kept := if extraContains kept extendedTimestampExtra || extraContains kept ntfsTimestampExtra ||
      extraContains kept infozipUnixOldExtra then kept else kept ++ extendedTimestamp m.times
  if extraContains kept infozipUnixNewExtra || extraContains kept infozipUnixOldExtra then kept
  else kept ++ infozipUnix m.owner

/-- `push_aes_extra`. -/
def aesField (realMethod : ℕ) : List Byte :=
  extraField aesExtra 7 (leBytes 2 2 ++ bstr "AE" ++ [3] ++ leBytes 2 realMethod)

/-- `zip64_extra_reserve`. -/
def zip64ExtraReserve (sizeZip64 offsetZip64 : Bool) : ℕ :=
  if !sizeZip64 && !offsetZip64 then 0
  else 4 + (if sizeZip64 then 16 else 0) + (if offsetZip64 then 8 else 0)

/-! ### Attributes and times -/

/-- `external_attributes`. -/
def externalAttributes (kind : EntryKind) (mode : UInt32) : ℕ :=
  let typeBits := match kind with
    | .dir => 0o040000
    | .symlink => 0o120000
    | .char => 0o020000
    | .block => 0o060000
    | .fifo => 0o010000
    | .file | .hardlink | .socket => 0o100000
  (typeBits + mode.toNat % 0o10000) * 2 ^ 16 + if kind = .dir then 0x10 else 0

/-- `civil_from_days`. -/
def civilFromDays (days : ℤ) : ℤ × ℤ × ℤ :=
  let z := days + 719468
  let era := z / 146097
  let dayOfEra := z - era * 146097
  let yearOfEra := (dayOfEra - dayOfEra / 1460 + dayOfEra / 36524 - dayOfEra / 146096) / 365
  let year := yearOfEra + era * 400
  let dayOfYear := dayOfEra - (365 * yearOfEra + yearOfEra / 4 - yearOfEra / 100)
  let monthPart := (5 * dayOfYear + 2) / 153
  let day := dayOfYear - (153 * monthPart + 2) / 5 + 1
  let month := if monthPart < 10 then monthPart + 3 else monthPart - 9
  (if month ≤ 2 then year + 1 else year, month, day)

/-- `dos_datetime`: the time and the date. -/
def dosDatetime (timestamp : Option Timestamp) : ℕ × ℕ :=
  match timestamp with
  | none => (0, 0x21)
  | some t =>
    if t.secs.toInt < 315532800 then (0, 0x21)
    else
      let days := t.secs.toInt / 86400
      let remaining := t.secs.toInt % 86400
      let (year, month, day) := civilFromDays days
      let year := min (max (year - 1980) 0) 127
      ((remaining / 3600 * 2 ^ 11 + remaining % 3600 / 60 * 2 ^ 5 + remaining % 60 / 2).toNat,
        (year * 2 ^ 9 + month * 2 ^ 5 + day).toNat)

/-! ### Records -/

/-- The ZIP64 field of a local header, whose sizes are in the descriptor. -/
def localZip64 (zip64Size : Bool) : List Byte :=
  if zip64Size then extraField zip64Extra 16 (leBytes 8 0 ++ leBytes 8 0) else []

/-- A local header. -/
def localHeader (version flags method dosTime dosDate : ℕ) (zip64Size : Bool)
    (name extra : List Byte) : List Byte :=
  leBytes 4 localSignature ++ leBytes 2 version ++ leBytes 2 flags ++ leBytes 2 method ++
    leBytes 2 dosTime ++ leBytes 2 dosDate ++ leBytes 4 0 ++
    leBytes 4 (if zip64Size then u32Sentinel else 0) ++
    leBytes 4 (if zip64Size then u32Sentinel else 0) ++ leBytes 2 (fieldU16 name.length) ++
    leBytes 2 (fieldU16 (extra.length + if zip64Size then 20 else 0)) ++ name ++
    localZip64 zip64Size ++ extra

/-- What the central directory says about an entry. -/
structure CentralRecord where
  name : List Byte
  comment : List Byte
  extra : List Byte
  method : ℕ
  flags : ℕ
  crc : UInt32
  compressedSize : ℕ
  uncompressedSize : ℕ
  localOffset : ℕ
  externalAttributes : ℕ
  dosTime : ℕ
  dosDate : ℕ
  zip64Size : Bool
  aesRealMethod : Option ℕ
deriving DecidableEq

namespace CentralRecord

variable (r : CentralRecord)

/-- The sizes are in the ZIP64 field. -/
def sizeZip64 : Bool :=
  r.zip64Size || decide (u32Sentinel ≤ r.compressedSize) || decide (u32Sentinel ≤ r.uncompressedSize)

/-- The offset is in the ZIP64 field. -/
def offsetZip64 : Bool := decide (u32Sentinel ≤ r.localOffset)

/-- The ZIP64 field of the central header. -/
def zip64Field : List Byte :=
  if r.sizeZip64 || r.offsetZip64 then
    let body := (if r.sizeZip64 then leBytes 8 r.uncompressedSize ++ leBytes 8 r.compressedSize
      else []) ++ if r.offsetZip64 then leBytes 8 r.localOffset else []
    extraField zip64Extra (fieldU16 body.length) body
  else []

/-- The extra fields of the central header. -/
def centralExtra : List Byte := r.zip64Field ++ r.extra

/-- `version_needed` of the central header. -/
def centralVersion : ℕ :=
  if r.aesRealMethod.isSome then 51
  else if r.method = 12 then 46
  else if r.method = 93 ∨ r.method = 14 then 63
  else if r.sizeZip64 || r.offsetZip64 then 45
  else 20

/-- `central_record`. -/
def bytes : List Byte :=
  leBytes 4 centralSignature ++ leBytes 2 0x031e ++ leBytes 2 r.centralVersion ++
    leBytes 2 r.flags ++ leBytes 2 r.method ++ leBytes 2 r.dosTime ++ leBytes 2 r.dosDate ++
    leBytes 4 r.crc.toNat ++
    leBytes 4 (if r.sizeZip64 then u32Sentinel else fieldU32 r.compressedSize) ++
    leBytes 4 (if r.sizeZip64 then u32Sentinel else fieldU32 r.uncompressedSize) ++
    leBytes 2 (fieldU16 r.name.length) ++ leBytes 2 (fieldU16 r.centralExtra.length) ++
    leBytes 2 (fieldU16 r.comment.length) ++ leBytes 2 0 ++ leBytes 2 0 ++
    leBytes 4 r.externalAttributes ++
    leBytes 4 (if r.offsetZip64 then u32Sentinel else fieldU32 r.localOffset) ++ r.name ++
    r.centralExtra ++ r.comment

end CentralRecord

/-- A data descriptor. -/
def descriptor (crc : UInt32) (zip64Size : Bool) (compressedSize uncompressedSize : ℕ) : List Byte :=
  leBytes 4 descriptorSignature ++ leBytes 4 crc.toNat ++
    if zip64Size then leBytes 8 compressedSize ++ leBytes 8 uncompressedSize
    else leBytes 4 (fieldU32 compressedSize) ++ leBytes 4 (fieldU32 uncompressedSize)

/-- The ZIP64 end record and its locator. -/
def zip64EndRecord (count size start : ℕ) : List Byte :=
  leBytes 4 zip64EocdSignature ++ leBytes 8 44 ++ leBytes 2 0x031e ++ leBytes 2 45 ++ leBytes 4 0 ++
    leBytes 4 0 ++ leBytes 8 count ++ leBytes 8 count ++ leBytes 8 size ++ leBytes 8 start ++
    leBytes 4 zip64LocatorSignature ++ leBytes 4 0 ++ leBytes 8 (start + size) ++ leBytes 4 1

/-- The end of central directory record, with the archive comment. -/
def endRecord (count size start : ℕ) (comment : List Byte) : List Byte :=
  leBytes 4 eocdSignature ++ leBytes 2 0 ++ leBytes 2 0 ++ leBytes 2 (fieldU16 count) ++
    leBytes 2 (fieldU16 count) ++ leBytes 4 (fieldU32 size) ++ leBytes 4 (fieldU32 start) ++
    leBytes 2 (fieldU16 comment.length) ++ comment

/-- `final_records` for a central directory of `size` bytes at `start`. -/
def finalRecords (count size start : ℕ) (comment : List Byte) : List Byte :=
  (if u16Sentinel ≤ count ∨ u32Sentinel ≤ size ∨ u32Sentinel ≤ start then
    zip64EndRecord count size start else []) ++ endRecord count size start comment

end LibarchiveOxide.Zip.Fields
