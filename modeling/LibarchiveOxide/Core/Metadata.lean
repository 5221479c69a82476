import LibarchiveOxide.Core.Failure

/-! # Entry metadata

The value types keep the invariants their constructors check: a `Timestamp` has less than a billion
nanoseconds, a `SparseExtent` is non-empty and ends below `2^64`. The fields are private in the
source, so a value that breaks them cannot be built there either. `EntryMetadata.validate` is the
check every public writer makes before it begins an entry. -/

namespace LibarchiveOxide.Core.Metadata

open Core.Failure

/-! ### Small value types -/

/-- Entry kind. -/
inductive EntryKind where
  | file
  | dir
  | symlink
  | hardlink
  | char
  | block
  | fifo
  | socket
deriving DecidableEq

/-- Portable permissions for formats whose mode field is mandatory. -/
def defaultMode : EntryKind → UInt32
  | .dir => 0o755
  | .symlink => 0o777
  | .file | .hardlink => 0o644
  | .char | .block | .fifo | .socket => 0o600

/-- A timestamp in seconds and nanoseconds. -/
structure Timestamp where
  secs : Int64
  nanos : ℕ
  nanos_lt : nanos < 1000000000
deriving DecidableEq

/-- `Timestamp::new`. -/
def Timestamp.new (secs : Int64) (nanos : ℕ) : Except ArchiveError Timestamp :=
  if h : nanos < 1000000000 then .ok ⟨secs, nanos, h⟩
  else .error (({ kind := .malformed } : ArchiveError).withContext
    "timestamp nanoseconds must be less than 1,000,000,000")

/-- `Timestamp::from_seconds`. -/
def Timestamp.fromSeconds (secs : Int64) : Timestamp := ⟨secs, 0, by decide⟩

/-- The `i64` of an integer, if it is in range. -/
def i64Of (n : ℤ) : Option Int64 :=
  if -2 ^ 63 ≤ n ∧ n < 2 ^ 63 then some (Int64.ofInt n) else none

/-- `i64::MAX`. -/
def i64Max : Int64 := Int64.ofInt (2 ^ 63 - 1)

/-- Device numbers. -/
structure Device where
  major : UInt64 := 0
  minor : UInt64 := 0
deriving DecidableEq

/-- One sparse-file data extent. -/
structure SparseExtent where
  offset : ℕ
  length : ℕ
  length_pos : 0 < length
  end_le : offset + length ≤ u64Max
deriving DecidableEq

/-- `SparseExtent::new`. -/
def SparseExtent.new (offset length : ℕ) : Except ArchiveError SparseExtent :=
  if h0 : 0 < length then
    if h1 : offset + length ≤ u64Max then .ok ⟨offset, length, h0, h1⟩
    else .error (({ kind := .malformed } : ArchiveError).withContext
      "sparse extent end offset overflows u64")
  else .error (({ kind := .malformed } : ArchiveError).withContext
    "sparse extent length must be non-zero")

/-- Exclusive logical end offset. -/
def SparseExtent.end (e : SparseExtent) : ℕ := e.offset + e.length

/-- Encoding of an archive-native path. -/
inductive PathEncoding where
  | bytes
  | utf8
  | utf16Le
deriving DecidableEq

/-- An archive path in its native representation. -/
structure ArchivePath where
  raw : List Byte
  encoding : PathEncoding
deriving DecidableEq

/-- An uninterpreted byte path. -/
def ArchivePath.fromBytes (raw : List Byte) : ArchivePath := ⟨raw, .bytes⟩

/-- A UTF-8 path. -/
def ArchivePath.fromUtf8 (raw : List Byte) : ArchivePath := ⟨raw, .utf8⟩

/-- Owner identity. -/
structure Owner where
  uid : Option UInt64 := none
  gid : Option UInt64 := none
  user : Option (List Byte) := none
  group : Option (List Byte) := none
deriving DecidableEq

/-- File timestamps. -/
structure EntryTimes where
  modified : Option Timestamp := none
  accessed : Option Timestamp := none
  changed : Option Timestamp := none
  created : Option Timestamp := none
deriving DecidableEq

/-- Algorithm attached to an entry checksum. -/
inductive ChecksumAlgorithm where
  | cpioSum32
  | crc32
  | sha256
  | blake2b256
deriving DecidableEq

/-- Digest size of an algorithm. -/
def ChecksumAlgorithm.outputBytes : ChecksumAlgorithm → ℕ
  | .cpioSum32 | .crc32 => 4
  | .sha256 | .blake2b256 => 32

/-- A checksum whose digest has the size of its algorithm. -/
structure Checksum where
  algorithm : ChecksumAlgorithm
  value : List Byte
  length_value : value.length = algorithm.outputBytes
deriving DecidableEq

/-- The big-endian bytes of a `u32`. -/
def beBytes32 (v : UInt32) : List Byte :=
  [(v >>> 24).toUInt8, (v >>> 16).toUInt8, (v >>> 8).toUInt8, v.toUInt8]

/-- The `u32` of four big-endian bytes; `none` for any other number of bytes. -/
def ofBeBytes32 : List Byte → Option UInt32
  | [a, b, c, d] =>
    some (a.toUInt32 <<< 24 ||| b.toUInt32 <<< 16 ||| c.toUInt32 <<< 8 ||| d.toUInt32)
  | _ => none

/-- The fixed-width checksum of cpio crc entries. -/
def Checksum.ofCpioSum32 (v : UInt32) : Checksum := ⟨.cpioSum32, beBytes32 v, rfl⟩

/-- A namespaced raw extension retained for round-tripping. -/
structure Extension where
  namespace_ : String
  key : List Byte
  value : List Byte
deriving DecidableEq

/-! ### Entry and archive metadata -/

/-- Metadata for one archive entry. -/
structure EntryMetadata where
  kind : EntryKind
  path : ArchivePath
  size : Option UInt64 := none
  linkTarget : Option ArchivePath := none
  mode : Option UInt32 := none
  owner : Owner := {}
  times : EntryTimes := {}
  inode : Option UInt64 := none
  links : Option UInt64 := none
  device : Option Device := none
  referencedDevice : Option Device := none
  sparse : List SparseExtent := []
  xattrs : List (List Byte × List Byte) := []
  acl : List (List Byte) := []
  fileFlags : UInt64 := 0
  checksum : Option Checksum := none
  encrypted : Bool := false
  comment : Option (List Byte) := none
  extensions : List Extension := []
deriving DecidableEq

/-- Archive-level metadata. -/
structure ArchiveMetadata where
  volumeName : Option ArchivePath := none
  comment : Option (List Byte) := none
  extensions : List Extension := []
deriving DecidableEq

/-! ### Validation -/

/-- A continuation byte `10xxxxxx`. -/
def isCont (b : Byte) : Bool := 0x80 ≤ b && b ≤ 0xBF

/-- `core::str::from_utf8(..).is_ok()`: the well-formed UTF-8 byte sequences. -/
def validUtf8 : List Byte → Bool
  | [] => true
  | b0 :: rest =>
    if b0 < 0x80 then validUtf8 rest
    else match rest with
      | b1 :: rest1 =>
        if 0xC2 ≤ b0 && b0 ≤ 0xDF then isCont b1 && validUtf8 rest1
        else match rest1 with
          | b2 :: rest2 =>
            if b0 == 0xE0 then 0xA0 ≤ b1 && b1 ≤ 0xBF && isCont b2 && validUtf8 rest2
            else if b0 == 0xED then 0x80 ≤ b1 && b1 ≤ 0x9F && isCont b2 && validUtf8 rest2
            else if 0xE1 ≤ b0 && b0 ≤ 0xEF then isCont b1 && isCont b2 && validUtf8 rest2
            else match rest2 with
              | b3 :: rest3 =>
                if b0 == 0xF0 then
                  0x90 ≤ b1 && b1 ≤ 0xBF && isCont b2 && isCont b3 && validUtf8 rest3
                else if b0 == 0xF4 then
                  0x80 ≤ b1 && b1 ≤ 0x8F && isCont b2 && isCont b3 && validUtf8 rest3
                else if 0xF1 ≤ b0 && b0 ≤ 0xF3 then
                  isCont b1 && isCont b2 && isCont b3 && validUtf8 rest3
                else false
              | [] => false
          | [] => false
      | [] => false

/-- The little-endian code units of an even number of bytes; `none` for an odd number. -/
def utf16Units : List Byte → Option (List UInt16)
  | [] => some []
  | [_] => none
  | lo :: hi :: rest => (utf16Units rest).map ((lo.toUInt16 ||| hi.toUInt16 <<< 8) :: ·)

/-- Every surrogate is half of a pair. -/
def validUtf16 : List UInt16 → Bool
  | [] => true
  | u :: rest =>
    if 0xD800 ≤ u && u ≤ 0xDBFF then
      match rest with
      | v :: rest' => 0xDC00 ≤ v && v ≤ 0xDFFF && validUtf16 rest'
      | [] => false
    else if 0xDC00 ≤ u && u ≤ 0xDFFF then false
    else validUtf16 rest

/-- `validate_encoded_path`. -/
def validateEncodedPath (p : ArchivePath) : Except ArchiveError Unit :=
  match p.encoding with
  | .bytes => .ok ()
  | .utf8 =>
    if validUtf8 p.raw then .ok ()
    else .error (({ kind := .malformed } : ArchiveError).withContext
      "path tagged as UTF-8 contains invalid UTF-8")
  | .utf16Le =>
    match utf16Units p.raw with
    | none => .error (({ kind := .malformed } : ArchiveError).withContext
        "UTF-16LE path has an odd byte length")
    | some units =>
      if validUtf16 units then .ok ()
      else .error (({ kind := .malformed } : ArchiveError).withContext
        "UTF-16LE path contains an unpaired surrogate")

/-- The loop over the extents: sorted, without overlap, inside the declared size. The constructor
check it repeats for each extent cannot fail on a `SparseExtent`. -/
def validateExtents (size : Option UInt64) : Option ℕ → List SparseExtent →
    Except ArchiveError Unit
  | _, [] => .ok ()
  | previousEnd, e :: rest =>
    if previousEnd.any (fun p => decide (e.offset < p)) then
      .error (({ kind := .malformed } : ArchiveError).withContext
        "sparse extents overlap or are not sorted")
    else if size.any (fun s => decide (s.toNat < e.end)) then
      .error (({ kind := .malformed } : ArchiveError).withContext
        "sparse extent exceeds the declared entry size")
    else validateExtents size (some e.end) rest

/-- `EntryMetadata::validate`. -/
def EntryMetadata.validate (m : EntryMetadata) : Except ArchiveError Unit := do
  if m.path.raw.isEmpty then
    throw (({ kind := .malformed } : ArchiveError).withContext
      "archive entry path must not be empty")
  validateEncodedPath m.path
  match m.linkTarget with
  | some target => validateEncodedPath target
  | none => pure ()
  for t in [m.times.modified, m.times.accessed, m.times.changed, m.times.created].reduceOption do
    let _ ← Timestamp.new t.secs t.nanos
  let isLink := m.kind == .symlink || m.kind == .hardlink
  if isLink != m.linkTarget.isSome then
    throw (({ kind := .malformed } : ArchiveError).withContext
      "link entries require a target and non-link entries must not carry one")
  if !m.sparse.isEmpty && m.kind != .file then
    throw (({ kind := .malformed } : ArchiveError).withContext
      "only regular files may carry sparse extents")
  validateExtents m.size none m.sparse

end LibarchiveOxide.Core.Metadata

/-! # The sans-I/O protocols

A decoder step is given the bytes not yet consumed, the size of a scratch buffer and whether more
input may follow; it reports how many bytes it consumed and one structural event. An encoder step is
given a command and the size of the output buffer; it reports its progress and the bytes it put
there. Borrowed data windows are modelled by the bytes they show. -/

namespace LibarchiveOxide.Core.Protocol

open Core.Failure Core.Metadata

/-- Whether the supplied input is the final input. -/
inductive EndOfInput where
  | more
  | end
deriving DecidableEq

/-- Incremental detection result. -/
inductive ProbeResult (α : Type) where
  | isMatch (a : α)
  | needMore (minimum : ℕ)
  | noMatch
deriving DecidableEq

/-- What a byte codec needs after one call. -/
inductive CodecStatus where
  | needInput
  | needOutput
  | done
deriving DecidableEq

/-- Progress made by a byte codec; `produced` is the output written, so its length is the count. -/
structure CodecStep where
  consumed : ℕ
  produced : List Byte
  status : CodecStatus
deriving DecidableEq

/-- `CodecStep::validate`. -/
def CodecStep.validate (s : CodecStep) (inputLen outputLen : ℕ) : Except ArchiveError CodecStep :=
  if inputLen < s.consumed || outputLen < s.produced.length then
    .error (({ kind := .protocol } : ArchiveError).withContext
      "codec reported out-of-range progress")
  else if s.consumed == 0 && s.produced.length == 0 &&
      !(s.status == .needInput && inputLen == 0) &&
      !(s.status == .needOutput && outputLen == 0) && s.status != .done then
    .error (({ kind := .protocol } : ArchiveError).withContext "codec made no progress")
  else .ok s

/-- Structural event produced by an archive decoder. -/
inductive DecodeEvent where
  | needInput
  | needOutput
  | archiveMetadata (m : ArchiveMetadata)
  | entry (m : EntryMetadata)
  | data (bytes : List Byte)
  | endEntry
  | done
deriving DecidableEq

/-- Progress and event from one archive decoder call. -/
structure DecodeStep where
  consumed : ℕ
  produced : ℕ
  event : DecodeEvent
deriving DecidableEq

/-- `DecodeStep::validate`. -/
def DecodeStep.validate (s : DecodeStep) (inputLen outputLen : ℕ) :
    Except ArchiveError DecodeStep :=
  if inputLen < s.consumed || outputLen < s.produced then
    .error (({ kind := .protocol } : ArchiveError).withContext
      "archive decoder reported out-of-range progress")
  else if s.consumed == 0 && s.produced == 0 && s.event == .data [] then
    .error (({ kind := .protocol } : ArchiveError).withContext "archive decoder made no progress")
  else .ok s

/-- Input command for an archive encoder. -/
inductive EncodeCommand where
  | beginEntry (m : EntryMetadata)
  | data (bytes : List Byte)
  | endEntry
  | finish
deriving DecidableEq

/-- Encoder state after one call. -/
inductive EncodeStatus where
  | needCommand
  | needOutput
  | done
deriving DecidableEq

/-- Progress from one archive encoder call; `produced` is the output written. -/
structure EncodeStep where
  consumed : ℕ
  produced : List Byte
  status : EncodeStatus
deriving DecidableEq

end LibarchiveOxide.Core.Protocol
