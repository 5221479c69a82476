import LibarchiveOxide.Codecs.Crc
import LibarchiveOxide.Core.Encode
import LibarchiveOxide.Core.Failure
import LibarchiveOxide.Zip.Fields

/-! # The ZIP encoder

Entries are written with data descriptors: a local header, the payload as the compressor makes it, and
a descriptor; the central directory and the end records follow. The compressors and the cipher are
parameters. A step that fails keeps what it changed before. -/

namespace LibarchiveOxide.Zip.Encoder

open Core.Failure Core.Metadata Core.Budget Core.Protocol Core.Encode Codecs.Crc Lib.LittleEndian
open Zip.Fields

/-- `StreamZipMethod`. -/
inductive StreamZipMethod where
  | store
  | deflate
  | bzip2
  | zstd
  | lzma
deriving DecidableEq

/-- `BzStatus`. -/
inductive BzStatus where
  | ok
  | finishOk
  | streamEnd
deriving DecidableEq

/-- The compressors with states `κ` and the cipher with states `α`, and the size of a retained
record. -/
structure Codecs (κ α : Type) where
  recordSize : ℕ
  newDeflate : Except ArchiveError κ
  deflate : κ → List Byte → ℕ → EndOfInput → Except ArchiveError CodecStep × κ
  newBzip2 : κ
  bzip2 : κ → List Byte → ℕ → Option (ℕ × List Byte) × κ
  bzip2Finish : κ → ℕ → Option (List Byte × BzStatus) × κ
  newZstd : Except ArchiveError κ
  zstd : κ → List Byte → ℕ → Except ArchiveError (ℕ × List Byte) × κ
  zstdFinish : κ → ℕ → Except ArchiveError (List Byte × Bool) × κ
  lzmaProps : Byte
  lzmaDictSize : ℕ
  newLzma : Option κ
  lzmaWrite : κ → List Byte → Option (List Byte) × κ
  lzmaFinish : κ → Option (List Byte)
  newAes : List Byte → Except ArchiveError (α × List Byte)
  encrypt : α → List Byte → List Byte × α
  authentication : α → List Byte

/-- The compressor of an open entry. The one of LZMA has a sink, and after it is finished a tail. -/
inductive Compressor (κ : Type) where
  | store
  | deflate (k : κ)
  | bzip2 (k : κ)
  | zstd (k : κ)
  | lzma (k : κ) (sink : List Byte)
  | lzmaTail (tail : List Byte)

/-- `OpenEntry`. -/
structure OpenEntry (κ α : Type) where
  name : List Byte
  comment : List Byte
  extra : List Byte
  method : ℕ
  payloadMethod : ℕ
  flags : ℕ
  crc : Crc32 := {}
  compressedSize : ℕ
  uncompressedSize : ℕ := 0
  expectedSize : Option UInt64
  localOffset : ℕ
  externalAttributes : ℕ
  dosTime : ℕ
  dosDate : ℕ
  zip64Size : Bool
  compressor : Compressor κ
  aes : Option α

/-- `Phase`. -/
inductive Phase (κ α : Type) where
  | ready
  | open (entry : OpenEntry κ α)
  | central (next start : ℕ)
  | finalBytes
  | done

/-- `ZipStreamEncoder`; of the staged bytes those that are not drained yet. -/
structure ZipStreamEncoder (κ α : Type) where
  limits : Limits
  method : StreamZipMethod
  phase : Phase κ α := .ready
  records : List CentralRecord := []
  metadataBytes : ℕ := 0
  totalInput : ℕ := 0
  offset : ℕ := 0
  pending : List Byte := []
  archiveComment : List Byte := []
  password : Option (List Byte) := none

variable {κ α : Type} (codecs : Codecs κ α)

/-- A call on an encoder. -/
abbrev Called (κ α β : Type) := ZipStreamEncoder κ α × Except ArchiveError β

/-- `set_archive_metadata`. -/
def setArchiveMetadata (e : ZipStreamEncoder κ α) (metadata : ArchiveMetadata) : Called κ α Unit :=
  match e.phase with
  | .ready =>
    if !e.records.isEmpty || e.offset ≠ 0 || !e.pending.isEmpty then
      (e, .error (zipError .protocol "ZIP archive metadata must be set before the first entry"))
    else
      let comment := metadata.comment.getD []
      if u16Sentinel < comment.length then
        (e, .error (zipError .limit "ZIP archive comment exceeds format field"))
      else if exceeds comment.length e.limits.metadataBytes then
        (e, .error (zipError .limit "ZIP archive comment exceeds metadata budget"))
      else ({ e with archiveComment := comment }, .ok ())
  | _ => (e, .error (zipError .protocol "ZIP archive metadata must be set before the first entry"))

/-- `queue`. -/
def queue (e : ZipStreamEncoder κ α) (bytes : List Byte) : Called κ α Unit :=
  if e.pending ≠ [] then
    (e, .error (zipError .protocol "attempted to replace undrained ZIP output"))
  else ({ e with pending := bytes }, .ok ())

/-- `drain_pending` into a buffer of `n` bytes. -/
def drainPending (e : ZipStreamEncoder κ α) (n : ℕ) : Called κ α (List Byte) :=
  let out := e.pending.take n
  let e := { e with pending := e.pending.drop n }
  match checkedAdd e.offset out.length with
  | none => (e, .error (zipError .limit "ZIP archive offset overflow"))
  | some offset => ({ e with offset := offset }, .ok out)

/-! ### Beginning an entry -/

/-- What an entry adds to the local and the central header. -/
structure EntryFields where
  name : List Byte
  comment : List Byte
  extra : List Byte
  zip64Size : Bool

/-- The name of an entry; one of a directory ends in a slash. -/
def entryName (limits : Limits) (m : EntryMetadata) : Except ArchiveError (List Byte) :=
  let name := m.path.raw
  if exceeds name.length limits.pathBytes then
    .error (zipError .limit "ZIP pathname exceeds configured limit")
  else if u16Sentinel < name.length then
    .error (zipError .limit "ZIP pathname exceeds format field")
  else if m.kind = .dir ∧ name.getLast? ≠ some (chr '/') then .ok (name ++ [chr '/'])
  else .ok name

/-- The most bytes of extra fields beside the ZIP64 ones. -/
def maximumExtra (zip64Size : Bool) (offset : ℕ) : ℕ :=
  u16Sentinel - max (if zip64Size then 20 else 0)
    (zip64ExtraReserve zip64Size (decide (u32Sentinel ≤ offset)))

/-- The checks of `begin_entry` before it changes the encoder. -/
def entryFields (e : ZipStreamEncoder κ α) (m : EntryMetadata) : Except ArchiveError EntryFields := do
  if e.limits.entries.any fun limit => decide (limit ≤ e.records.length) then
    throw (zipError .limit "ZIP entry count exceeds configured limit")
  let name ← entryName e.limits m
  let comment := m.comment.getD []
  if u16Sentinel < comment.length then
    throw (zipError .limit "ZIP file comment exceeds format field")
  let zip64Size := m.size.all fun size => decide (u32Sentinel ≤ size.toNat)
  let kept ← preservedExtra m.extensions
  let extra := derivedExtra m kept
  if maximumExtra zip64Size e.offset < extra.length then
    throw (zipError .limit "combined ZIP extra fields exceed format field")
  .ok ⟨name, comment, extra, zip64Size⟩

/-- The metadata account. -/
def accountMetadata (e : ZipStreamEncoder κ α) (added : ℕ) : Called κ α Unit :=
  match checkedAdd e.metadataBytes added with
  | none => (e, .error (zipError .limit "ZIP metadata accounting overflow"))
  | some total =>
    let e := { e with metadataBytes := total }
    if exceeds total e.limits.metadataBytes then
      (e, .error (zipError .limit "ZIP central-directory metadata exceeds configured limit"))
    else (e, .ok ())

/-- `payload_method`. -/
def payloadMethod (method : StreamZipMethod) (kind : EntryKind) : ℕ :=
  if kind = .dir ∨ kind = .symlink ∨ kind = .hardlink then 0
  else match method with
    | .store => 0
    | .deflate => 8
    | .bzip2 => 12
    | .zstd => 93
    | .lzma => 14

/-- `version_needed` of the local header. -/
def localVersion (encrypted : Bool) (payloadMethod : ℕ) (zip64Size : Bool) : ℕ :=
  if encrypted then 51
  else if payloadMethod = 12 then 46
  else if payloadMethod = 93 ∨ payloadMethod = 14 then 63
  else if zip64Size then 45
  else 20

/-- The general-purpose flags. -/
def entryFlags (m : EntryMetadata) (payloadMethod : ℕ) (encrypted : Bool) : ℕ :=
  0x0008 + (if payloadMethod = 14 then 0x0002 else 0) +
    (if m.path.encoding = .utf8 then 0x0800 else 0) + if encrypted then 1 else 0

/-- The compressor of a payload method. The first bytes of an LZMA payload are its header. -/
def newCompressor (payloadMethod : ℕ) : Except ArchiveError (Compressor κ) :=
  if payloadMethod = 8 then codecs.newDeflate.map .deflate
  else if payloadMethod = 12 then .ok (.bzip2 codecs.newBzip2)
  else if payloadMethod = 93 then codecs.newZstd.map .zstd
  else if payloadMethod = 14 then
    match codecs.newLzma with
    | none => .error (zipError .malformed "ZIP lzma encoder setup failed")
    | some k => .ok (.lzma k ([9, 20] ++ leBytes 2 5 ++ [codecs.lzmaProps] ++
        leBytes 4 codecs.lzmaDictSize))
  else .ok .store

/-- The cipher of an entry, and the bytes it puts after the local header. -/
def newCipher (e : ZipStreamEncoder κ α) : Except ArchiveError (Option α × List Byte) :=
  match e.password with
  | none => .ok (none, [])
  | some password => do
    let (aes, framing) ← codecs.newAes password
    .ok (some aes, framing)

/-- The entry that `begin_entry` opens. -/
def openEntry (e : ZipStreamEncoder κ α) (m : EntryMetadata) (f : EntryFields)
    (compressor : Compressor κ) (aes : Option α) : OpenEntry κ α :=
  let payload := payloadMethod e.method m.kind
  let encrypted := e.password.isSome
  { name := f.name
    comment := f.comment
    extra := f.extra
    method := if encrypted then 99 else payload
    payloadMethod := payload
    flags := entryFlags m payload encrypted
    compressedSize := if encrypted then 18 else 0
    expectedSize := m.size
    localOffset := e.offset
    externalAttributes := Fields.externalAttributes m.kind (m.mode.getD 0o644)
    dosTime := (dosDatetime m.times.modified).1
    dosDate := (dosDatetime m.times.modified).2
    zip64Size := f.zip64Size
    compressor := compressor
    aes := aes }

/-- The local header of an entry. -/
def entryHeader (e : ZipStreamEncoder κ α) (m : EntryMetadata) (f : EntryFields) : List Byte :=
  let payload := payloadMethod e.method m.kind
  let encrypted := e.password.isSome
  localHeader (localVersion encrypted payload f.zip64Size) (entryFlags m payload encrypted)
    (if encrypted then 99 else payload) (dosDatetime m.times.modified).1
    (dosDatetime m.times.modified).2 f.zip64Size f.name f.extra

/-- The rest of `begin_entry`, once the extra fields are complete. -/
def writeHeader (e : ZipStreamEncoder κ α) (m : EntryMetadata) (f : EntryFields) : Called κ α Unit :=
  match newCipher codecs e with
  | .error error => (e, .error error)
  | .ok (aes, framing) =>
    match queue e (entryHeader e m f ++ framing) with
    | (e, .error error) => (e, .error error)
    | (e, .ok ()) =>
      match newCompressor codecs (payloadMethod e.method m.kind) with
      | .error error => (e, .error error)
      | .ok compressor => ({ e with phase := .open (openEntry e m f compressor aes) }, .ok ())

/-- The AES extra field of an encrypted entry. -/
def encryptFields (e : ZipStreamEncoder κ α) (m : EntryMetadata) (f : EntryFields) :
    Called κ α EntryFields :=
  if e.password.isNone then (e, .ok f)
  else
    let extra := f.extra ++ aesField (payloadMethod e.method m.kind)
    match accountMetadata e 11 with
    | (e, .error error) => (e, .error error)
    | (e, .ok ()) =>
      if maximumExtra f.zip64Size e.offset < extra.length then
        (e, .error (zipError .limit "combined ZIP extra fields exceed format field"))
      else (e, .ok { f with extra := extra })

/-- `begin_entry`. -/
def beginEntry (e : ZipStreamEncoder κ α) (m : EntryMetadata) : Called κ α Unit :=
  match e.phase with
  | .ready =>
    match entryFields e m with
    | .error error => (e, .error error)
    | .ok f =>
      match accountMetadata e (f.name.length + f.comment.length + f.extra.length +
          codecs.recordSize) with
      | (e, .error error) => (e, .error error)
      | (e, .ok ()) =>
        match encryptFields e m f with
        | (e, .error error) => (e, .error error)
        | (e, .ok f) => writeHeader codecs e m f
  | _ => (e, .error (zipError .protocol
      "begin-entry received while another ZIP command is active"))

/-! ### The payload -/

/-- A step of the compressor: how much it consumed, and what it produced. -/
abbrev Compressed (κ : Type) := Except ArchiveError (ℕ × List Byte) × Compressor κ

/-- `deflate_step`. -/
def deflateStep (k : κ) (data : List Byte) (n : ℕ) : Compressed κ :=
  match codecs.deflate k data n .more with
  | (.error error, k) => (.error error, .deflate k)
  | (.ok step, k) =>
    if step.status = .done then
      (.error (zipError .protocol "ZIP deflate ended before end-entry"), .deflate k)
    else (.ok (step.consumed, step.produced), .deflate k)

/-- `bzip2_step`. -/
def bzip2Step (k : κ) (data : List Byte) (n : ℕ) : Compressed κ :=
  match codecs.bzip2 k data n with
  | (none, k) => (.error (zipError .malformed "ZIP bzip2 encoder failed"), .bzip2 k)
  | (some step, k) => (.ok step, .bzip2 k)

/-- `zstd_step`. -/
def zstdStep (k : κ) (data : List Byte) (n : ℕ) : Compressed κ :=
  match codecs.zstd k data n with
  | (step, k) => (step, .zstd k)

/-- `lzma_step`: what is left in the sink is drained before more is written to it. -/
def lzmaStep (k : κ) (sink data : List Byte) (n : ℕ) : Compressed κ :=
  if sink ≠ [] then (.ok (0, sink.take n), .lzma k (sink.drop n))
  else
    match codecs.lzmaWrite k data with
    | (none, k) => (.error (zipError .malformed "ZIP lzma encoder failed"), .lzma k sink)
    | (some written, k) => (.ok (data.length, written.take n), .lzma k (written.drop n))

/-- `compress_step`, and the copy of a stored payload. -/
def compressStep (compressor : Compressor κ) (data : List Byte) (n : ℕ) : Compressed κ :=
  match compressor with
  | .store =>
    let count := min data.length n
    (.ok (count, data.take count), .store)
  | .deflate k => deflateStep codecs k data n
  | .bzip2 k => bzip2Step codecs k data n
  | .zstd k => zstdStep codecs k data n
  | .lzma k sink => lzmaStep codecs k sink data n
  | .lzmaTail tail => (.error (zipError .protocol "ZIP lzma state is missing"), .lzmaTail tail)

/-- Produced bytes pass through the cipher of the entry. -/
def encryptProduced (entry : OpenEntry κ α) (produced : List Byte) : List Byte × OpenEntry κ α :=
  match entry.aes with
  | none => (produced, entry)
  | some aes =>
    let (out, aes) := codecs.encrypt aes produced
    (out, { entry with aes := some aes })

/-- `account_input`. -/
def accountInput (e : ZipStreamEncoder κ α) (count : ℕ) : Called κ α Unit :=
  match checkedAdd e.totalInput count with
  | none => (e, .error (zipError .limit "ZIP decoded total overflow"))
  | some total =>
    let e := { e with totalInput := total }
    if exceeds total e.limits.decodedTotal then
      (e, .error (zipError .limit "ZIP total input exceeds configured limit"))
    else (e, .ok ())

/-- `self.offset.checked_add`. -/
def advanceOffset (e : ZipStreamEncoder κ α) (count : ℕ) : Called κ α Unit :=
  match checkedAdd e.offset count with
  | none => (e, .error (zipError .limit "ZIP archive offset overflow"))
  | some offset => ({ e with offset := offset }, .ok ())

/-- The budget of the payload, the offset and the progress of `write_data`. -/
def finishData (e : ZipStreamEncoder κ α) (entry : OpenEntry κ α) (data : List Byte) (n consumed : ℕ)
    (produced : List Byte) : Called κ α EncodeStep :=
  let e := { e with phase := .open entry }
  if exceeds entry.uncompressedSize e.limits.entryBytes then
    (e, .error (zipError .limit "ZIP entry exceeds configured size limit"))
  else
    match accountInput e consumed with
    | (e, .error error) => (e, .error error)
    | (e, .ok ()) =>
      match advanceOffset e produced.length with
      | (e, .error error) => (e, .error error)
      | (e, .ok ()) =>
        if consumed = 0 ∧ produced = [] ∧ n ≠ 0 then
          (e, .error (zipError .protocol "ZIP encoder made no data progress"))
        else (e, .ok ⟨consumed, produced,
          if consumed = data.length then .needCommand else .needOutput⟩)

/-- The accounts of `write_data` after a step of the compressor. -/
def accountData (e : ZipStreamEncoder κ α) (entry : OpenEntry κ α) (data : List Byte) (n consumed : ℕ)
    (produced : List Byte) : Called κ α EncodeStep :=
  let entry := { entry with crc := entry.crc.update (data.take consumed) }
  match checkedAdd entry.uncompressedSize consumed with
  | none => ({ e with phase := .open entry },
      .error (zipError .limit "ZIP entry size overflow"))
  | some uncompressed =>
    let entry := { entry with uncompressedSize := uncompressed }
    match checkedAdd entry.compressedSize produced.length with
    | none => ({ e with phase := .open entry },
        .error (zipError .limit "ZIP compressed size overflow"))
    | some compressed =>
      finishData e { entry with compressedSize := compressed } data n consumed produced

/-- `write_data`. -/
def writeData (e : ZipStreamEncoder κ α) (data : List Byte) (n : ℕ) : Called κ α EncodeStep :=
  match e.phase with
  | .open entry =>
    if data = [] then (e, .ok ⟨0, [], .needCommand⟩)
    else
      match compressStep codecs entry.compressor data n with
      | (.error error, compressor) =>
        ({ e with phase := .open { entry with compressor := compressor } }, .error error)
      | (.ok (consumed, produced), compressor) =>
        let (produced, entry) :=
          encryptProduced codecs { entry with compressor := compressor } produced
        accountData e entry data n consumed produced
  | _ => (e, .error (zipError .protocol "ZIP data received outside an entry"))

/-! ### Ending an entry -/

/-- The end of a deflated payload: what was produced, and whether that was all. -/
def deflateFinish (k : κ) (n : ℕ) : Except ArchiveError (List Byte × CodecStatus) × κ :=
  match codecs.deflate k [] n .end with
  | (.error error, k) => (.error error, k)
  | (.ok step, k) => (.ok (step.produced, step.status), k)

/-- `finish_step`: what was written, and whether that was all. -/
def finishStep (compressor : Compressor κ) (n : ℕ) :
    Except ArchiveError (List Byte × Bool) × Compressor κ :=
  match compressor with
  | .store => (.ok ([], true), .store)
  | .deflate k => (.error (zipError .protocol "ZIP entry has no finalizer for its payload method"),
      .deflate k)
  | .bzip2 k =>
    match codecs.bzip2Finish k n with
    | (none, k) => (.error (zipError .malformed "ZIP bzip2 finalization failed"), .bzip2 k)
    | (some (written, status), k) =>
      if status = .ok then (.error (zipError .malformed "ZIP bzip2 finalization failed"), .bzip2 k)
      else (.ok (written, decide (status = .streamEnd)), .bzip2 k)
  | .zstd k =>
    match codecs.zstdFinish k n with
    | (step, k) => (step, .zstd k)
  | .lzma k sink =>
    if sink ≠ [] then (.ok (sink.take n, false), .lzma k (sink.drop n))
    else
      match codecs.lzmaFinish k with
      | none => (.error (zipError .malformed "ZIP lzma finalization failed"), .lzmaTail [])
      | some tail => (.ok (tail.take n, decide (tail.length ≤ n)), .lzmaTail (tail.drop n))
  | .lzmaTail tail => (.ok (tail.take n, decide (tail.length ≤ n)), .lzmaTail (tail.drop n))

/-- The compressed size and the offset after a piece of the end of a payload. -/
def growCompressed (e : ZipStreamEncoder κ α) (entry : OpenEntry κ α) (produced : List Byte) :
    ZipStreamEncoder κ α × Except ArchiveError (OpenEntry κ α) :=
  match checkedAdd entry.compressedSize produced.length with
  | none => ({ e with phase := .open entry },
      .error (zipError .limit "ZIP compressed size overflow"))
  | some size =>
    let entry := { entry with compressedSize := size }
    match advanceOffset { e with phase := .open entry } produced.length with
    | (e, .error error) => (e, .error error)
    | (e, .ok ()) => (e, .ok entry)

/-- The sizes fit a local header without ZIP64 sizes. -/
def fitsHeader (entry : OpenEntry κ α) : Bool :=
  entry.zip64Size || !(decide (u32Sentinel ≤ entry.uncompressedSize) ||
    decide (u32Sentinel ≤ entry.compressedSize))

/-- The central record of a closed entry. -/
def closedRecord (entry : OpenEntry κ α) : CentralRecord where
  name := entry.name
  comment := entry.comment
  extra := entry.extra
  method := entry.method
  flags := entry.flags
  crc := if entry.aes.isSome then 0 else entry.crc.finalize
  compressedSize := entry.compressedSize
  uncompressedSize := entry.uncompressedSize
  localOffset := entry.localOffset
  externalAttributes := entry.externalAttributes
  dosTime := entry.dosTime
  dosDate := entry.dosDate
  zip64Size := entry.zip64Size
  aesRealMethod := if entry.aes.isSome then some entry.payloadMethod else none

/-- The authentication code of an encrypted entry is a part of its compressed size. -/
def authenticate (entry : OpenEntry κ α) : Except ArchiveError (List Byte × OpenEntry κ α) :=
  match entry.aes with
  | none => .ok ([], entry)
  | some aes => do
    let size ← okOr (checkedAdd entry.compressedSize 10)
      (zipError .limit "ZIP AES compressed size overflow")
    .ok (codecs.authentication aes, { entry with compressedSize := size })

/-- The end of `end_entry`, which has left the entry already. -/
def closeEntry (e : ZipStreamEncoder κ α) (entry : OpenEntry κ α) (produced : List Byte) :
    Called κ α EncodeStep :=
  let e := { e with phase := .ready }
  if entry.expectedSize.any fun size => decide (size.toNat ≠ entry.uncompressedSize) then
    (e, .error (zipError .integrity "ZIP entry size differs from declared metadata"))
  else if !fitsHeader entry then
    (e, .error (zipError .limit "ZIP entry exceeded its non-ZIP64 local header"))
  else
    match authenticate codecs entry with
    | .error error => (e, .error error)
    | .ok (authentication, entry) =>
      if !fitsHeader entry then
        (e, .error (zipError .limit "ZIP entry exceeded its non-ZIP64 local header"))
      else
        let record := closedRecord entry
        let e := { e with records := e.records ++ [record] }
        match queue e (authentication ++ descriptor record.crc entry.zip64Size
            entry.compressedSize entry.uncompressedSize) with
        | (e, .error error) => (e, .error error)
        | (e, .ok ()) => (e, .ok ⟨1, produced, .needOutput⟩)

/-- The end of a deflated payload in `end_entry`. -/
def endDeflated (e : ZipStreamEncoder κ α) (entry : OpenEntry κ α) (k : κ) (n : ℕ) :
    Called κ α EncodeStep :=
  match deflateFinish codecs k n with
  | (.error error, k) =>
    ({ e with phase := .open { entry with compressor := .deflate k } }, .error error)
  | (.ok (produced, status), k) =>
    let (produced, entry) :=
      encryptProduced codecs { entry with compressor := .deflate k } produced
    match growCompressed e entry produced with
    | (e, .error error) => (e, .error error)
    | (e, .ok entry) =>
      match status with
      | .done => closeEntry codecs e entry produced
      | .needOutput => (e, .ok ⟨0, produced, .needOutput⟩)
      | .needInput => (e, .error (zipError .protocol "ZIP deflate requested input while finalizing"))

/-- The end of any other payload in `end_entry`. -/
def endOther (e : ZipStreamEncoder κ α) (entry : OpenEntry κ α) (compressor : Compressor κ) (n : ℕ) :
    Called κ α EncodeStep :=
  match finishStep codecs compressor n with
  | (.error error, compressor) =>
    ({ e with phase := .open { entry with compressor := compressor } }, .error error)
  | (.ok (written, finished), compressor) =>
    match growCompressed e { entry with compressor := compressor } written with
    | (e, .error error) => (e, .error error)
    | (e, .ok entry) =>
      if finished then closeEntry codecs e entry written
      else (e, .ok ⟨0, written, .needOutput⟩)

/-- `end_entry`. -/
def endEntry (e : ZipStreamEncoder κ α) (n : ℕ) : Called κ α EncodeStep :=
  match e.phase with
  | .open entry =>
    match entry.compressor with
    | .deflate k => endDeflated codecs e entry k n
    | compressor => endOther codecs e entry compressor n
  | _ => (e, .error (zipError .protocol "ZIP end-entry received outside an entry"))

/-! ### Finishing -/

/-- The next record of the central directory is staged, or the last records are. -/
def stageNext (e : ZipStreamEncoder κ α) (next start : ℕ) : Called κ α Unit :=
  match e.records[next]? with
  | some record => queue { e with phase := .central (next + 1) start } record.bytes
  | none => queue { e with phase := .finalBytes }
      (finalRecords e.records.length (e.offset - start) start e.archiveComment)

/-- The rounds of `finish_archive` with nothing staged: each record has bytes, so one is enough. -/
def finishReady (e : ZipStreamEncoder κ α) (next start n : ℕ) : Called κ α EncodeStep :=
  match stageNext e next start with
  | (e, .error error) => (e, .error error)
  | (e, .ok ()) =>
    match drainPending e n with
    | (e, .error error) => (e, .error error)
    | (e, .ok out) => (e, .ok ⟨0, out, .needOutput⟩)

/-- `finish_archive`. -/
def finishArchive (e : ZipStreamEncoder κ α) (n : ℕ) : Called κ α EncodeStep :=
  match e.phase with
  | .ready => finishReady e 0 e.offset n
  | .central next start => finishReady e next start n
  | .finalBytes => ({ e with phase := .done }, .ok ⟨1, [], .done⟩)
  | .done => (e, .ok ⟨0, [], .done⟩)
  | .open _ => (e, .error (zipError .protocol "ZIP finish received with an open entry"))

/-- A command, with nothing staged. -/
def command (e : ZipStreamEncoder κ α) (c : EncodeCommand) (n : ℕ) : Called κ α EncodeStep :=
  match c with
  | .beginEntry m =>
    match beginEntry codecs e m with
    | (e, .error error) => (e, .error error)
    | (e, .ok ()) =>
      match drainPending e n with
      | (e, .error error) => (e, .error error)
      | (e, .ok out) => (e, .ok ⟨1, out, if e.pending ≠ [] then .needOutput else .needCommand⟩)
  | .data data => writeData codecs e data n
  | .endEntry => endEntry codecs e n
  | .finish => finishArchive e n

/-- `step`. -/
def step : EncodeFn (ZipStreamEncoder κ α) := fun e c n =>
  match e.phase with
  | .done =>
    match c with
    | .finish => (e, .ok ⟨0, [], .done⟩)
    | _ => (e, .error (zipError .protocol "command supplied after ZIP completion"))
  | _ =>
    if e.pending ≠ [] then
      match drainPending e n with
      | (e, .error error) => (e, .error error)
      | (e, .ok out) => (e, .ok ⟨0, out, .needOutput⟩)
    else command codecs e c n

end LibarchiveOxide.Zip.Encoder
