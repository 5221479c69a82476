import LibarchiveOxide.Core.Failure
import LibarchiveOxide.Lib.Slice
import LibarchiveOxide.Stream.Event

/-! # Reading the entries of a XAR archive

The reader over an archive whose table of contents has been parsed. An archive is modelled by its
bytes, of which a read returns at least one but maybe fewer than it was asked for. The codecs are
parameters that are called as their libraries are, with some input and room for some output. A call
of the reader that fails ends its run, so the state after a failure is left out. -/

namespace LibarchiveOxide.Xar.Reader

open Core.Failure Core.Budget Core.Metadata Lib.Slice Stream.Event

def xarError (kind : ErrorKind) (context : String) : StreamError :=
  .archive (.inFormat "xar" kind context)

/-- `BUFFER`. -/
def buffer : ℕ := 64 * 1024

/-- `BZIP2_SMALL_MEMORY`. -/
def bzip2SmallMemory : ℕ := 2300 * 1024

/-! ### Entries -/

inductive XarEncoding where
  | stored
  | zlib
  | bzip2
  | unsupported
deriving DecidableEq

/-- The heap window of a file. -/
structure XarData where
  encoding : XarEncoding
  offset : ℕ
  storedSize : ℕ
  length : UInt64
deriving DecidableEq

/-- An entry of the table of contents. -/
structure XarFile where
  path : List Byte
  kind : EntryKind
  mode : Option UInt32
  uid : Option UInt64
  gid : Option UInt64
  mtime : Option Timestamp
  linkTarget : Option (List Byte)
  data : Option XarData
deriving DecidableEq

/-! ### Codecs -/

/-- The status of a call of a codec. A codec that has no `buf` or no `memNeeded` does not return
it. -/
inductive Status where
  | ok
  | streamEnd
  | buf
  | memNeeded
  | failed
deriving DecidableEq

/-- A call of a codec: how much it consumed, what it wrote and how it ended. -/
structure Outcome (σ : Type) where
  consumed : ℕ
  written : List Byte
  status : Status
  state : σ

/-- A streaming decoder, called with input, room for output and whether the input ends here. -/
structure Codec where
  State : Type
  new : State
  decode : State → List Byte → ℕ → Bool → Outcome State
  consumed_le : ∀ s input room finish, (decode s input room finish).consumed ≤ input.length
  written_le : ∀ s input room finish, (decode s input room finish).written.length ≤ room

/-- What the decoder of a payload holds: the compressed bytes left on the heap, the ones read and
not consumed, the codec, and whether its stream has ended. -/
structure Inflating (σ : Type) where
  compRemaining : ℕ
  unread : List Byte
  state : σ
  finished : Bool

/-- What an open archive has. `grant i` bounds the `i`-th read, which returns at most `grant i + 1`
bytes. -/
structure Archive where
  image : List Byte
  heapStart : ℕ
  files : List XarFile
  limits : Limits
  zlib : Codec
  bzip2 : Codec
  grant : ℕ → ℕ

/-- The source: its position and the number of reads so far. -/
structure Input where
  position : ℕ
  reads : ℕ
deriving DecidableEq

inductive Payload (a : Archive) where
  | stored (remaining : ℕ)
  | zlib (state : Inflating a.zlib.State)
  | bzip2 (state : Inflating a.bzip2.State)

inductive XarPhase where
  | idle
  | data (remaining : ℕ)
  | unsupported
  | endEntry
  | done
deriving DecidableEq

/-- `XarSeekReader`. -/
structure XarSeekReader (a : Archive) where
  input : Input := ⟨0, 0⟩
  archiveMetadata : Bool := true
  nextFile : ℕ := 0
  phase : XarPhase := .idle
  payload : Option (Payload a) := none
  decodedTotal : ℕ := 0

variable {a : Archive}

/-- `read` of up to `want` bytes. -/
def Archive.read (a : Archive) (input : Input) (want : ℕ) : List Byte × Input :=
  let bytes := window a.image input.position (input.position + min want (a.grant input.reads + 1))
  (bytes, ⟨input.position + bytes.length, input.reads + 1⟩)

/-! ### Payloads -/

/-- The refill that both codecs do before a call. -/
def Archive.refill {σ : Type} (a : Archive) (input : Input) (s : Inflating σ) (message : String) :
    Except StreamError (Input × Inflating σ) :=
  if s.unread = [] ∧ 0 < s.compRemaining then
    let (bytes, input) := a.read input (min s.compRemaining buffer)
    if bytes = [] then .error (xarError .malformed message)
    else .ok (input, { s with unread := bytes, compRemaining := s.compRemaining - bytes.length })
  else .ok (input, s)

/-- The decoder after a call of its codec. -/
def Inflating.after {σ : Type} (s : Inflating σ) (r : Outcome σ) : Inflating σ :=
  { s with unread := s.unread.drop r.consumed, state := r.state }

/-- The loop of `read_payload` over a zlib stream, for at most so many rounds. -/
def readZlib (a : Archive) (room : ℕ) : ℕ → Input → Inflating a.zlib.State →
    Option (Except StreamError (List Byte × Input × Inflating a.zlib.State))
  | 0, _, _ => none
  | fuel + 1, input, s =>
    if s.finished then some (.ok ([], input, s))
    else match a.refill input s "xar heap ended before the compressed blob" with
      | .error e => some (.error e)
      | .ok (input, s) =>
        let r := a.zlib.decode s.state s.unread room (s.compRemaining == 0)
        let s := s.after r
        match r.status with
        | .streamEnd => some (.ok (r.written, input, { s with finished := true }))
        | .ok | .buf =>
          if r.written ≠ [] then some (.ok (r.written, input, s))
          else if s.unread = [] ∧ s.compRemaining = 0 then
            some (.error (xarError .malformed "xar zlib blob ended without stream end"))
          else readZlib a room fuel input s
        | .memNeeded | .failed => some (.error (xarError .malformed "xar zlib decode failed"))

/-- The loop of `read_bzip2_payload`, for at most so many rounds. -/
def readBzip2Payload (a : Archive) (room : ℕ) : ℕ → Input → Inflating a.bzip2.State →
    Option (Except StreamError (List Byte × Input × Inflating a.bzip2.State))
  | 0, _, _ => none
  | fuel + 1, input, s =>
    if s.finished then some (.ok ([], input, s))
    else match a.refill input s "xar heap ended before the bzip2 blob" with
      | .error e => some (.error e)
      | .ok (input, s) =>
        let r := a.bzip2.decode s.state s.unread room false
        let s := s.after r
        match r.status with
        | .failed =>
          some (.error (xarError .integrity "xar bzip2 payload or checksum is invalid"))
        | .streamEnd =>
          if s.compRemaining ≠ 0 ∨ s.unread ≠ [] then
            some (.error (xarError .malformed
              "xar bzip2 stream ended before its declared heap blob"))
          else some (.ok (r.written, input, { s with finished := true }))
        | .memNeeded =>
          some (.error (xarError .limit "xar bzip2 decoder requires more memory"))
        | .ok | .buf =>
          if r.written ≠ [] then some (.ok (r.written, input, s))
          else if r.consumed = 0 ∧ s.unread ≠ [] then
            some (.error (xarError .protocol "xar bzip2 decoder made no progress"))
          else if s.unread = [] ∧ s.compRemaining = 0 then
            some (.error (xarError .malformed "xar bzip2 blob ended without stream end"))
          else readBzip2Payload a room fuel input s

/-- `read_payload` into a buffer of this length. -/
def readPayload (a : Archive) (fuel : ℕ) (input : Input) (payload : Option (Payload a))
    (room : ℕ) : Option (Except StreamError (List Byte × Input × Option (Payload a))) :=
  match payload with
  | none => some (.ok ([], input, none))
  | some payload =>
    if room = 0 then some (.ok ([], input, some payload))
    else match payload with
      | .stored remaining =>
        if remaining = 0 then some (.ok ([], input, some (.stored 0)))
        else
          let (bytes, input) := a.read input (min remaining room)
          if bytes = [] then
            some (.error (xarError .malformed "xar heap ended before the stored blob"))
          else some (.ok (bytes, input, some (.stored (remaining - bytes.length))))
      | .zlib s => (readZlib a room fuel input s).map fun r =>
          r.map fun (bytes, input, s) => (bytes, input, some (.zlib s))
      | .bzip2 s => (readBzip2Payload a room fuel input s).map fun r =>
          r.map fun (bytes, input, s) => (bytes, input, some (.bzip2 s))

/-- The loop that fills a buffer with decoded bytes; a round adds at least one. -/
def fill (a : Archive) (fuel : ℕ) : ℕ → Input → Option (Payload a) → ℕ →
    Option (Except StreamError (List Byte × Input × Option (Payload a)))
  | 0, input, payload, _ => some (.ok ([], input, payload))
  | rounds + 1, input, payload, room =>
    if room = 0 then some (.ok ([], input, payload))
    else match readPayload a fuel input payload room with
      | none => none
      | some (.error e) => some (.error e)
      | some (.ok ([], input, payload)) => some (.ok ([], input, payload))
      | some (.ok (bytes, input, payload)) =>
        (fill a fuel rounds input payload (room - bytes.length)).map fun r =>
          r.map fun (more, input, payload) => (bytes ++ more, input, payload)

namespace XarSeekReader

/-- `account_decoded`. -/
def accountDecoded (r : XarSeekReader a) (count : ℕ) : Except StreamError (XarSeekReader a) :=
  if u64Max < r.decodedTotal + count then .error (xarError .limit "decoded total overflow")
  else if exceeds (r.decodedTotal + count) a.limits.decodedTotal then
    .error (xarError .limit "xar decoded total exceeds limit")
  else .ok { r with decodedTotal := r.decodedTotal + count }

/-- `read_payload_chunk`, and `read_payload_into`. -/
def readPayloadChunk (r : XarSeekReader a) (fuel amount : ℕ) :
    Option (Except StreamError (List Byte × XarSeekReader a)) :=
  (fill a fuel amount r.input r.payload amount).map fun result =>
    match result with
    | .error e => .error e
    | .ok (bytes, input, payload) =>
      ({ r with input, payload }.accountDecoded bytes.length).map fun r => (bytes, r)

/-- `finish_payload`. -/
def finishPayload (r : XarSeekReader a) (fuel : ℕ) :
    Option (Except StreamError (XarSeekReader a)) :=
  (readPayload a fuel r.input r.payload 1).map fun result =>
    match result with
    | .error e => .error e
    | .ok (bytes, input, payload) =>
      if bytes = [] then .ok { r with input, payload }
      else .error (xarError .integrity "xar payload expands beyond its declared length")

/-! ### Entries -/

/-- `begin_payload` with `begin_bzip2_payload`. -/
def beginPayload (r : XarSeekReader a) (data : XarData) : Except StreamError (XarSeekReader a) := do
  let blobStart ← okOr (checkedAdd a.heapStart data.offset)
    (xarError .malformed "xar heap offset overflow")
  let blobEnd ← okOr (checkedAdd blobStart data.storedSize)
    (xarError .malformed "xar heap blob beyond end of file")
  if a.image.length < blobEnd then
    throw (xarError .malformed "xar heap blob beyond end of file")
  if a.limits.decodedTotal.any fun maximum =>
      (checkedAdd r.decodedTotal data.length.toNat).all fun total => decide (maximum < total) then
    throw (xarError .limit "xar decoded total exceeds limit")
  match data.encoding with
  | .stored =>
    if data.storedSize ≠ data.length.toNat then
      throw (xarError .malformed "xar stored blob size and length disagree")
    return { r with
      input := { r.input with position := blobStart }
      payload := some (.stored data.storedSize)
      phase := .data data.length.toNat }
  | .zlib =>
    return { r with
      input := { r.input with position := blobStart }
      payload := some (.zlib ⟨data.storedSize, [], a.zlib.new, false⟩)
      phase := .data data.length.toNat }
  | .bzip2 =>
    if a.limits.codecMemory.any fun maximum => decide (maximum < bzip2SmallMemory) then
      throw (xarError .limit "xar bzip2 workspace exceeds codec memory limit")
    return { r with
      input := { r.input with position := blobStart }
      payload := some (.bzip2 ⟨data.storedSize, [], a.bzip2.new, false⟩)
      phase := .data data.length.toNat }
  | .unsupported => return { r with payload := none, phase := .unsupported }

/-- `ArchivePath::try_from_encoded` of UTF-8. -/
def utf8Path (raw : List Byte) : Except StreamError ArchivePath :=
  if validUtf8 raw then .ok ⟨raw, .utf8⟩
  else .error (.archive (({ kind := .malformed } : ArchiveError).withContext
    "path tagged as UTF-8 contains invalid UTF-8"))

/-- The size that `prepare_record` reports. -/
def sizeOf (record : XarFile) : Option UInt64 :=
  match record.kind with
  | .file => record.data.map (·.length)
  | .dir => some 0
  | _ => none

/-- The metadata that `prepare_record` builds. -/
def metadataOf (record : XarFile) : Except StreamError EntryMetadata := do
  let linkTarget ← match record.linkTarget with
    | none => pure none
    | some target => (utf8Path target).map some
  let path ← utf8Path record.path
  return {
    kind := record.kind
    path
    size := sizeOf record
    linkTarget
    mode := record.mode
    owner := { uid := record.uid, gid := record.gid }
    times := { modified := record.mtime } }

/-- The part of `prepare_record` that opens the payload. -/
def openRecord (r : XarSeekReader a) (record : XarFile) :
    Except StreamError (XarSeekReader a) :=
  match record.kind, record.data with
  | .file, some data => r.beginPayload data
  | _, _ => .ok { r with payload := none, phase := .endEntry }

/-- `prepare_record`. -/
def prepareRecord (r : XarSeekReader a) (record : XarFile) :
    Except StreamError (EntryMetadata × XarSeekReader a) := do
  let r ← r.openRecord record
  let metadata ← metadataOf record
  return (metadata, r)

/-- What a call of `next_event` returns; `none` is `Done`. -/
abbrev Delivered := Option ReaderEvent

/-- The arm `Idle` of `next_event`. -/
def nextIdle (r : XarSeekReader a) : Except StreamError (Delivered × XarSeekReader a) :=
  match a.files[r.nextFile]? with
  | none => .ok (none, { r with phase := .done })
  | some record =>
    ({ r with nextFile := r.nextFile + 1 }.prepareRecord record).map fun (metadata, r) =>
      (some (.entry metadata), r)

/-- The arms `Data` of `next_event`. At the end of the payload the loop goes on to the arm
`EndEntry`. -/
def nextData (r : XarSeekReader a) (fuel remaining : ℕ) :
    Option (Except StreamError (Delivered × XarSeekReader a)) :=
  if remaining = 0 then
    (r.finishPayload fuel).map fun result =>
      result.map fun r => (some .endEntry, { r with payload := none, phase := .idle })
  else
    (r.readPayloadChunk fuel (min remaining buffer)).map fun result =>
      match result with
      | .error e => .error e
      | .ok ([], _) =>
        .error (xarError .integrity "xar heap blob shorter than declared length")
      | .ok (bytes, r) =>
        .ok (some (.data bytes), { r with phase := .data (remaining - bytes.length) })

/-- `next_event`; `none` if a codec keeps it busy for longer than `fuel` calls. -/
def nextEvent (r : XarSeekReader a) (fuel : ℕ) :
    Option (Except StreamError (Delivered × XarSeekReader a)) :=
  if r.archiveMetadata then
    some (.ok (some (.archiveMetadata {}), { r with archiveMetadata := false }))
  else match r.phase with
    | .idle => some r.nextIdle
    | .data remaining => r.nextData fuel remaining
    | .unsupported => some (.error (xarError .unsupported "xar data encoding is unsupported"))
    | .endEntry => some (.ok (some .endEntry, { r with phase := .idle }))
    | .done => some (.ok (none, r))

/-- The loop of `skip_entry`, with the bytes it decodes and throws away. -/
def skipLoop (fuel : ℕ) : ℕ → XarSeekReader a → ℕ →
    Option (Except StreamError (List Byte × XarSeekReader a))
  | 0, r, _ => some (.ok ([], r))
  | rounds + 1, r, remaining =>
    if remaining = 0 then some (.ok ([], r))
    else match r.readPayloadChunk fuel (min remaining buffer) with
      | none => none
      | some (.error e) => some (.error e)
      | some (.ok ([], _)) =>
        some (.error (xarError .integrity "xar heap blob shorter than declared length"))
      | some (.ok (bytes, r)) =>
        (skipLoop fuel rounds r (remaining - bytes.length)).map fun result =>
          result.map fun (more, r) => (bytes ++ more, r)

/-- The arm `Data` of `skip_entry`. -/
def skipData (r : XarSeekReader a) (fuel remaining : ℕ) :
    Option (Except StreamError (List Byte × XarSeekReader a)) :=
  (skipLoop fuel remaining r remaining).bind fun result =>
    match result with
    | .error e => some (.error e)
    | .ok (bytes, r) => (r.finishPayload fuel).map fun result =>
        result.map fun r => (bytes, { r with payload := none, phase := .endEntry })

/-- `skip_entry`, with the bytes it decodes and throws away. -/
def skipEntry (r : XarSeekReader a) (fuel : ℕ) :
    Option (Except StreamError (List Byte × XarSeekReader a)) :=
  match r.phase with
  | .data remaining => r.skipData fuel remaining
  | .unsupported => some (.ok ([], { r with phase := .endEntry }))
  | .endEntry => some (.ok ([], r))
  | .idle | .done =>
    some (.error (xarError .protocol "skip_entry called without an open xar entry"))

end XarSeekReader

end LibarchiveOxide.Xar.Reader
