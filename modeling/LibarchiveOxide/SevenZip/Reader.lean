import LibarchiveOxide.SevenZip.Header
import LibarchiveOxide.Stream.Event

/-! # The 7z reader

One folder's decoder is live at a time; reading, skipping, hydrating a link and draining to an offset
all move its position. A folder's decoder is modelled by the bytes it yields, which come in pieces of
any size; a running CRC by the bytes that went into it. The state after a failed call is not kept:
runs end there. -/

namespace LibarchiveOxide.SevenZip.Reader

open Core.Failure Core.Metadata Core.Budget Lib Stream.Event SevenZip.Wire SevenZip.Graph
open SevenZip.Header

/-- What the reader is given: the digest function, what `build_folder_reader` makes of each folder,
and whether there is a password. -/
structure Env where
  crc32 : List Byte → UInt32
  decode : ℕ → Except ArchiveError (List Byte)
  hasPassword : Bool := false

/-- How many bytes the decoder returns when it is read for the `i`th time with room for `n`: at
least one, as long as there are any. -/
structure Chunking where
  count : ℕ → ℕ → ℕ
  count_pos : ∀ i n, 0 < n → 0 < count i n

/-- The source, or the live decoder with the bytes it has yet to yield. -/
inductive SevenInput where
  | source
  | decoder (left : List Byte)
deriving DecidableEq

/-- Where the reader is. -/
inductive SevenPhase where
  | idle
  | data (remaining : ℕ)
  | unsupported
  | endEntry
  | done
deriving DecidableEq

/-- The state of the reader. -/
structure SevenZSeekReader where
  input : SevenInput := .source
  limits : Limits
  archiveMetadata : Option ArchiveMetadata
  files : List FileRec
  folders : List FolderInfo
  activeFolder : Option ℕ := none
  nextFile : ℕ := 0
  phase : SevenPhase := .idle
  decodedPosition : ℕ := 0
  decodedTotal : ℕ := 0
  entryCrc : Option (List Byte × UInt32) := none
  activeFolderEncrypted : Bool := false
  reads : ℕ := 0

/-- A call of the reader. -/
abbrev Act := StateT SevenZSeekReader (Except ArchiveError)

/-- A failed call. -/
def fail {α : Type} (kind : ErrorKind) (context : String) : Act α := throw (sevenError kind context)

variable (env : Env) (ch : Chunking)

/-! ### The decoder -/

/-- `has_decoder`. -/
def SevenZSeekReader.hasDecoder (r : SevenZSeekReader) : Bool :=
  match r.input with
  | .decoder _ => true
  | .source => false

/-- `account_decoded`. -/
def accountDecoded (count : ℕ) : Act Unit := do
  let r ← get
  match checkedAdd r.decodedPosition count with
  | none => fail .limit "folder position overflow"
  | some position =>
    match checkedAdd r.decodedTotal count with
    | none => fail .limit "decoded total overflow"
    | some total =>
      if exceeds total r.limits.decodedTotal then
        fail .limit "decoded total exceeds configured limit"
      else set { r with decodedPosition := position, decodedTotal := total }

/-- `read_decoded` (and `read_decoded_into_event`) into a buffer of `amount` bytes. -/
def readDecoded (amount : ℕ) : Act (List Byte) := do
  let r ← get
  match r.input with
  | .source => fail .unsupported "payload coder is unsupported"
  | .decoder left => do
    let count := min (min (ch.count r.reads amount) amount) left.length
    set { r with input := .decoder (left.drop count), reads := r.reads + 1 }
    accountDecoded count
    pure (left.take count)

/-- The size of the scratch buffers and of the largest data event. -/
def bufferSize : ℕ := 64 * 1024

/-- Folds bytes into the running CRC of the open entry, if it has one. -/
def updateCrc (bs : List Byte) : Act Unit := modify fun r =>
  { r with entryCrc := r.entryCrc.map fun c => (c.1 ++ bs, c.2) }

/-- Folds bytes into the running CRC, or not. -/
def updateCrcIf (fold : Bool) (bs : List Byte) : Act Unit :=
  if fold then updateCrc bs else pure ()

/-- The loops that read a number of bytes, with a buffer of at most `cap` bytes, and fold them into
the running CRC or not. Every round reads a byte, so `remaining` rounds are enough. -/
def readLoop (cap : ℕ) (fold : Bool) (context : String) : ℕ → ℕ → Act (List Byte)
  | 0, _ => pure []
  | fuel + 1, remaining =>
    if remaining = 0 then pure []
    else do
      let bs ← readDecoded ch (min remaining cap)
      if bs.isEmpty then fail .malformed context
      updateCrcIf fold bs
      let more ← readLoop cap fold context fuel (remaining - bs.length)
      pure (bs ++ more)

/-- `drain_to`. -/
def drainTo (offset : ℕ) : Act Unit := do
  let r ← get
  if offset < r.decodedPosition then fail .malformed "substream offsets are not monotonic"
  let remaining := offset - r.decodedPosition
  let _ ← readLoop ch bufferSize false "folder ended before a substream offset" remaining remaining
  pure ()

/-- `read_decoded_exact`. -/
def readDecodedExact (n : ℕ) : Act (List Byte) :=
  readLoop ch n false "folder ended before the declared entry size" n n

/-- `verify_entry_crc`. -/
def verifyEntryCrc : Act Unit := do
  let r ← get
  match r.entryCrc with
  | none => pure ()
  | some (bs, expected) => do
    if env.crc32 bs ≠ expected then
      fail .integrity (if r.activeFolderEncrypted then "wrong password or corrupt data"
        else "substream CRC-32 mismatch")
    set { r with entryCrc := none }

/-! ### Folders -/

/-- `finalize_active_folder`. -/
def finalizeActiveFolder : Act Unit := do
  let r ← get
  match r.activeFolder with
  | none => pure ()
  | some index =>
    if r.hasDecoder then
      match r.folders[index]? with
      | none => fail .protocol "active folder index out of range"
      | some folder => do
        if r.decodedPosition ≠ folder.unpackSize then
          fail .malformed "decoded folder size does not match its header"
        let extra ← readDecoded ch 1
        if !extra.isEmpty then fail .integrity "folder produced data past its declared size"
    else pure ()

/-- `set_active_folder`: whether a decoder is live afterwards. -/
def setActiveFolder (folderIndex : ℕ) : Act Bool := do
  let r ← get
  if r.activeFolder = some folderIndex then pure r.hasDecoder
  else do
    finalizeActiveFolder ch
    let r ← get
    match r.folders[folderIndex]? with
    | none => fail .protocol "folder index out of range"
    | some folder => do
      if folder.isDecodable && folder.isEncrypted && !env.hasPassword then
        fail .unsupported "7z AES entry requires a password"
      let r := { r with
        decodedPosition := 0
        activeFolder := some folderIndex
        activeFolderEncrypted := folder.isEncrypted
        input := .source }
      if folder.isDecodable then do
        let bytes ← liftM (env.decode folderIndex)
        set { r with input := .decoder bytes }
        pure true
      else do
        set r
        pure false

/-! ### Entries -/

/-- `ArchivePath::try_from_encoded` with UTF-8. -/
def utf8Path (raw : List Byte) : Except ArchiveError ArchivePath := do
  validateEncodedPath ⟨raw, .utf8⟩
  .ok ⟨raw, .utf8⟩

/-- The metadata of a record. -/
def metadataOf (record : FileRec) (path : ArchivePath) (linkTarget : Option ArchivePath) :
    EntryMetadata where
  kind := record.kind
  path := path
  size := some (UInt64.ofNat record.size)
  linkTarget := linkTarget
  mode := some (UInt32.ofNat record.mode)
  times := record.times
  extensions :=
    [⟨"7z-property", bstr "stream-offset", leBytes 8 record.streamOffset⟩] ++
      (if record.anti then [⟨"7z-property", bstr "anti", [1]⟩] else []) ++
      match record.startPosition with
      | some position => [⟨"7z-property", bstr "start-position", leBytes 8 position⟩]
      | none => []

/-- The live decoder is moved onto the folder of a record. -/
def selectFolder (record : FileRec) : Act Bool :=
  match record.hasStream, record.folderIndex with
  | true, some folderIndex => setActiveFolder env ch folderIndex
  | _, _ => pure false

/-- The target of a symbolic link, which is the content of its entry. -/
def hydrate (record : FileRec) : Act ArchivePath := do
  let r ← get
  if exceeds record.size r.limits.pathBytes then
    fail .limit "symbolic-link target exceeds path limit"
  let target ← readDecodedExact ch record.size
  updateCrc target
  verifyEntryCrc env
  liftM (utf8Path target)

/-- The phase in which a record is left open, and its link target. -/
def openRecord (record : FileRec) (hasDecoder : Bool) : Act (Option ArchivePath) :=
  if record.hasStream && record.kind == .symlink && hasDecoder then do
    let target ← hydrate env ch record
    modify fun r => { r with phase := .endEntry }
    pure (some target)
  else do
    modify fun r => { r with
      phase := if record.hasStream then (if hasDecoder then .data record.size else .unsupported)
        else .endEntry }
    pure none

/-- The rest of `prepare_record`, once the decoder stands at the content of the record. -/
def describeRecord (record : FileRec) (hasDecoder : Bool) : Act EntryMetadata := do
  modify fun r => { r with
    entryCrc := if record.hasStream && hasDecoder then record.crc.map fun e => ([], e) else none }
  let linkTarget ← openRecord env ch record hasDecoder
  let path ← liftM (utf8Path record.name)
  pure (metadataOf record path linkTarget)

/-- `prepare_record`. -/
def prepareRecord (record : FileRec) : Act EntryMetadata := do
  let hasDecoder ← selectFolder env ch record
  if record.hasStream && hasDecoder then do
    drainTo ch record.streamOffset
    describeRecord env ch record hasDecoder
  else describeRecord env ch record hasDecoder

/-- `next_event`; `none` is `Done`. -/
def nextEvent : Act (Option ReaderEvent) := do
  let r ← get
  match r.archiveMetadata with
  | some m => do
    set { r with archiveMetadata := none }
    pure (some (.archiveMetadata m))
  | none =>
    match r.phase with
    | .idle =>
      match r.files[r.nextFile]? with
      | none => do
        finalizeActiveFolder ch
        modify fun r => { r with phase := .done }
        pure none
      | some record => do
        set { r with nextFile := r.nextFile + 1 }
        let m ← prepareRecord env ch record
        pure (some (.entry m))
    | .data remaining =>
      if remaining = 0 then do
        verifyEntryCrc env
        modify fun r => { r with phase := .idle }
        pure (some .endEntry)
      else do
        let bs ← readDecoded ch (min remaining bufferSize)
        if bs.isEmpty then fail .malformed "folder ended before the declared substream size"
        updateCrc bs
        modify fun r => { r with phase := .data (remaining - bs.length) }
        pure (some (.data bs))
    | .unsupported => fail .unsupported "payload coder is unsupported"
    | .endEntry => do
      set { r with phase := .idle }
      pure (some .endEntry)
    | .done => pure none

/-- `skip_entry`. -/
def skipEntry : Act Unit := do
  let r ← get
  match r.phase with
  | .data remaining => do
    let _ ← readLoop ch bufferSize true "folder ended while skipping a substream" remaining remaining
    verifyEntryCrc env
    modify fun r => { r with phase := .endEntry }
  | .unsupported => set { r with phase := .endEntry }
  | .endEntry => pure ()
  | .idle | .done => fail .protocol "skip_entry called without an open 7z entry"

end LibarchiveOxide.SevenZip.Reader
