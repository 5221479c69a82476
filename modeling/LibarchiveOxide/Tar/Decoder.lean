import LibarchiveOxide.Core.Failure
import LibarchiveOxide.Core.Metadata
import LibarchiveOxide.Tar.Header

/-! # The incremental tar source

`TarSource` buffers the bytes it is fed and drives the header, record, sparse-extension and payload
states. `pull` is the loop of `pull_v2`: it polls the current state until an event is ready. Every
round that only advances takes bytes out of the buffer or returns from a record to the headers, so
`2 * available + 2` rounds are enough (`pullLoop_eq` in `Tar.SourceLemmas`). -/

namespace LibarchiveOxide.Tar.Source

open Core.Failure Core.Metadata Tar.Header Tar.Pax

def gnuSparseStart : ℕ := 386
def gnuSparseCount : ℕ := 4
def gnuSparseExtended : ℕ := 482
def gnuSparseRealsize : ℕ × ℕ := (483, 495)
def gnuSparseExtCount : ℕ := 21

/-- Which kind of extended or long header is being accumulated. -/
inductive MetaKind where
  | paxNext
  | paxGlobal
  | longName
  | longLink
deriving DecidableEq

/-- The driver state. -/
inductive State where
  | header
  | payload (remaining pad : ℕ)
  | record (kind : MetaKind) (data pad : ℕ)
  | sparseExtensions (remaining pad : ℕ)
  | done
deriving DecidableEq

/-- Internal state-machine result. -/
inductive Poll where
  | again
  | needInput
  | done
  | endEntry
  | entry
  | data
deriving DecidableEq

/-- What `pull_v2` reports. -/
inductive TarSourceEvent where
  | needInput
  | archiveMetadata (m : ArchiveMetadata)
  | entry (metadata : EntryMetadata) (sparse : List SparseExtent) (isSparse : Bool)
  | data (bytes : List Byte)
  | endEntry
  | done
deriving DecidableEq

/-- The parsed ustar fields of an entry. -/
structure ParsedHeader where
  kind : EntryKind
  path : List Byte
  mode : UInt32
  uid : UInt64
  gid : UInt64
  modified : Option Timestamp
  linkTarget : Option (List Byte)
deriving DecidableEq

/-- What a header block stages for the entry event. -/
structure Stage where
  pending : Overrides := {}
  logicalSize : UInt64 := 0
  sparse : List SparseExtent := []
  isSparse : Bool := false
  uname : List Byte := []
  gname : List Byte := []
  referencedDevice : Option Device := none
deriving DecidableEq

/-- The incremental reader. Its `stage_*` fields are grouped in `stage`. -/
structure TarSource where
  buf : List Byte := []
  cursor : ℕ := 0
  state : State := .header
  finished : Bool := false
  pending : Overrides := {}
  global : Overrides := {}
  record : List Byte := []
  stage : Stage := {}
  payloadChunkLimit : ℕ := u64Max
  globalChanged : Bool := false
  stageLen : ℕ := 0
deriving DecidableEq

/-- The pending and global overrides after a completed record. -/
def recordOverrides (kind : MetaKind) (record : List Byte) (pending global : Overrides) :
    Except Error (Overrides × Overrides) :=
  match kind with
  | .longName => .ok ({ pending with path := some (cstr record) }, global)
  | .longLink => .ok ({ pending with linkpath := some (cstr record) }, global)
  | .paxNext => do return (mergeOwned pending (← parsePax record {}), global)
  | .paxGlobal => do return (pending, mergeOwned global (← parsePax record {}))

namespace TarSource

/-- Bytes available past the cursor. -/
def available (s : TarSource) : ℕ := s.buf.length - s.cursor

/-- The bytes past the cursor. -/
def rest (s : TarSource) : List Byte := s.buf.drop s.cursor

/-- The block at the cursor. -/
def block (s : TarSource) : List Byte := s.rest.take BLOCK

/-- `feed`. -/
def feed (s : TarSource) (input : List Byte) : TarSource := { s with buf := s.buf ++ input }

/-- `finish_input`. -/
def finishInput (s : TarSource) : TarSource := { s with finished := true }

/-- Removes consumed bytes and resets the cursor. -/
def compact (s : TarSource) : TarSource := { s with buf := s.buf.drop s.cursor, cursor := 0 }

/-- `apply_record`: applies the completed record to the pending or global overrides. -/
def applyRecord (s : TarSource) (kind : MetaKind) : Except Error TarSource := do
  let (pending, global) ← recordOverrides kind s.record s.pending s.global
  return { s with pending, global, globalChanged := s.globalChanged || kind == .paxGlobal }

/-- A starvation point: more bytes may still arrive, or the input is truncated. -/
def starved (s : TarSource) (what : String) : Except Error (Poll × TarSource) :=
  if s.finished then .error (.malformed what) else .ok (.needInput, s)

end TarSource

/-! ### Headers -/

/-- The staged device numbers of a device entry. -/
def stageDevice (hdr : List Byte) : Except Error (Option Device) :=
  if byteAt hdr oTypeflag = chr '3' ∨ byteAt hdr oTypeflag = chr '4' then do
    let major ← parseNumeric (field hdr fDevmajor)
    let minor ← parseNumeric (field hdr fDevminor)
    return some ⟨UInt64.ofNat major, UInt64.ofNat minor⟩
  else return none

/-- Whether sparse semantics apply. -/
def stageIsSparse (hdr : List Byte) (pending global : Overrides) : Bool :=
  byteAt hdr oTypeflag == chr 'S' || pending.sparseRealsize.isSome ||
    global.sparseRealsize.isSome ||
    (pending.pax ++ global.pax).any fun r => (bstr "GNU.sparse.").isPrefixOf r.1

/-- The staged extents and the logical size: those of the records, and for an old-GNU header its
descriptors and its real size. -/
def stageSparse (hdr : List Byte) (pending global : Overrides) (physicalSize : ℕ) :
    Except Error (List SparseExtent × UInt64) := do
  let paxSparse ← paxSparseExtents global pending
  if byteAt hdr oTypeflag = chr 'S' then
    let descriptors ← parseGnuSparseDescriptors hdr gnuSparseStart gnuSparseCount
    let real ← parseNumeric (field hdr gnuSparseRealsize)
    return (paxSparse ++ descriptors, UInt64.ofNat real)
  else return (paxSparse,
    (pending.sparseRealsize.or global.sparseRealsize).getD (UInt64.ofNat physicalSize))

/-- `stage_header_metadata`. -/
def stageHeaderMetadata (hdr : List Byte) (pending global : Overrides) (physicalSize : ℕ) :
    Except Error Stage := do
  let referencedDevice ← stageDevice hdr
  let (sparse, logicalSize) ← stageSparse hdr pending global physicalSize
  let isSparse := stageIsSparse hdr pending global
  if isSparse then validateSparseExtents sparse logicalSize.toNat physicalSize
  return {
    pending, logicalSize, sparse, isSparse, referencedDevice
    uname := (pending.uname.or global.uname).getD (cstr (field hdr fUname))
    gname := (pending.gname.or global.gname).getD (cstr (field hdr fGname)) }

/-- The size of an entry: the one the overrides impose or that of its header. -/
def entrySize (hdr : List Byte) (pending global : Overrides) : Except Error ℕ :=
  match pending.size.or global.size with
  | some size => .ok size.toNat
  | none => parseNumeric (field hdr fSize)

/-- The bytes between a payload and the next block boundary. -/
def padding (size : ℕ) : Except Error ℕ := do return (← roundUp size) - (← usizeOf size)

/-- The stored size, the padding and the staged metadata of an entry header. -/
def stageEntry (hdr : List Byte) (pending global : Overrides) : Except Error (ℕ × ℕ × Stage) := do
  let size ← entrySize hdr pending global
  let pad ← padding size
  return (size, pad, ← stageHeaderMetadata hdr pending global size)

/-- An old-GNU sparse header that is followed by extension blocks. -/
def isExtended (hdr : List Byte) : Bool :=
  byteAt hdr oTypeflag == chr 'S' && byteAt hdr gnuSparseExtended != 0

/-- The kind of record a typeflag announces, if it is one. -/
def metaKindOf (typeflag : Byte) : Option MetaKind :=
  if typeflag = chr 'g' then some .paxGlobal
  else if typeflag = chr 'L' then some .longName
  else if typeflag = chr 'K' then some .longLink
  else if typeflag = chr 'x' ∨ typeflag = chr 'X' then some .paxNext
  else none

/-- What a header block that is not all zero announces: a record, or an entry with its stored size,
its padding and its staged metadata. -/
inductive Announced where
  | record (kind : MetaKind) (data pad : ℕ)
  | entry (size pad : ℕ) (stage : Stage)
deriving DecidableEq

/-- The part of `poll_header` that reads the block. -/
def readHeader (hdr : List Byte) (pending global : Overrides) : Except Error Announced := do
  verifyChecksum hdr
  let rawSize ← parseNumeric (field hdr fSize)
  match metaKindOf (byteAt hdr oTypeflag) with
  | some kind =>
    let data ← usizeOf rawSize
    return .record kind data ((← roundUp rawSize) - data)
  | none =>
    let (size, pad, stage) ← stageEntry hdr pending global
    return .entry size pad stage

namespace TarSource

/-- The source after a header block was taken. An entry takes the pending overrides. -/
def enter (s : TarSource) : Announced → Poll × TarSource
  | .record kind data pad =>
    (.again, { s with cursor := s.cursor + BLOCK, record := [], state := .record kind data pad })
  | .entry size pad stage =>
    let s' := { s with
      pending := {}, stage, payloadChunkLimit := u64Max, cursor := s.cursor + BLOCK }
    if isExtended s.block then (.again, { s' with state := .sparseExtensions size pad })
    else (.entry, { s' with state := .payload size pad })

/-- `poll_header`. -/
def pollHeader (s : TarSource) : Except Error (Poll × TarSource) :=
  if s.available < BLOCK then
    if s.finished then .ok (.done, { s with state := .done }) else .ok (.needInput, s)
  else if s.block.all (· == 0) then .ok (.done, { s with state := .done })
  else do return s.enter (← readHeader s.block s.pending s.global)

/-- `poll_sparse_extension`. -/
def pollSparseExtension (s : TarSource) (remaining pad : ℕ) : Except Error (Poll × TarSource) :=
  if s.available < BLOCK then s.starved "tar: truncated GNU sparse extension header"
  else do
    let more ← parseGnuSparseDescriptors s.block 0 gnuSparseExtCount
    let extended := byteAt s.block 504 ≠ 0
    let s := { s with
      stage := { s.stage with sparse := s.stage.sparse ++ more }, cursor := s.cursor + BLOCK }
    if extended then return (.again, { s with state := .sparseExtensions remaining pad })
    else
      validateSparseExtents s.stage.sparse s.stage.logicalSize.toNat remaining
      return (.entry, { s with state := .payload remaining pad })

/-- `poll_meta`. -/
def pollMeta (s : TarSource) (kind : MetaKind) (data pad : ℕ) : Except Error (Poll × TarSource) :=
  if 0 < data then
    if s.available = 0 then s.starved "tar: truncated extended header"
    else
      let n := min data s.available
      .ok (.again, { s with
        record := s.record ++ s.rest.take n
        cursor := s.cursor + n
        state := .record kind (data - n) pad })
  else if 0 < pad then
    if s.available = 0 then s.starved "tar: truncated extended header"
    else
      let n := min pad s.available
      .ok (.again, { s with cursor := s.cursor + n, state := .record kind data (pad - n) })
  else do
    let s ← s.applyRecord kind
    return (.again, { s with record := [], state := .header })

/-- `poll_payload`. -/
def pollPayload (s : TarSource) (remaining pad : ℕ) : Except Error (Poll × TarSource) :=
  if 0 < remaining then
    if s.available = 0 then s.starved "tar: truncated payload"
    else do
      let want := min (min (← usizeOf remaining) s.available) s.payloadChunkLimit
      if want = 0 then return (.needInput, s)
      else return (.data, { s with
        cursor := s.cursor + want
        state := .payload (remaining - want) pad
        stageLen := want })
  else if 0 < pad then
    if s.available = 0 then s.starved "tar: truncated payload padding"
    else
      let n := min pad s.available
      .ok (.again, { s with cursor := s.cursor + n, state := .payload remaining (pad - n) })
  else .ok (.endEntry, { s with state := .header })

/-- `take_global_metadata`, when a global record changed. -/
def globalMetadata (s : TarSource) : ArchiveMetadata :=
  { extensions := s.global.pax.map fun r => ⟨"pax", r.1, r.2⟩ }

/-- One poll of the current state. -/
def poll (s : TarSource) : Except Error (Poll × TarSource) :=
  match s.state with
  | .done => .ok (.done, s)
  | .header => s.pollHeader
  | .record kind data pad => s.pollMeta kind data pad
  | .sparseExtensions remaining pad => s.pollSparseExtension remaining pad
  | .payload remaining pad => s.pollPayload remaining pad

end TarSource

/-! ### Entry metadata -/

/-- `parse_source_header`. -/
def parseSourceHeader (hdr : List Byte) (pending global : Overrides) :
    Except Error ParsedHeader := do
  let kind := kindFromTypeflag (byteAt hdr oTypeflag)
  let name := cstr (field hdr fName)
  let pre := cstr (field hdr fPrefix)
  let isUstar := (bstr "ustar").isPrefixOf (field hdr fMagic)
  let path := (pending.path.or global.path).getD
    (if isUstar && !pre.isEmpty then joinPrefixName pre name else name)
  let linkTarget :=
    if kind = .symlink ∨ kind = .hardlink then
      some ((pending.linkpath.or global.linkpath).getD (cstr (field hdr fLinkname)))
    else none
  let mtime := (pending.mtime.or global.mtime).or
    ((parseNumeric (field hdr fMtime)).toOption.map fun secs =>
      Timestamp.fromSeconds ((i64Of secs).getD i64Max))
  let uid ← match pending.uid.or global.uid with
    | some uid => pure uid
    | none => UInt64.ofNat <$> parseNumeric (field hdr fUid)
  let gid ← match pending.gid.or global.gid with
    | some gid => pure gid
    | none => UInt64.ofNat <$> parseNumeric (field hdr fGid)
  let mode ← parseNumeric (field hdr fMode)
  return { kind, path, mode := UInt32.ofNat (mode &&& 0o7777), uid, gid, modified := mtime,
           linkTarget }

/-- The keys whose values are access-control records. -/
def isAclKey (key : List Byte) : Bool :=
  key == bstr "SCHILY.acl.access" || key == bstr "SCHILY.acl.default" ||
    key == bstr "LIBARCHIVE.acl.access" || key == bstr "LIBARCHIVE.acl.default"

/-- One raw record added to the metadata under construction. -/
def addPaxRecord (m : EntryMetadata) (r : List Byte × List Byte) : EntryMetadata :=
  let m :=
    if (bstr "SCHILY.xattr.").isPrefixOf r.1 then
      { m with xattrs := m.xattrs ++ [(r.1.drop (bstr "SCHILY.xattr.").length, r.2)] }
    else if isAclKey r.1 then { m with acl := m.acl ++ [r.2] }
    else m
  { m with extensions := m.extensions ++ [⟨"pax", r.1, r.2⟩] }

/-- `add_pax_metadata`. -/
def addPaxMetadata (m : EntryMetadata) (records : List (List Byte × List Byte)) : EntryMetadata :=
  records.foldl addPaxRecord m

/-- `rich_metadata`. -/
def richMetadata (stage : Stage) (global : Overrides) (h : ParsedHeader) : EntryMetadata :=
  let base : EntryMetadata :=
    { kind := h.kind
      path := .fromBytes h.path
      size := some stage.logicalSize
      mode := some h.mode
      owner :=
        { uid := some h.uid
          gid := some h.gid
          user := if stage.uname.isEmpty then none else some stage.uname
          group := if stage.gname.isEmpty then none else some stage.gname }
      times :=
        { modified := (stage.pending.mtime.or global.mtime).or h.modified
          accessed := stage.pending.atime.or global.atime
          changed := stage.pending.ctime.or global.ctime
          created := stage.pending.birthtime.or global.birthtime }
      device := none
      referencedDevice := stage.referencedDevice
      linkTarget := h.linkTarget.map .fromBytes
      sparse := stage.sparse }
  addPaxMetadata (addPaxMetadata base global.pax) stage.pending.pax

namespace TarSource

/-- The last window of the buffer's first `n + BLOCK` bytes, at an offset of at most `n`, that has
a valid checksum (`windows(BLOCK).rposition(..)`). -/
def rpositionHeader (buf : List Byte) : ℕ → Option ℕ
  | 0 => if (verifyChecksum (buf.take BLOCK)).isOk then some 0 else none
  | n + 1 =>
    if (verifyChecksum ((buf.drop (n + 1)).take BLOCK)).isOk then some (n + 1)
    else rpositionHeader buf n

/-- Where the header block of the staged entry is looked for: the block before the cursor, or else
the last earlier window with a valid checksum. -/
def headerStart (s : TarSource) : ℕ :=
  if BLOCK ≤ s.cursor ∧ s.cursor ≤ s.buf.length ∧
      (verifyChecksum ((s.buf.drop (s.cursor - BLOCK)).take BLOCK)).isOk then s.cursor - BLOCK
  else if s.cursor ≤ s.buf.length ∧ BLOCK ≤ s.cursor then
    (rpositionHeader s.buf (s.cursor - BLOCK)).getD 0
  else 0

/-- The event of a staged entry. -/
def entryEvent (s : TarSource) : Except Error TarSourceEvent :=
  match s.state with
  | .payload _ _ => do
    let start := s.headerStart
    if s.buf.length < start + BLOCK then throw (.malformed "staged tar header disappeared")
    let header ← parseSourceHeader ((s.buf.drop start).take BLOCK) s.stage.pending s.global
    return .entry (richMetadata s.stage s.global header) s.stage.sparse s.stage.isSparse
  | _ => .error (.invalidState "tar entry was not staged")

/-- The loop of `pull_v2`. -/
def pullLoop : ℕ → TarSource → Except Error (TarSourceEvent × TarSource)
  | 0, s => .ok (.needInput, s)
  | n + 1, s =>
    if s.globalChanged then
      .ok (.archiveMetadata s.globalMetadata, { s with globalChanged := false })
    else do
      let (p, s) ← s.poll
      match p with
      | .again => pullLoop n s
      | .needInput => return (.needInput, s)
      | .done => return (.done, s)
      | .endEntry => return (.endEntry, s)
      | .entry => return (← s.entryEvent, s)
      | .data => return (.data ((s.buf.drop (s.cursor - s.stageLen)).take s.stageLen), s)

/-- `pull_v2`. -/
def pull (s : TarSource) : Except Error (TarSourceEvent × TarSource) :=
  let s := s.compact
  pullLoop (2 * s.available + 2) s

end TarSource

end LibarchiveOxide.Tar.Source

/-! # The tar decoder

`TarDecoder.step` wraps the source: it materializes the holes of sparse entries out of the scratch
buffer, hands new input to the source only when the source asked for it, and charges every event
against the budgets. -/

namespace LibarchiveOxide.Tar.Decoder

open Core.Failure Core.Budget Core.Metadata Core.Protocol Tar.Header Tar.Source

/-- An error of the tar decoder or encoder. -/
def tarError (kind : ErrorKind) (context : String) : ArchiveError := .inFormat "tar" kind context

/-- The decoder. -/
structure TarDecoder where
  source : TarSource := {}
  limits : Limits
  needsInput : Bool := true
  inputFinished : Bool := false
  done : Bool := false
  entries : ℕ := 0
  entryBytes : ℕ := 0
  totalBytes : ℕ := 0
  metadataBytes : ℕ := 0
  sparseActive : Bool := false
  sparse : List SparseExtent := []
  sparseIndex : ℕ := 0
  logicalPosition : ℕ := 0
  logicalSize : ℕ := 0
deriving DecidableEq

/-- `check_limit_u64`. -/
def checkLimit (actual : ℕ) (limit : Option ℕ) (message : String) : Except ArchiveError Unit :=
  if exceeds actual limit then .error (tarError .limit message) else .ok ()

/-- The index past the extents that end at the position. -/
def skipFinished (sparse : List SparseExtent) (index position : ℕ) : ℕ :=
  index + ((sparse.drop index).takeWhile fun e => position == e.end).length

/-- `entry_metadata_cost`. -/
def entryMetadataCost (m : EntryMetadata) : Except ArchiveError ℕ :=
  okOr
    ((((checkedAdd m.path.raw.length ((m.linkTarget.map (·.raw.length)).getD 0)).bind
      (checkedAdd · (m.extensions.map fun e => e.key.length + e.value.length).sum)).bind
      (checkedAdd · (m.xattrs.map fun x => x.1.length + x.2.length).sum)).bind
      (checkedAdd · (m.acl.map List.length).sum))
    (tarError .limit "metadata accounting overflow")

namespace TarDecoder

/-- `TarDecoder::new`. -/
def new (limits : Limits) : TarDecoder := { limits }

/-- `account_data`, also the accounting of the `Data` event. -/
def accountData (d : TarDecoder) (length : ℕ) : Except ArchiveError TarDecoder := do
  let entryBytes ← okOr (checkedAdd d.entryBytes length)
    (tarError .limit "entry byte count overflow")
  let totalBytes ← okOr (checkedAdd d.totalBytes length)
    (tarError .limit "decoded byte count overflow")
  checkLimit entryBytes d.limits.entryBytes "entry bytes exceed limit"
  checkLimit totalBytes d.limits.decodedTotal "decoded bytes exceed limit"
  return { d with entryBytes, totalBytes }

/-- Sets the largest payload window the source may report. -/
def setChunkLimit (d : TarDecoder) (limit : ℕ) : TarDecoder :=
  { d with source := { d.source with payloadChunkLimit := limit } }

/-- `sparse_hole`: a step that fills the scratch buffer with zeros, if the position is in a hole; the
decoder ready for the source otherwise. -/
def sparseHole (d : TarDecoder) (outputLen : ℕ) :
    Except ArchiveError (Option DecodeStep × TarDecoder) :=
  if !d.sparseActive then .ok (none, d.setChunkLimit u64Max)
  else
    let d := { d with sparseIndex := skipFinished d.sparse d.sparseIndex d.logicalPosition }
    let nextData := (d.sparse[d.sparseIndex]?.map (·.offset)).getD d.logicalSize
    if d.logicalPosition < nextData then
      if outputLen = 0 then .ok (some ⟨0, 0, .needOutput⟩, d)
      else do
        let count := min (nextData - d.logicalPosition) outputLen
        let d := { d with logicalPosition := (d.logicalPosition + count) % 2 ^ 64 }
        let d ← d.accountData count
        return (some ⟨0, count, .data (List.replicate count 0)⟩, d)
    else
      match d.sparse[d.sparseIndex]? with
      | some e => .ok (none, d.setChunkLimit (e.end - d.logicalPosition))
      | none => .ok (none, d.setChunkLimit u64Max)

/-- The checks and the bookkeeping of a new entry. -/
def beginEntry (d : TarDecoder) (m : EntryMetadata) (sparse : List SparseExtent)
    (isSparse : Bool) : Except ArchiveError TarDecoder := do
  let entries ← okOr (checkedAdd d.entries 1) (tarError .limit "entry count overflow")
  checkLimit entries d.limits.entries "entry count exceeds limit"
  if exceeds m.path.raw.length d.limits.pathBytes then
    throw (((({ kind := .limit } : ArchiveError).withFormat "tar").withEntry
      (entries - 1) m.path.raw).withContext "entry path exceeds limit")
  let logicalSize := (m.size.map UInt64.toNat).getD 0
  checkLimit logicalSize d.limits.entryBytes "entry size exceeds limit"
  let cost ← entryMetadataCost m
  let metadataBytes ← okOr (checkedAdd d.metadataBytes cost)
    (tarError .limit "metadata accounting overflow")
  if exceeds metadataBytes d.limits.metadataBytes then
    throw (tarError .limit "metadata exceeds configured limit")
  return { d with
    entries, metadataBytes, entryBytes := 0, sparseActive := isSparse, sparse
    sparseIndex := 0, logicalPosition := 0, logicalSize }

/-- The sparse position after a data window, which must lie inside the current extent. -/
def advanceSparse (d : TarDecoder) (length : ℕ) : Except ArchiveError TarDecoder :=
  if !d.sparseActive then .ok d
  else do
    let e ← okOr d.sparse[d.sparseIndex]?
      (tarError .malformed "sparse payload exceeds declared extents")
    let next ← okOr (checkedAdd d.logicalPosition length)
      (tarError .limit "sparse logical position overflow")
    if d.logicalPosition < e.offset ∨ e.end < next then
      throw (tarError .malformed "sparse payload does not match extent map")
    return { d with logicalPosition := next }

/-- The feeding part of `step`: the bytes accepted by the source, if it asked for input. -/
def feedInput (d : TarDecoder) (input : List Byte) : Except ArchiveError (ℕ × TarDecoder) :=
  if d.needsInput && !input.isEmpty then
    let acceptedLimit := (d.limits.inFlightBytes.map fun limit =>
      min (limit - d.source.buf.length) input.length).getD input.length
    if acceptedLimit = 0 then .error (tarError .limit "in-flight buffer budget was exhausted")
    else .ok (acceptedLimit, { d with
      source := d.source.feed (input.take acceptedLimit), needsInput := false })
  else .ok (0, d)

/-- The event of the source charged and translated. -/
def handle (d : TarDecoder) : TarSourceEvent → Except ArchiveError (DecodeEvent × TarDecoder)
  | .needInput =>
    if d.inputFinished then .error (tarError .malformed "unexpected end of tar input")
    else .ok (.needInput, { d with needsInput := true })
  | .archiveMetadata m => .ok (.archiveMetadata m, d)
  | .entry m sparse isSparse => do return (.entry m, ← d.beginEntry m sparse isSparse)
  | .data bytes => do
    let d ← d.advanceSparse bytes.length
    return (.data bytes, ← d.accountData bytes.length)
  | .endEntry =>
    if d.sparseActive ∧ d.logicalPosition ≠ d.logicalSize then
      .error (tarError .malformed "sparse payload ended before logical size")
    else .ok (.endEntry, { d with sparseActive := false })
  | .done => .ok (.done, { d with done := true })

/-- The end of the input, once the source has all of it. -/
def noteEnd (d : TarDecoder) (eoi : EndOfInput) (consumed inputLen : ℕ) : TarDecoder :=
  if eoi = .end ∧ consumed = inputLen ∧ !d.inputFinished then
    { d with source := d.source.finishInput, inputFinished := true }
  else d

/-- `TarDecoder::step`. -/
def step (d : TarDecoder) (input : List Byte) (outputLen : ℕ) (eoi : EndOfInput) :
    Except ArchiveError (DecodeStep × TarDecoder) :=
  if d.done then
    if !input.isEmpty then .error (tarError .protocol "input supplied after archive end")
    else .ok (⟨0, 0, .done⟩, d)
  else if d.limits.inFlightBytes.any (fun limit => decide (limit < BLOCK)) then
    .error (tarError .limit "in-flight limit is smaller than one tar block")
  else do
    let (hole, d) ← d.sparseHole outputLen
    match hole with
    | some step => return (step, d)
    | none =>
      let (consumed, d) ← d.feedInput input
      let d := d.noteEnd eoi consumed input.length
      let (event, source) ← liftError d.source.pull
      let (event, d) ← ({ d with source } : TarDecoder).handle event
      return (⟨consumed, 0, event⟩, d)

end TarDecoder

/-- `TarDecoder::probe`. -/
def probe (pre : List Byte) : ProbeResult Unit :=
  if pre.length < BLOCK then .needMore BLOCK
  else if (pre.take BLOCK).all (· == 0) then
    if pre.length < 17 * 2048 + 6 then .needMore (17 * 2048 + 6) else .isMatch ()
  else if (verifyChecksum (pre.take BLOCK)).isOk then .isMatch ()
  else .noMatch

end LibarchiveOxide.Tar.Decoder
