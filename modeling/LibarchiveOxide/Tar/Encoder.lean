import LibarchiveOxide.Tar.Decoder

/-! # The tar encoder

Headers and alignment bytes are staged in `pending` and drained in front of the next command. The
header writers append to the staging buffer as they go, so what they appended survives a failure:
they live in `SinkM`, and a step returns the encoder with its result, also when it fails. -/

namespace LibarchiveOxide.Tar.Encoder

open Core.Failure Core.Budget Core.Metadata Core.Protocol Lib.Slice Tar.Header Tar.Pax Tar.Source
open Tar.Decoder

/-- A writer into the staging buffer; a failure keeps what was appended before it. -/
abbrev SinkM := ExceptT Error (StateM (List Byte))

/-- `extend_from_slice`. -/
def extend (bytes : List Byte) : SinkM Unit := modify (· ++ bytes)

/-- `write_zeros`. -/
def writeZeros (count : ℕ) : SinkM Unit := do
  let sink ← get
  let _ ← okOr (checkedAdd sink.length count) (Error.limitExceeded "tar output length overflow")
  extend (List.replicate count 0)

/-! ### Extension headers -/

/-- `write_pax_header`. -/
def writePaxHeader (records : List Byte) (typeflag : Byte) : SinkM Unit := do
  let header ← buildHeader (bstr "././@PaxHeader") 0o644 0 0 records.length 0 typeflag []
  extend header
  extend records
  writeZeros ((← roundUp records.length) - records.length)

/-- `write_gnu_ext`: a long name (`'L'`) or a long link (`'K'`), with its trailing NUL. -/
def writeGnuExt (flag : Byte) (data : List Byte) : SinkM Unit := do
  let size := data.length + 1
  let header ← buildHeader (bstr "././@LongLink") 0 0 0 size 0 flag []
  extend header
  extend data
  extend [0]
  writeZeros ((← roundUp size) - (data.length + 1))

/-! ### Entry headers -/

/-- The typed fields of an entry header. -/
structure HeaderView where
  kind : EntryKind
  path : List Byte
  mode : UInt32
  uid : UInt64
  gid : UInt64
  modified : Option Timestamp
  size : ℕ
  linkTarget : Option (List Byte)
deriving DecidableEq

/-- `HeaderView::from_metadata`. -/
def HeaderView.fromMetadata (m : EntryMetadata) (size : ℕ) : HeaderView where
  kind := m.kind
  path := m.path.raw
  mode := m.mode.getD (defaultMode m.kind)
  uid := m.owner.uid.getD 0
  gid := m.owner.gid.getD 0
  modified := m.times.modified
  size := size
  linkTarget := m.linkTarget.map (·.raw)

/-- The mtime field: whole seconds, negative ones cut to zero. -/
def HeaderView.mtime (v : HeaderView) : ℕ := (v.modified.map fun t => t.secs.toInt.toNat).getD 0

/-- `write_header`. -/
def writeHeader (v : HeaderView) : SinkM Unit := do
  let typeflag ← typeflagFor v.kind
  if 100 < v.path.length then writeGnuExt (chr 'L') v.path
  match v.linkTarget with
  | some link => if 100 < link.length then writeGnuExt (chr 'K') link
  | none => pure ()
  let h ← buildHeader (v.path.take 100) (v.mode &&& 0o7777).toNat v.uid.toNat v.gid.toNat v.size
    v.mtime typeflag ((v.linkTarget.getD []).take 100)
  extend h

/-- The value of the `GNU.sparse.map` record. -/
def sparseMapValue : List SparseExtent → List Byte
  | [] => []
  | [e] => decimalBytes e.offset ++ chr ',' :: decimalBytes e.length
  | e :: rest =>
    decimalBytes e.offset ++ chr ',' :: decimalBytes e.length ++ chr ',' :: sparseMapValue rest

/-- The key of an extended-attribute record. -/
def xattrKey (name : List Byte) : List Byte := bstr "SCHILY.xattr." ++ name

/-- The extensions in the `pax` namespace. -/
def paxExtensions (m : EntryMetadata) : List Extension :=
  m.extensions.filter fun e => e.namespace_ == "pax"

/-- The preserved records that are written again: a sparse entry writes its own map and sizes. -/
def preservedPairs (m : EntryMetadata) (sparse : Bool) : List (List Byte × List Byte) :=
  ((paxExtensions m).filter fun e => !(sparse && (e.key == bstr "GNU.sparse.map" ||
    e.key == bstr "GNU.sparse.size" || e.key == bstr "GNU.sparse.realsize"))).map
    fun e => (e.key, e.value)

/-- The records of the user and the group name. -/
def ownerPairs (m : EntryMetadata) : List (List Byte × List Byte) :=
  (m.owner.user.map fun u => (bstr "uname", u)).toList ++
    (m.owner.group.map fun g => (bstr "gname", g)).toList

/-- The records of the four times. -/
def timePairs (m : EntryMetadata) : List (List Byte × List Byte) :=
  [(bstr "mtime", m.times.modified), (bstr "atime", m.times.accessed),
    (bstr "ctime", m.times.changed), (bstr "LIBARCHIVE.creationtime", m.times.created)].filterMap
    fun p => p.2.map fun t => (p.1, formatPaxTimestamp t)

/-- The records of the extended attributes that no preserved record names. -/
def xattrPairs (m : EntryMetadata) : List (List Byte × List Byte) :=
  (m.xattrs.filter fun x => !(paxExtensions m).any fun e => e.key == xattrKey x.1).map
    fun x => (xattrKey x.1, x.2)

/-- The access-control records, unless a preserved record is one. -/
def aclPairs (m : EntryMetadata) : List (List Byte × List Byte) :=
  if (paxExtensions m).any fun e => (bstr "SCHILY.acl.").isPrefixOf e.key ||
      (bstr "LIBARCHIVE.acl.").isPrefixOf e.key then []
  else m.acl.map fun a => (bstr "SCHILY.acl.access", a)

/-- The record of the comment. -/
def commentPairs (m : EntryMetadata) : List (List Byte × List Byte) :=
  (m.comment.map fun c => (bstr "LIBARCHIVE.comment", c)).toList

/-- The map and the real size of a sparse entry. -/
def sparsePairs (m : EntryMetadata) (sparse : Bool) : List (List Byte × List Byte) :=
  if sparse then
    [(bstr "GNU.sparse.map", sparseMapValue m.sparse),
      (bstr "GNU.sparse.realsize", decimalBytes (m.size.getD 0).toNat)]
  else []

/-- The records of an entry, in the order they are pushed. -/
def paxPairs (m : EntryMetadata) (sparse : Bool) : List (List Byte × List Byte) :=
  preservedPairs m sparse ++ ownerPairs m ++ timePairs m ++ xattrPairs m ++ aclPairs m ++
    commentPairs m ++ sparsePairs m sparse

/-- `push_pax_record` for each pair. -/
def paxRecords : List (List Byte × List Byte) → Except Error (List Byte)
  | [] => .ok []
  | (key, value) :: rest => do return (← paxRecord key value) ++ (← paxRecords rest)

/-- Overwrites bytes of the last block of the sink. -/
def patch (offset : ℕ) (bytes : List Byte) : SinkM Unit :=
  modify fun sink => splice sink (sink.length - BLOCK + offset) bytes

/-- The patches of the entry header just written: the owner names, the device and the checksum. -/
def patchHeader (m : EntryMetadata) : SinkM Unit := do
  if (← get).length < BLOCK then throw (.invalidState "tar header was not emitted")
  match m.owner.user with
  | some user => patch fUname.1 (copyField (fUname.2 - fUname.1) user)
  | none => pure ()
  match m.owner.group with
  | some group => patch fGname.1 (copyField (fGname.2 - fGname.1) group)
  | none => pure ()
  match (if m.kind = .char ∨ m.kind = .block then m.referencedDevice else none) with
  | some device =>
    patch fDevmajor.1 (← putOctal (fDevmajor.2 - fDevmajor.1) device.major.toNat)
    patch fDevminor.1 (← putOctal (fDevminor.2 - fDevminor.1) device.minor.toNat)
  | none => pure ()
  let sink ← get
  patch 0 (← writeChecksum (sink.drop (sink.length - BLOCK)))

/-- `write_v2_header`. -/
def writeV2Header (m : EntryMetadata) (stored : HeaderView) (sparse : Bool) : SinkM Unit := do
  let pax ← paxRecords (paxPairs m sparse)
  if !pax.isEmpty then writePaxHeader pax (chr 'x')
  writeHeader stored
  patchHeader m

/-! ### Sparse data -/

/-- Where the encoder stands in the extents of a sparse entry. -/
structure SparseCursor where
  index : ℕ
  position : ℕ
deriving DecidableEq

/-- Prepends one round's progress to that of the rounds after it. -/
def progress (consumed : ℕ) (produced : List Byte) :
    SparseCursor × Except ArchiveError (ℕ × List Byte) →
      SparseCursor × Except ArchiveError (ℕ × List Byte)
  | (c, .ok (n, out)) => (c, .ok (consumed + n, produced ++ out))
  | (c, .error e) => (c, .error e)

/-- The loop of `write_sparse_data`: bytes in holes are consumed and dropped, bytes in extents are
copied while there is room. A round that does not end the loop consumes at least one byte while the
position is not past the current extent, so the length of the input is enough rounds. -/
def sparseLoop (extents : List SparseExtent) : ℕ → SparseCursor → List Byte → ℕ →
    SparseCursor × Except ArchiveError (ℕ × List Byte)
  | 0, c, _, _ => (c, .ok (0, []))
  | n + 1, c, input, room =>
    if input.isEmpty then (c, .ok (0, []))
    else
      let index := skipFinished extents c.index c.position
      match extents[index]? with
      | none =>
        match checkedAdd c.position input.length with
        | none => (⟨index, c.position⟩, .error (tarError .limit "sparse logical position overflow"))
        | some position => (⟨index, position⟩, .ok (input.length, []))
      | some e =>
        if c.position < e.offset then
          let count := min (e.offset - c.position) input.length
          progress count []
            (sparseLoop extents n ⟨index, c.position + count⟩ (input.drop count) room)
        else if room = 0 then (⟨index, c.position⟩, .ok (0, []))
        else
          let count := min (min (e.end - c.position) input.length) room
          progress count (input.take count)
            (sparseLoop extents n ⟨index, c.position + count⟩ (input.drop count) (room - count))

/-- `write_sparse_data`. -/
def writeSparseData (extents : List SparseExtent) (c : SparseCursor) (input : List Byte)
    (outputLen : ℕ) : SparseCursor × Except ArchiveError (ℕ × List Byte) :=
  sparseLoop extents input.length c input outputLen

/-! ### The encoder -/

/-- The encoder. -/
structure TarEncoder where
  limits : Limits
  pending : List Byte := []
  pendingPos : ℕ := 0
  isOpen : Bool := false
  entrySize : ℕ := 0
  remaining : ℕ := 0
  finishing : Bool := false
  done : Bool := false
  entries : ℕ := 0
  totalBytes : ℕ := 0
  sparse : List SparseExtent := []
  sparseIndex : ℕ := 0
  logicalPosition : ℕ := 0
deriving DecidableEq

/-- A staging failure as the public error. -/
def stagingError (e : Error) : ArchiveError := (ArchiveError.ofError e).withFormat "tar"

namespace TarEncoder

/-- `TarEncoder::new`. -/
def new (limits : Limits) : TarEncoder := { limits }

/-- The records of archive-level metadata; the comment is added unless a preserved record is it. -/
def globalPairs (metadata : ArchiveMetadata) : List (List Byte × List Byte) :=
  let pax := metadata.extensions.filter fun e => e.namespace_ == "pax"
  (pax.map fun e => (e.key, e.value)) ++
    ((metadata.comment.filter fun _ => !pax.any fun e => e.key == bstr "LIBARCHIVE.comment").map
      fun c => (bstr "LIBARCHIVE.comment", c)).toList

/-- `set_archive_metadata`. -/
def setArchiveMetadata (e : TarEncoder) (metadata : ArchiveMetadata) :
    TarEncoder × Except ArchiveError Unit :=
  if e.isOpen || e.entries != 0 || !e.pending.isEmpty || e.finishing || e.done then
    (e, .error (tarError .protocol "archive metadata must be set before the first entry"))
  else
    match paxRecords (globalPairs metadata) with
    | .error err => (e, .error (stagingError err))
    | .ok records =>
      if records.isEmpty then (e, .ok ())
      else match writePaxHeader records (chr 'g') e.pending with
        | (.error err, pending) => ({ e with pending }, .error (stagingError err))
        | (.ok (), pending) =>
          if exceeds pending.length e.limits.metadataBytes then
            ({ e with pending := [] },
              .error (tarError .limit "global PAX metadata exceeds configured limit"))
          else ({ e with pending }, .ok ())

/-- `drain_pending`: the bytes put into the output and the encoder without them. -/
def drainPending (e : TarEncoder) (outputLen : ℕ) : List Byte × TarEncoder :=
  let n := min (e.pending.length - e.pendingPos) outputLen
  let out := (e.pending.drop e.pendingPos).take n
  if e.pendingPos + n = e.pending.length then (out, { e with pending := [], pendingPos := 0 })
  else (out, { e with pendingPos := e.pendingPos + n })

/-- The status after staged bytes were drained. -/
def drainStatus (e : TarEncoder) : EncodeStatus :=
  if e.pending.isEmpty then .needCommand else .needOutput

/-- A consumed command answered out of the staging buffer. -/
def drained (e : TarEncoder) (outputLen : ℕ) : TarEncoder × Except ArchiveError EncodeStep :=
  let (produced, e) := e.drainPending outputLen
  (e, .ok ⟨1, produced, e.drainStatus⟩)

/-- The stored size of a sparse entry. -/
def storedSize : List SparseExtent → ℕ → Except ArchiveError ℕ
  | [], total => .ok total
  | e :: rest, total =>
    match checkedAdd total e.length with
    | none => .error (tarError .limit "sparse stored size overflow")
    | some total => storedSize rest total

/-- The checks `BeginEntry` makes before it stages anything: the logical size, the entry count with
the new entry and the stored size. -/
def beginChecks (e : TarEncoder) (m : EntryMetadata) : Except ArchiveError (ℕ × ℕ × ℕ) := do
  if e.isOpen then throw (tarError .protocol "previous entry is still open")
  let logicalSize ← okOr (m.size.map UInt64.toNat)
    (tarError .sizeRequired "tar requires a declared entry size")
  if exceeds m.path.raw.length e.limits.pathBytes then
    throw (tarError .limit "entry path exceeds configured limit")
  if exceeds logicalSize e.limits.entryBytes then
    throw (tarError .limit "entry size exceeds configured limit")
  let nextEntries ← okOr (checkedAdd e.entries 1) (tarError .limit "entry count overflow")
  if exceeds nextEntries e.limits.entries then
    throw (tarError .limit "entry count exceeds configured limit")
  if m.sparse.isEmpty then return (logicalSize, nextEntries, logicalSize)
  else
    let stored ← storedSize m.sparse 0
    (validateSparseExtents m.sparse logicalSize stored).mapError stagingError
    return (logicalSize, nextEntries, stored)

/-- `BeginEntry`. -/
def beginEntry (e : TarEncoder) (m : EntryMetadata) (outputLen : ℕ) :
    TarEncoder × Except ArchiveError EncodeStep :=
  match e.beginChecks m with
  | .error err => (e, .error err)
  | .ok (logicalSize, nextEntries, stored) =>
    match writeV2Header m (.fromMetadata m stored) (!m.sparse.isEmpty) e.pending with
    | (.error err, pending) => ({ e with pending }, .error (stagingError err))
    | (.ok (), pending) =>
      if exceeds pending.length e.limits.metadataBytes then
        ({ e with pending },
          .error (tarError .limit "tar header metadata exceeds configured limit"))
      else
        ({ e with
          pending, entries := nextEntries, remaining := logicalSize, entrySize := stored
          sparse := m.sparse, sparseIndex := 0, logicalPosition := 0, isOpen := true } :
          TarEncoder).drained outputLen

/-- The accounting of consumed data. -/
def accountData (e : TarEncoder) (inputLen consumed : ℕ) (produced : List Byte) :
    TarEncoder × Except ArchiveError EncodeStep :=
  match checkedAdd e.totalBytes consumed with
  | none => (e, .error (tarError .limit "encoded byte count overflow"))
  | some nextTotal =>
    if exceeds nextTotal e.limits.decodedTotal then
      (e, .error (tarError .limit "encoded total exceeds configured limit"))
    else
      ({ e with remaining := e.remaining - consumed, totalBytes := nextTotal },
        .ok ⟨consumed, produced, if consumed = inputLen then .needCommand else .needOutput⟩)

/-- `Data`. -/
def data (e : TarEncoder) (input : List Byte) (outputLen : ℕ) :
    TarEncoder × Except ArchiveError EncodeStep :=
  if !e.isOpen then (e, .error (tarError .protocol "entry data supplied without an open entry"))
  else if e.remaining < input.length then
    (e, .error (tarError .protocol "entry data exceeds declared size"))
  else if input.isEmpty then (e, .ok ⟨0, [], .needCommand⟩)
  else if e.sparse.isEmpty then
    if outputLen = 0 then (e, .ok ⟨0, [], .needOutput⟩)
    else
      let count := min input.length outputLen
      ({ e with logicalPosition := (e.logicalPosition + count) % 2 ^ 64 } : TarEncoder).accountData
        input.length count (input.take count)
  else
    match writeSparseData e.sparse ⟨e.sparseIndex, e.logicalPosition⟩ input outputLen with
    | (c, .error err) =>
      ({ e with sparseIndex := c.index, logicalPosition := c.position }, .error err)
    | (c, .ok (consumed, produced)) =>
      ({ e with sparseIndex := c.index, logicalPosition := c.position } : TarEncoder).accountData
        input.length consumed produced

/-- `EndEntry`. The staging buffer is empty here, so resizing it leaves the padding only. -/
def endEntry (e : TarEncoder) (outputLen : ℕ) : TarEncoder × Except ArchiveError EncodeStep :=
  if !e.isOpen then (e, .error (tarError .protocol "end-entry supplied without an open entry"))
  else if e.remaining ≠ 0 then
    (e, .error (tarError .protocol "entry data is shorter than declared size"))
  else
    match (padding e.entrySize).mapError stagingError with
    | .error err => (e, .error err)
    | .ok pad =>
      ({ e with pending := List.replicate pad 0, isOpen := false, sparse := [] } :
        TarEncoder).drained outputLen

/-- `Finish`, the first time. -/
def finish (e : TarEncoder) (outputLen : ℕ) : TarEncoder × Except ArchiveError EncodeStep :=
  if e.isOpen then (e, .error (tarError .protocol "cannot finish with an open entry"))
  else
    let e := { e with pending := List.replicate (2 * BLOCK) 0, finishing := true }
    let (produced, e) := e.drainPending outputLen
    let e := if e.pending.isEmpty then { e with done := true } else e
    (e, .ok ⟨1, produced, if e.done then .done else .needOutput⟩)

/-- The answer to any command while staged bytes are left. -/
def drainFirst (e : TarEncoder) (outputLen : ℕ) : TarEncoder × Except ArchiveError EncodeStep :=
  let (produced, e) := e.drainPending outputLen
  if e.pending.isEmpty && e.finishing then ({ e with done := true }, .ok ⟨0, produced, .done⟩)
  else (e, .ok ⟨0, produced, e.drainStatus⟩)

/-- `TarEncoder::step`. -/
def step (e : TarEncoder) (command : EncodeCommand) (outputLen : ℕ) :
    TarEncoder × Except ArchiveError EncodeStep :=
  if e.done then
    match command with
    | .finish => (e, .ok ⟨0, [], .done⟩)
    | _ => (e, .error (tarError .protocol "command supplied after finish"))
  else if !e.pending.isEmpty then e.drainFirst outputLen
  else
    match command with
    | .beginEntry m => e.beginEntry m outputLen
    | .data input => e.data input outputLen
    | .endEntry => e.endEntry outputLen
    | .finish => e.finish outputLen

end TarEncoder

end LibarchiveOxide.Tar.Encoder
