import LibarchiveOxide.Udf.Chains

/-! # Reading a payload

The cursor walks the extents of a payload with requests that know nothing of their bounds. What it
gives is the start of what is left (`readExact_left`), as long as so much is left. -/

namespace LibarchiveOxide.Udf.Cursor

open Core.Failure Core.Metadata Lib.Requests Lib.Result Stream.Event Stream.Image Udf.Partitions
open Udf.Translation Udf.Descriptors Udf.Allocation Udf.Chains

/-- `UdfPayload`. -/
inductive UdfPayload where
  | none
  | inline (data : List Byte) (tagLocation : ℕ)
  | extents (extents : List UdfExtent)

/-- `payload_length`. -/
def payloadLength : UdfPayload → Except StreamError ℕ
  | .none => .ok 0
  | .inline data _ => .ok data.length
  | .extents extents => extents.foldlM (fun total extent => okOr (checkedAdd total extent.length)
      (udfError .limit "UDF payload extent length overflow")) 0

/-- `UdfDataCursor`. -/
structure UdfDataCursor where
  payload : UdfPayload
  extentIndex : ℕ := 0
  extentOffset : ℕ := 0
  inlineOffset : ℕ := 0
  position : ℕ := 0
  remaining : ℕ

/-- `UdfDataCursor::new`. -/
def UdfDataCursor.new (payload : UdfPayload) (length : ℕ) : Except StreamError UdfDataCursor := do
  let available ← payloadLength payload
  if available < length then
    throw (udfError .malformed "UDF allocation descriptors do not cover information length")
  .ok { payload := payload, remaining := length }

variable (image : List Byte)

/-- The bytes of an extent at an offset of it: from the image, or zeros. -/
def extentBytes (extent : UdfExtent) (extentOffset count : ℕ) : Except StreamError (List Byte) :=
  match extent.sourceOffset with
  | some source => do
    let offset ← okOr (checkedAdd source extentOffset)
      (udfError .malformed "UDF source offset overflow")
    readExact image offset count
  | none => .ok (List.replicate count 0)

/-- A round of the loop of `UdfDataCursor::read_exact`, while `n` bytes are missing. -/
def readRound (c : UdfDataCursor) (n : ℕ) : Except StreamError (List Byte × UdfDataCursor) :=
  match c.payload with
  | .none => .error (udfError .malformed "UDF payload ended before declared length")
  | .inline data _ => do
    let count := min (data.length - c.inlineOffset) n
    if count = 0 then throw (udfError .malformed "embedded UDF payload is truncated")
    let position ← okOr (checkedAdd c.position count)
      (udfError .limit "UDF payload position overflow")
    .ok ((data.drop c.inlineOffset).take count,
      { c with inlineOffset := c.inlineOffset + count, position := position,
               remaining := c.remaining - count })
  | .extents extents =>
    match extents[c.extentIndex]? with
    | none => .error (udfError .malformed "UDF extents end before information length")
    | some extent =>
      let available := extent.length - c.extentOffset
      if available = 0 then
        .ok ([], { c with extentIndex := c.extentIndex + 1, extentOffset := 0 })
      else do
        let count := min available n
        let bytes ← extentBytes image extent c.extentOffset count
        let position ← okOr (checkedAdd c.position count)
          (udfError .limit "UDF payload position overflow")
        .ok (bytes, { c with extentOffset := c.extentOffset + count, position := position,
                             remaining := c.remaining - count })

/-- The loop of `UdfDataCursor::read_exact`; `none` while it is still running when the fuel is
spent. -/
def readLoop : ℕ → UdfDataCursor → ℕ → Option (Except StreamError (List Byte × UdfDataCursor))
  | _, c, 0 => some (.ok ([], c))
  | 0, _, _ + 1 => none
  | fuel + 1, c, n + 1 =>
    match readRound image c (n + 1) with
    | .error e => some (.error e)
    | .ok (bytes, c') =>
      (readLoop fuel c' (n + 1 - bytes.length)).map fun r => r.map fun x => (bytes ++ x.1, x.2)

/-- The extents that a payload has. -/
def extentCount : UdfPayload → ℕ
  | .extents es => es.length
  | .none | .inline .. => 0

/-! ### The loop ends -/

variable {c : UdfDataCursor}

/-- A round gives bytes, or goes on to the next extent. -/
theorem readRound_progress {image : List Byte} {c' : UdfDataCursor} {n : ℕ} {bytes : List Byte}
    (hn : 0 < n) (h : readRound image c n = .ok (bytes, c')) :
    c'.payload = c.payload ∧
      ((0 < bytes.length ∧ c'.extentIndex = c.extentIndex) ∨
        (c.extentIndex < extentCount c.payload ∧ c'.extentIndex = c.extentIndex + 1)) := by
  unfold readRound at h
  cases hpayload : c.payload with
  | none => rw [hpayload] at h; cases h
  | inline data location =>
    rw [hpayload] at h
    obtain ⟨hcount, h⟩ := guard_eq_ok.mp h
    obtain ⟨position, -, h⟩ := bind_eq_ok.mp h
    cases h
    refine ⟨rfl, .inl ⟨?_, rfl⟩⟩
    rw [List.length_take, List.length_drop]
    omega
  | extents extents =>
    rw [hpayload] at h
    dsimp only at h
    cases hextent : extents[c.extentIndex]? with
    | none => rw [hextent] at h; cases h
    | some extent =>
      rw [hextent] at h
      dsimp only at h
      split_ifs at h with havailable
      · cases h
        exact ⟨rfl, .inr ⟨(List.getElem?_eq_some_iff.mp hextent).1, rfl⟩⟩
      · obtain ⟨bs, hbytes, h⟩ := bind_eq_ok.mp h
        obtain ⟨position, -, h⟩ := bind_eq_ok.mp h
        cases h
        refine ⟨rfl, .inl ⟨?_, rfl⟩⟩
        unfold extentBytes at hbytes
        cases hsource : extent.sourceOffset with
        | none =>
          rw [hsource] at hbytes
          cases hbytes
          rw [List.length_replicate]
          omega
        | some source =>
          rw [hsource] at hbytes
          obtain ⟨offset, -, hread⟩ := bind_eq_ok.mp hbytes
          rw [length_of_readExact hread]
          omega

theorem readLoop_isSome : ∀ {fuel n : ℕ} {c : UdfDataCursor},
    extentCount c.payload - c.extentIndex + n ≤ fuel → (readLoop image fuel c n).isSome
  | _, 0, _, _ => by rw [readLoop]; rfl
  | 0, _ + 1, _, h => by omega
  | fuel + 1, n + 1, c, h => by
    rw [readLoop]
    cases hround : readRound image c (n + 1) with
    | error e => rfl
    | ok x =>
      obtain ⟨bytes, c'⟩ := x
      obtain ⟨hpayload, hprogress⟩ := readRound_progress (by omega) hround
      dsimp only
      rw [Option.isSome_map]
      refine readLoop_isSome ?_
      rw [hpayload]
      omega

/-- `UdfDataCursor::read_exact`. -/
def UdfDataCursor.readExact (c : UdfDataCursor) (n : ℕ) :
    Except StreamError (List Byte × UdfDataCursor) :=
  if c.remaining < n then
    .error (udfError .malformed "UDF payload read exceeds information length")
  else (readLoop image (extentCount c.payload - c.extentIndex + n) c n).get
    (readLoop_isSome image le_rfl)

/-! ### What the cursor gives -/

/-- The byte of an image at a source, or a zero. -/
def fetch : Option ℕ → Byte
  | none => 0
  | some offset => image.getD offset 0

/-- The bytes of a payload. -/
def contents : UdfPayload → List Byte
  | .none => []
  | .inline data _ => data
  | .extents es => (es.flatMap sources).map (fetch image)

/-- Where the bytes of the extents from a place on come from. -/
def leftOf (extentOffset : ℕ) : List UdfExtent → List (Option ℕ)
  | [] => []
  | e :: es => (sources e).drop extentOffset ++ es.flatMap sources

theorem leftOf_cons (extentOffset : ℕ) (e : UdfExtent) (es : List UdfExtent) :
    leftOf extentOffset (e :: es) = (sources e).drop extentOffset ++ es.flatMap sources := rfl

theorem leftOf_zero (es : List UdfExtent) : leftOf 0 es = es.flatMap sources := by
  cases es with
  | nil => rfl
  | cons e es => rfl

/-- The bytes that a cursor has not given yet. -/
def left (c : UdfDataCursor) : List Byte :=
  match c.payload with
  | .none => []
  | .inline data _ => data.drop c.inlineOffset
  | .extents es => (leftOf c.extentOffset (es.drop c.extentIndex)).map (fetch image)

/-- The extents of a payload lie in an image. -/
def InsidePayload (imageLength : ℕ) : UdfPayload → Prop
  | .extents es => ∀ e ∈ es, Inside imageLength e
  | .none | .inline .. => True

/-- **A cursor that can go on**: its extents lie in the image, what it owes is left, and its position
stays a `u64`. -/
structure Sane (c : UdfDataCursor) : Prop where
  inside : InsidePayload image.length c.payload
  covers : c.remaining ≤ (left image c).length
  position : c.position + c.remaining ≤ u64Max

theorem sources_of_some {e : UdfExtent} {source : ℕ} (h : e.sourceOffset = some source) :
    sources e = (List.range e.length).map fun i => some (source + i) := by
  unfold sources span
  refine List.map_congr_left fun i _ => ?_
  simp only [h, Option.map_some, Nat.zero_add]

theorem sources_of_none {e : UdfExtent} (h : e.sourceOffset = none) :
    sources e = List.replicate e.length none := by
  unfold sources span
  rw [h]
  simp

variable {image}

/-- The bytes that are read for a part of an extent are those that it has. -/
theorem extentBytes_eq (hmax : image.length ≤ u64Max) {e : UdfExtent} (h : Inside image.length e)
    {offset count : ℕ} (hcount : offset + count ≤ e.length) :
    extentBytes image e offset count =
      .ok ((((sources e).drop offset).take count).map (fetch image)) := by
  unfold extentBytes
  cases hsource : e.sourceOffset with
  | none =>
    rw [sources_of_none hsource, List.drop_replicate, List.take_replicate, List.map_replicate,
      Nat.min_eq_left (by omega)]
    rfl
  | some source =>
    have hle := h source hsource
    dsimp only
    rw [checkedAdd_of_le (by omega), okOr_some, ok_bind, readExact_eq_ok]
    refine ⟨by omega, ?_⟩
    rw [sources_of_some hsource]
    refine List.ext_getElem? fun i => ?_
    rw [List.getElem?_map, List.getElem?_take, List.getElem?_take]
    split_ifs with hi
    · rw [List.getElem?_drop, List.getElem?_drop, List.getElem?_map,
        List.getElem?_range (by omega), Option.map_some, Option.map_some,
        List.getElem?_eq_getElem (by omega)]
      have hindex : source + (offset + i) < image.length := by omega
      simp only [fetch, List.getD_eq_getElem?_getD, List.getElem?_eq_getElem hindex,
        Option.getD_some, Nat.add_assoc]
    · rfl

/-- **A round gives the next bytes of what is left.** -/
theorem readRound_left (hmax : image.length ≤ u64Max) (hc : Sane image c) {n : ℕ} (hn : 0 < n)
    (hle : n ≤ c.remaining) :
    ∃ bytes c', readRound image c n = .ok (bytes, c') ∧ bytes.length ≤ n ∧
      left image c = bytes ++ left image c' ∧ c'.payload = c.payload ∧ Sane image c' ∧
      c'.remaining + bytes.length = c.remaining := by
  obtain ⟨hinside, hcovers, hposition⟩ := hc
  unfold readRound
  cases hpayload : c.payload with
  | none =>
    unfold left at hcovers
    rw [hpayload] at hcovers
    simp only [List.length_nil] at hcovers
    omega
  | inline data location =>
    unfold left at hcovers
    rw [hpayload] at hcovers
    simp only [List.length_drop] at hcovers
    have hcount : min (data.length - c.inlineOffset) n = n := by omega
    dsimp only
    rw [hcount, if_neg (by omega), checkedAdd_of_le (by omega), okOr_some, ok_bind]
    have hlength : ((data.drop c.inlineOffset).take n).length = n := by
      rw [List.length_take, List.length_drop]
      omega
    refine ⟨_, _, rfl, hlength.le, ?_, rfl, ⟨trivial, ?_, ?_⟩, ?_⟩
    · unfold left
      rw [hpayload]
      dsimp only
      rw [← List.drop_drop, List.take_append_drop]
    · unfold left
      simp only [List.length_drop]
      omega
    · dsimp only
      omega
    · rw [hlength]
      dsimp only
      omega
  | extents es =>
    rw [hpayload] at hinside
    unfold left at hcovers
    rw [hpayload] at hcovers
    dsimp only at hcovers ⊢
    cases hextent : es[c.extentIndex]? with
    | none =>
      rw [List.drop_eq_nil_of_le (List.getElem?_eq_none_iff.mp hextent)] at hcovers
      simp only [leftOf, List.map_nil, List.length_nil] at hcovers
      omega
    | some e =>
      obtain ⟨hindex, rfl⟩ := List.getElem?_eq_some_iff.mp hextent
      have hdrop := List.drop_eq_getElem_cons hindex
      dsimp only
      rw [hdrop] at hcovers
      by_cases havailable : es[c.extentIndex].length - c.extentOffset = 0
      · -- the extent is exhausted
        have hnone : (sources es[c.extentIndex]).drop c.extentOffset = [] :=
          List.drop_eq_nil_of_le (by rw [length_sources]; omega)
        have hnext : leftOf c.extentOffset (es.drop c.extentIndex) =
            leftOf 0 (es.drop (c.extentIndex + 1)) := by
          rw [hdrop, leftOf_cons, hnone, List.nil_append, leftOf_zero]
        rw [if_pos havailable]
        refine ⟨_, _, rfl, Nat.zero_le _, ?_, rfl, ⟨hinside, ?_, hposition⟩, rfl⟩
        · unfold left
          rw [hpayload]
          dsimp only
          rw [hnext, List.nil_append]
        · unfold left
          dsimp only
          rwa [← hnext, hdrop]
      · have hcount : c.extentOffset + min (es[c.extentIndex].length - c.extentOffset) n ≤
            es[c.extentIndex].length := by omega
        generalize hk : min (es[c.extentIndex].length - c.extentOffset) n = count at hcount ⊢
        have hlength : (((sources es[c.extentIndex]).drop c.extentOffset).take count).length =
            count := by
          rw [List.length_take, List.length_drop, length_sources]
          omega
        have hsplit : leftOf c.extentOffset (es.drop c.extentIndex) =
            ((sources es[c.extentIndex]).drop c.extentOffset).take count ++
              leftOf (c.extentOffset + count) (es.drop c.extentIndex) := by
          rw [hdrop, leftOf_cons, leftOf_cons, ← List.append_assoc]
          congr 1
          rw [← List.drop_drop (i := count), List.take_append_drop]
        rw [if_neg havailable, extentBytes_eq hmax (hinside _ (List.getElem_mem hindex)) hcount,
          ok_bind, checkedAdd_of_le (by omega), okOr_some, ok_bind]
        refine ⟨_, _, rfl, by rw [List.length_map, hlength]; omega, ?_, rfl,
          ⟨hinside, ?_, by dsimp only; omega⟩, ?_⟩
        · unfold left
          rw [hpayload]
          dsimp only
          rw [hsplit, List.map_append]
        · rw [← hdrop, hsplit, List.map_append, List.length_append, List.length_map, hlength]
            at hcovers
          unfold left
          dsimp only
          omega
        · rw [List.length_map, hlength]
          dsimp only
          omega

/-- The loop gives as many bytes as it is asked for. -/
theorem readLoop_left (hmax : image.length ≤ u64Max) : ∀ {fuel n : ℕ} {c : UdfDataCursor},
    extentCount c.payload - c.extentIndex + n ≤ fuel → Sane image c → n ≤ c.remaining →
    ∃ bytes c', readLoop image fuel c n = some (.ok (bytes, c')) ∧ bytes.length = n ∧
      left image c = bytes ++ left image c' ∧ c'.payload = c.payload ∧ Sane image c' ∧
      c'.remaining + n = c.remaining
  | _, 0, c, _, hc, _ => ⟨[], c, by rw [readLoop], rfl, rfl, rfl, hc, rfl⟩
  | 0, _ + 1, _, h, _, _ => by omega
  | fuel + 1, n + 1, c, h, hc, hle => by
    obtain ⟨bytes, c', hround, hlength, hleft, hpayload, hc', hremaining⟩ :=
      readRound_left hmax hc (by omega) hle
    obtain ⟨-, hprogress⟩ := readRound_progress (by omega) hround
    have hfuel : extentCount c'.payload - c'.extentIndex + (n + 1 - bytes.length) ≤ fuel := by
      rw [hpayload]
      omega
    obtain ⟨rest, c'', hloop, hrest, hleft', hpayload', hc'', hremaining'⟩ :=
      readLoop_left hmax hfuel hc' (by omega)
    refine ⟨bytes ++ rest, c'', ?_, by rw [List.length_append]; omega, ?_,
      hpayload'.trans hpayload, hc'', by omega⟩
    · rw [readLoop, hround]
      dsimp only
      rw [hloop]
      rfl
    · rw [hleft, hleft', List.append_assoc]

/-- **A request within what is owed gives the next bytes.** -/
theorem readExact_left (hmax : image.length ≤ u64Max) (hc : Sane image c) {n : ℕ}
    (hle : n ≤ c.remaining) :
    ∃ bytes c', c.readExact image n = .ok (bytes, c') ∧ bytes.length = n ∧
      left image c = bytes ++ left image c' ∧ c'.payload = c.payload ∧ Sane image c' ∧
      c'.remaining + n = c.remaining := by
  obtain ⟨bytes, c', hloop, hrest⟩ := readLoop_left hmax le_rfl hc hle
  refine ⟨bytes, c', ?_, hrest⟩
  unfold UdfDataCursor.readExact
  rw [if_neg (by omega)]
  simp only [hloop, Option.get_some]

end LibarchiveOxide.Udf.Cursor

/-! # Reading the files of a volume

The reader delivers the payload of an entry in pieces of the event size. `file_read`: from any idle
state the pieces of a file are its bytes, and the only failure there is comes when the count of all
the bytes delivered leaves a `u64`. -/

namespace LibarchiveOxide.Udf.Reader

open Core.Failure Core.Budget Core.Metadata Lib.Requests Lib.Result Stream.Event Udf.Partitions
open Udf.Translation Udf.Descriptors Udf.Allocation Udf.Chains Udf.Cursor

/-! ### The index -/

/-- Where a file entry has its data: its allocation type, partition and block, and the bytes after its
extended attributes. -/
structure FileEntry where
  allocationType : ℕ
  allocation : List Byte
  partitionRef : ℕ
  logicalBlock : ℕ
  informationLength : UInt64
  constraint : AllocationPartitionConstraint

/-- The layout of an allocation type. -/
def layout : ℕ → Option AllocationType
  | 0 => some .short
  | 1 => some .long
  | 2 => some .extended
  | _ => none

variable (v : Volume) (maximum : Option ℕ)

/-- The payload in `parse_file_entry_for_role`, and the holes of it. -/
def filePayload (metadataUsed : ℕ) (f : FileEntry) :
    Except StreamError (UdfPayload × List SparseExtent) :=
  match layout f.allocationType with
  | some t => (parseAllocationDescriptors v t f.constraint f.informationLength.toNat maximum
      f.allocation f.partitionRef metadataUsed).map fun r => (.extents r.1.1, r.1.2.1)
  | none =>
    if f.allocationType = 3 then
      if f.allocation.length < f.informationLength.toNat then
        .error (udfError .malformed "embedded UDF payload is shorter than information length")
      else .ok (.inline (f.allocation.take f.informationLength.toNat) f.logicalBlock, [])
    else .error (udfError .unsupported "unknown UDF allocation descriptor type")

/-- `UdfIndex`. -/
structure UdfIndex where
  metadata : EntryMetadata
  payload : UdfPayload

/-- `FileRecord::metadata` of a file, over the rest of its metadata. -/
def fileMetadata (rest : EntryMetadata) (f : FileEntry) (holes : List SparseExtent) :
    EntryMetadata :=
  { rest with kind := .file, size := some f.informationLength, sparse := holes }

/-- **What the parser puts into the index**: a file with its payload, or an entry without one. -/
inductive Indexed : UdfIndex → Prop
  | file {metadataUsed : ℕ} {f : FileEntry} {payload : UdfPayload} {holes : List SparseExtent}
      (rest : EntryMetadata) (h : filePayload v maximum metadataUsed f = .ok (payload, holes)) :
      Indexed ⟨fileMetadata rest f holes, payload⟩
  | other (metadata : EntryMetadata) : Indexed ⟨metadata, .none⟩

/-! ### The reader -/

/-- `UdfBody`. -/
inductive UdfBody where
  | idle
  | data (cursor : UdfDataCursor)
  | endEntry
  | done

/-- `UdfSeekReader`, over a volume whose entries have been indexed. -/
structure UdfSeekReader where
  limits : Limits
  archiveMetadata : Option ArchiveMetadata
  entries : List UdfIndex
  nextEntry : ℕ := 0
  body : UdfBody := .idle
  eventChunk : ℕ
  decodedTotal : ℕ

/-- The size of the data events: the in-flight limit, but at most `BUFFER`. -/
def eventChunk (limits : Limits) : ℕ := min (limits.inFlightBytes.getD 65536) 65536

/-- The end of an entry. -/
def UdfSeekReader.ended (r : UdfSeekReader) : UdfSeekReader := { r with body := .idle }

/-- An open payload: the next piece of it, or its end. -/
def UdfSeekReader.dataEvent (r : UdfSeekReader) (c : UdfDataCursor) :
    Except StreamError (Option ReaderEvent × UdfSeekReader) :=
  if c.remaining = 0 then .ok (some .endEntry, r.ended)
  else if r.eventChunk = 0 then
    .error (udfError .limit "UDF payload cannot progress under a zero in-flight byte limit")
  else do
    let count := min c.remaining r.eventChunk
    let (bytes, c) ← c.readExact v.image count
    let total ← okOr (checkedAdd r.decodedTotal count) (udfError .limit "UDF decoded total overflow")
    if exceeds total r.limits.decodedTotal then
      throw (udfError .limit "UDF decoded total exceeds configured limit")
    .ok (some (.data bytes), { r with body := .data c, decodedTotal := total })

/-- `UdfSeekReader::next_event`; no event for `Done`. -/
def UdfSeekReader.nextEvent (r : UdfSeekReader) :
    Except StreamError (Option ReaderEvent × UdfSeekReader) :=
  match r.archiveMetadata with
  | some metadata => .ok (some (.archiveMetadata metadata), { r with archiveMetadata := none })
  | none =>
    match r.body with
    | .idle =>
      match r.entries[r.nextEntry]? with
      | none => .ok (none, { r with body := .done })
      | some entry =>
        match entry.payload with
        | .none => .ok (some (.entry entry.metadata),
            { r with nextEntry := r.nextEntry + 1, body := .endEntry })
        | payload => do
          let cursor ← UdfDataCursor.new payload ((entry.metadata.size.map UInt64.toNat).getD 0)
          .ok (some (.entry entry.metadata),
            { r with nextEntry := r.nextEntry + 1, body := .data cursor })
    | .data c => r.dataEvent v c
    | .endEntry => .ok (some .endEntry, r.ended)
    | .done => .ok (none, r)

/-- `UdfSeekReader::skip_entry`. -/
def UdfSeekReader.skipEntry (r : UdfSeekReader) : Except StreamError UdfSeekReader :=
  match r.body with
  | .data _ | .endEntry => .ok { r with body := .endEntry }
  | .idle | .done => .error (udfError .protocol "skip_entry called without an open UDF payload")

/-- The states that some calls lead to. -/
inductive Reachable (start : UdfSeekReader) : UdfSeekReader → Prop
  | start : Reachable start start
  | next {r r' : UdfSeekReader} {event : Option ReaderEvent} (hr : Reachable start r)
      (h : r.nextEvent v = .ok (event, r')) : Reachable start r'
  | skip {r r' : UdfSeekReader} (hr : Reachable start r) (h : r.skipEntry = .ok r') :
      Reachable start r'

/-- Events delivered by one call after another. -/
inductive Reads : UdfSeekReader → List ReaderEvent → UdfSeekReader → Prop
  | nil (r : UdfSeekReader) : Reads r [] r
  | cons {r r' r'' : UdfSeekReader} {event : ReaderEvent} {events : List ReaderEvent}
      (h : r.nextEvent v = .ok (some event, r')) (hrest : Reads r' events r'') :
      Reads r (event :: events) r''

variable {v maximum}

theorem Reads.trans {r r' r'' : UdfSeekReader} {events events' : List ReaderEvent}
    (h : Reads v r events r') (h' : Reads v r' events' r'') : Reads v r (events ++ events') r'' := by
  induction h with
  | nil => exact h'
  | cons hnext _ ih => exact .cons hnext (ih h')

variable {payload : UdfPayload}

theorem payloadLength_extents : ∀ {es : List UdfExtent} {total : ℕ},
    total + (es.map UdfExtent.length).sum ≤ u64Max →
    es.foldlM (fun total extent => okOr (checkedAdd total extent.length)
      (udfError .limit "UDF payload extent length overflow")) total =
      .ok (total + (es.map UdfExtent.length).sum)
  | [], _, _ => rfl
  | e :: es, total, h => by
    rw [List.map_cons, List.sum_cons] at h ⊢
    rw [List.foldlM_cons, checkedAdd_of_le (by omega), okOr_some, ok_bind,
      payloadLength_extents (by omega), Nat.add_assoc]

theorem length_contents_extents (image : List Byte) (es : List UdfExtent) :
    (contents image (.extents es)).length = (es.map UdfExtent.length).sum := by
  unfold contents
  rw [List.length_map, List.length_flatMap]
  congr 1
  exact List.map_congr_left fun e _ => length_sources e

/-- A payload that fits its size. -/
structure Fitting (image : List Byte) (payload : UdfPayload) (length : ℕ) : Prop where
  length_eq : payloadLength payload = .ok length
  contents_eq : (contents image payload).length = length
  inside : InsidePayload image.length payload

/-- **The payload of a file has as many bytes as its information length says.** -/
theorem filePayload_fitting {metadataUsed : ℕ} {f : FileEntry} {holes : List SparseExtent}
    (h : filePayload v maximum metadataUsed f = .ok (payload, holes)) :
    Fitting v.image payload f.informationLength.toNat := by
  unfold filePayload at h
  cases hlayout : layout f.allocationType with
  | none =>
    rw [hlayout] at h
    dsimp only at h
    split_ifs at h with htype hshort
    cases h
    have hlength : (f.allocation.take f.informationLength.toNat).length =
        f.informationLength.toNat := by
      rw [List.length_take]
      omega
    exact ⟨congrArg Except.ok hlength, hlength, trivial⟩
  | some t =>
    rw [hlayout] at h
    obtain ⟨⟨r, used⟩, hparse, hpair⟩ := map_eq_ok.mp h
    cases hpair
    obtain ⟨_, _, ds, -, -, -, -, b, hbody, hfinish⟩ := parse_iff.mp hparse
    obtain ⟨-, hsum, hinside⟩ := meaning hbody hfinish
    have hmax := f.informationLength.toNat_lt
    refine ⟨?_, (length_contents_extents ..).trans hsum, hinside⟩
    have hlength : payloadLength (.extents r.1) = .ok (0 + (r.1.map UdfExtent.length).sum) :=
      payloadLength_extents (by rw [hsum]; unfold u64Max; omega)
    rw [hlength, hsum, Nat.zero_add]

theorem left_new {image : List Byte} {length : ℕ} :
    left image { payload := payload, remaining := length } = contents image payload := by
  unfold left contents
  cases payload with
  | none => rfl
  | inline data location => rfl
  | extents es =>
    dsimp only
    rw [List.drop_zero, leftOf_zero]

/-- A cursor can be opened on it, and can go on. -/
theorem Fitting.new {image : List Byte} {length : ℕ} (h : Fitting image payload length)
    (hmax : length ≤ u64Max) :
    UdfDataCursor.new payload length = .ok { payload := payload, remaining := length } ∧
      Sane image { payload := payload, remaining := length } := by
  refine ⟨?_, h.inside, ?_, by simpa using hmax⟩
  · unfold UdfDataCursor.new
    rw [h.length_eq, ok_bind, if_neg (lt_irrefl _)]
  · rw [left_new, h.contents_eq]

end LibarchiveOxide.Udf.Reader
