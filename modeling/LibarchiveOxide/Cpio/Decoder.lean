import LibarchiveOxide.Core.Metadata
import LibarchiveOxide.Cpio.Header
import LibarchiveOxide.Lib.SortedMap

/-! # The cpio decoder

`CpioDecoder.turn` is one activation of `step`: it answers, or asks to be repeated on the input that
is left, where the source calls itself. A repeated turn has taken a whole header out of the input or
moves towards one, so `3 * input.length + 4` turns are enough.

The records of a hardlink group are withheld until one of them carries a payload, the last of them is
seen or the trailer arrives. -/

namespace LibarchiveOxide.Cpio.Decoder

open Core.Failure Core.Budget Core.Metadata Core.Protocol Cpio.Header Lib

/-- The decoder state. -/
inductive DecoderState where
  | header
  | data (remaining padding : ℕ) (checksum : Option UInt32) (checksumActual : UInt32)
      (emitEnd : Bool)
  | endEntry (padding : ℕ) (checksum : Option UInt32) (checksumActual : UInt32) (emitEnd : Bool)
  | done
deriving DecidableEq

/-- What the links of one file share. -/
structure HardlinkKey where
  deviceMajor : UInt64
  deviceMinor : UInt64
  inode : UInt64
deriving DecidableEq

/-- The derived order of the keys. -/
def HardlinkKey.lt (a b : HardlinkKey) : Bool :=
  a.deviceMajor < b.deviceMajor || (a.deviceMajor == b.deviceMajor &&
    (a.deviceMinor < b.deviceMinor || (a.deviceMinor == b.deviceMinor && a.inode < b.inode)))

/-- The links of one file seen so far. -/
structure HardlinkGroup where
  expected : ℕ
  seen : ℕ := 0
  target : Option ArchivePath := none
  pending : List EntryMetadata := []
deriving DecidableEq

/-- An event that waits for the next header. -/
inductive QueuedEvent where
  | entry (m : EntryMetadata)
  | endEntry
deriving DecidableEq

/-- The decoder. `metadataSize` is the size of an `EntryMetadata` in memory, which the account of
withheld records uses. -/
structure CpioDecoder where
  limits : Limits
  metadataSize : ℕ
  state : DecoderState := .header
  header : List Byte := []
  headerTarget : Option ℕ := none
  entries : ℕ := 0
  total : ℕ := 0
  hardlinks : List (HardlinkKey × HardlinkGroup) := []
  queued : List QueuedEvent := []
  hardlinkMetadata : ℕ := 0
deriving DecidableEq

/-- `hardlink_metadata`. -/
def hardlinkMetadata (m : EntryMetadata) (target : ArchivePath) : EntryMetadata :=
  { m with kind := .hardlink, size := some 0, linkTarget := some target }

/-- The two events of a queued entry. -/
def queueEntry (m : EntryMetadata) : List QueuedEvent := [.entry m, .endEntry]

/-- The group key of a record. -/
def keyOf (m : EntryMetadata) : HardlinkKey :=
  ⟨(m.device.getD {}).major, (m.device.getD {}).minor, m.inode.getD 0⟩

/-- The link count of a record. -/
def linksOf (m : EntryMetadata) : ℕ := (m.links.getD 1).toNat

/-- The records that are put into groups. -/
def isGrouped (m : EntryMetadata) : Bool := m.kind == .file && decide (1 < linksOf m)

/-- The entries of records that were withheld: the first one is the file, the others link to it. -/
def resolve : List EntryMetadata → List EntryMetadata
  | [] => []
  | first :: rest => first :: rest.map (hardlinkMetadata · first.path)

/-- A record of the group: the group after it, the entries that are queued and the entry that is
emitted at once, if any. -/
def joinGroup (group : HardlinkGroup) (m : EntryMetadata) (size : ℕ) :
    Except ArchiveError (HardlinkGroup × List EntryMetadata × Option EntryMetadata) := do
  if group.expected ≠ linksOf m then
    throw (cpioError .malformed "hardlink group disagrees on link count")
  let seen ← okOr (checkedAdd group.seen 1) (cpioError .limit "hardlink count overflow")
  if group.expected < seen then
    throw (cpioError .malformed "hardlink group has more records than nlink")
  if size ≠ 0 then
    if group.target.isSome then
      throw (cpioError .malformed "hardlink group contains multiple payload records")
    return ({ group with seen, target := some m.path, pending := [] },
      group.pending.map (hardlinkMetadata · m.path), some m)
  else match group.target with
    | some target => return ({ group with seen }, [], some (hardlinkMetadata m target))
    | none =>
      let pending := group.pending ++ [m]
      if seen = group.expected then
        return ({ group with seen, target := pending.head?.map (·.path), pending := [] },
          resolve pending, none)
      else return ({ group with seen, pending }, [], none)

namespace CpioDecoder

/-- `CpioDecoder::new`. -/
def new (limits : Limits) (metadataSize : ℕ) : CpioDecoder := { limits, metadataSize }

/-- `charge_hardlink_metadata`. -/
def chargeHardlinkMetadata (d : CpioDecoder) (m : EntryMetadata) : Except ArchiveError ℕ := do
  let charge ← okOr (checkedAdd d.metadataSize m.path.raw.length)
    (cpioError .limit "hardlink metadata accounting overflow")
  let total ← okOr (checkedAdd d.hardlinkMetadata charge)
    (cpioError .limit "hardlink metadata accounting overflow")
  if exceeds total d.limits.metadataBytes then
    throw (cpioError .limit "hardlink metadata exceeds configured limit")
  return total

/-- `classify_hardlink`: the entry to emit now, or none for a withheld record. -/
def classifyHardlink (d : CpioDecoder) (m : EntryMetadata) (size : ℕ) :
    Except ArchiveError (Option EntryMetadata × CpioDecoder) :=
  if !isGrouped m then .ok (some m, d)
  else do
    let hardlinkMetadata ← d.chargeHardlinkMetadata m
    let group := (SortedMap.find (keyOf m) d.hardlinks).getD { expected := linksOf m }
    let (group, queued, result) ← joinGroup group m size
    return (result, { d with
      hardlinkMetadata
      hardlinks := SortedMap.insert HardlinkKey.lt (keyOf m) group
        (SortedMap.erase (keyOf m) d.hardlinks)
      queued := d.queued ++ queued.flatMap queueEntry })

/-- A group whose records are no longer withheld. -/
def resolveGroup (group : HardlinkGroup) : HardlinkGroup :=
  if group.target.isSome || group.pending.isEmpty then group
  else { group with target := group.pending.head?.map (·.path), pending := [] }

/-- The entries of the records a group withholds. -/
def unresolved (group : HardlinkGroup) : List EntryMetadata :=
  if group.target.isSome then [] else resolve group.pending

/-- `resolve_incomplete_hardlinks`. -/
def resolveIncompleteHardlinks (d : CpioDecoder) : CpioDecoder :=
  { d with
    hardlinks := d.hardlinks.map fun b => (b.1, resolveGroup b.2)
    queued := d.queued ++ (d.hardlinks.flatMap fun b => unresolved b.2).flatMap queueEntry }

/-- `pop_queued`. -/
def popQueued (d : CpioDecoder) : Option (DecodeEvent × CpioDecoder) :=
  match d.queued with
  | [] => none
  | .entry m :: rest => some (.entry m, { d with queued := rest })
  | .endEntry :: rest => some (.endEntry, { d with queued := rest })

/-- The number of header bytes to read while no target is known. -/
def defaultTarget (header : List Byte) : ℕ :=
  if header.length < 2 then 2
  else if isBinary header then binaryHeader
  else if header.length < 6 then 6
  else if odcMagic.isPrefixOf header then odcHeader
  else newcHeader

/-- How the reading of a header ends: with the bytes missing, or complete. -/
inductive HeaderRead where
  | starved (consumed : ℕ) (header : List Byte) (target : Option ℕ)
  | complete (consumed : ℕ) (header : List Byte)
deriving DecidableEq

/-- The header loop of `step`. A round that repeats has reached its target, and takes input in the
next one, so one more round than there are bytes of input is enough. -/
def headerLoop (limits : Limits) (eoi : EndOfInput) : ℕ → List Byte → Option ℕ → List Byte → ℕ →
    Except ArchiveError HeaderRead
  | 0, header, target, _, consumed => .ok (.starved consumed header target)
  | n + 1, header, target, input, consumed =>
    let t := target.getD (defaultTarget header)
    let count := min (t - header.length) input.length
    let header := header ++ input.take count
    if header.length < t then
      if eoi = .end then .error (cpioError .malformed "truncated entry header")
      else .ok (.starved (consumed + count) header target)
    else do
      let next ← targetFromPrefix limits header
      if next.any fun needed => decide (header.length < needed) then
        if count = input.length then return .starved (consumed + count) header next
        else headerLoop limits eoi n header next (input.drop count) (consumed + count)
      else return .complete (consumed + count) header

/-- `usize` sums of progress. -/
def addProgress (a b : ℕ) : Except ArchiveError ℕ :=
  okOr (checkedAdd a b) (cpioError .limit "decoder progress overflow")

/-- What one activation of `step` does: answer, or call itself on the rest of the input. -/
inductive Turn where
  | stop (s : DecodeStep)
  | again (consumed : ℕ)
deriving DecidableEq

/-- The byte sum of a `crc` payload. -/
def byteSum (acc : UInt32) (bytes : List Byte) : UInt32 :=
  bytes.foldl (fun sum b => sum + b.toUInt32) acc

/-- The turn in the middle of a payload. -/
def turnData (d : CpioDecoder) (input : List Byte) (eoi : EndOfInput) (remaining padding : ℕ)
    (checksum : Option UInt32) (checksumActual : UInt32) (emitEnd : Bool) :
    Except ArchiveError (Turn × CpioDecoder) :=
  if remaining = 0 then
    .ok (.again 0, { d with state := .endEntry padding checksum checksumActual emitEnd })
  else if input.isEmpty then
    if eoi = .end then .error (cpioError .malformed "truncated entry data")
    else .ok (.stop ⟨0, 0, .needInput⟩, d)
  else do
    let count := min input.length remaining
    let total ← okOr (checkedAdd d.total count) (cpioError .limit "decoded byte count overflow")
    if exceeds total d.limits.decodedTotal then
      throw (cpioError .limit "decoded total exceeds configured limit")
    return (.stop ⟨count, 0, .data (input.take count)⟩, { d with
      total
      state := .data (remaining - count) padding checksum
        (byteSum checksumActual (input.take count)) emitEnd })

/-- The turn after a payload. -/
def turnEndEntry (d : CpioDecoder) (input : List Byte) (eoi : EndOfInput) (padding : ℕ)
    (checksum : Option UInt32) (checksumActual : UInt32) (emitEnd : Bool) :
    Except ArchiveError (Turn × CpioDecoder) :=
  if input.length < padding then
    if eoi = .end then .error (cpioError .malformed "truncated entry padding")
    else .ok (.stop ⟨0, 0, .needInput⟩, d)
  else if checksum.any (· ≠ checksumActual) then
    .error (cpioError .integrity "crc payload checksum mismatch")
  else if emitEnd then .ok (.stop ⟨padding, 0, .endEntry⟩, { d with state := .header })
  else .ok (.again padding, { d with state := .header })

/-- A complete header of a record or of the trailer. -/
def enter (d : CpioDecoder) (consumed : ℕ) (parsed : ParsedHeader) :
    Except ArchiveError (Turn × CpioDecoder) :=
  if parsed.trailer then
    let d := { d.resolveIncompleteHardlinks with state := .done }
    match d.popQueued with
    | some (event, d) => .ok (.stop ⟨consumed, 0, event⟩, d)
    | none => .ok (.stop ⟨consumed, 0, .done⟩, d)
  else do
    let entries ← okOr (checkedAdd d.entries 1) (cpioError .limit "entry count overflow")
    if exceeds entries d.limits.entries then
      throw (cpioError .limit "entry count exceeds configured limit")
    let (metadata, d) ← ({ d with entries } : CpioDecoder).classifyHardlink parsed.metadata
      parsed.size
    let d := { d with
      state := .data parsed.size parsed.padding parsed.checksum 0 metadata.isSome }
    match metadata with
    | some m => return (.stop ⟨consumed, 0, .entry m⟩, d)
    | none => return (.again consumed, d)

/-- The turn at a header. -/
def turnHeader (d : CpioDecoder) (input : List Byte) (eoi : EndOfInput) :
    Except ArchiveError (Turn × CpioDecoder) := do
  match ← headerLoop d.limits eoi (input.length + 2) d.header d.headerTarget input 0 with
  | .starved consumed header headerTarget =>
    return (.stop ⟨consumed, 0, .needInput⟩, { d with header, headerTarget })
  | .complete consumed header =>
    let parsed ← parseHeader d.limits header
    ({ d with header := [], headerTarget := none } : CpioDecoder).enter consumed parsed

/-- One activation of `step`. -/
def turn (d : CpioDecoder) (input : List Byte) (eoi : EndOfInput) :
    Except ArchiveError (Turn × CpioDecoder) :=
  match d.state with
  | .data remaining padding checksum checksumActual emitEnd =>
    d.turnData input eoi remaining padding checksum checksumActual emitEnd
  | .endEntry padding checksum checksumActual emitEnd =>
    d.turnEndEntry input eoi padding checksum checksumActual emitEnd
  | .header =>
    match d.popQueued with
    | some (event, d) => .ok (.stop ⟨0, 0, event⟩, d)
    | none => d.turnHeader input eoi
  | .done =>
    match d.popQueued with
    | some (event, d) => .ok (.stop ⟨0, 0, event⟩, d)
    | none =>
      if !input.isEmpty then .error (cpioError .protocol "input supplied after archive completion")
      else .ok (.stop ⟨0, 0, .done⟩, d)

/-- The turns of one call. -/
def turns (eoi : EndOfInput) : ℕ → CpioDecoder → List Byte →
    Except ArchiveError (DecodeStep × CpioDecoder)
  | 0, d, _ => .ok (⟨0, 0, .needInput⟩, d)
  | n + 1, d, input => do
    let (t, d) ← d.turn input eoi
    match t with
    | .stop s => return (s, d)
    | .again consumed =>
      let (s, d) ← turns eoi n d (input.drop consumed)
      return ({ s with consumed := ← addProgress s.consumed consumed }, d)

/-- `CpioDecoder::step`. The scratch buffer is not used. -/
def step (d : CpioDecoder) (input : List Byte) (_outputLen : ℕ) (eoi : EndOfInput) :
    Except ArchiveError (DecodeStep × CpioDecoder) :=
  turns eoi (3 * input.length + 4) d input

end CpioDecoder

/-- `CpioDecoder::probe`. -/
def probe (pre : List Byte) : ProbeResult Unit :=
  if pre.length < 2 then .needMore 2
  else if isBinary pre then .isMatch ()
  else if pre.length < 6 then .needMore 6
  else if isNewc pre || odcMagic.isPrefixOf pre then .isMatch ()
  else .noMatch

end LibarchiveOxide.Cpio.Decoder
