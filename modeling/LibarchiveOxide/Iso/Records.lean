import LibarchiveOxide.Iso.Fields
import LibarchiveOxide.Lib.Result

/-! # Directory records

A directory record has at most 255 bytes; system-use fields that it has no room for go into the
continuation area, which all directories share (`SuspContinuationArea`). The records of a directory lie
in whole sectors, none of them across two (`layoutRecords`). -/

namespace LibarchiveOxide.Iso.Records

open Core.Failure Core.Metadata Lib.LittleEndian Lib Lib.Result Stream.Event Iso.Fields Iso.Names

/-! ### System-use fields -/

/-- `push_susp_field`, as the field that is added. -/
def suspField (signature value : List Byte) : Except StreamError (List Byte) :=
  if 255 < value.length + 4 then
    .error (isoError .unsupported "Rock Ridge field requires an unsupported continuation area")
  else .ok (signature ++ [UInt8.ofNat (value.length + 4), 1] ++ value)

/-- The pieces of a list of at most `n` elements each (`slice::chunks`). -/
def chunks {α : Type} (n : ℕ) (l : List α) : List (List α) :=
  (List.range ((l.length + n - 1) / n)).map fun i => (l.drop (i * n)).take n

/-- Values as fields of a signature, of which all but the last say that they continue. -/
def continuedFields (signature : List Byte) : List (List Byte) → Except StreamError (List Byte)
  | [] => .ok []
  | [value] => suspField signature (0 :: value)
  | value :: v :: values => do
    let field ← suspField signature (1 :: value)
    let fields ← continuedFields signature (v :: values)
    return field ++ fields

/-- `push_nm_fields`. -/
def nmFields (name : List Byte) : Except StreamError (List Byte) :=
  if name = [] then suspField (bstr "NM") [0] else continuedFields (bstr "NM") (chunks 250 name)

local instance lawful_key : LawfulBEq (List Byte) := inferInstance

/-- `append_raw_system_use`, as what is added. -/
def rawSystemUse (extension : Extension) : Except StreamError (List Byte) :=
  if extension.namespace_ ≠ "iso-system-use" ∨ extension.key ∈
      ["SP", "RR", "NM", "PX", "PN", "SL", "TF", "CE", "ST"].map bstr then .ok []
  else if extension.key.length ≠ 2 then
    .error (isoError .malformed "raw ISO system-use signature must be two bytes")
  else
    let value := extension.value
    if 4 ≤ value.length ∧ value.take 2 = extension.key ∧ (value.getD 2 0).toNat = value.length then
      .ok value
    else suspField extension.key value

/-- A component of a link target, as a component record. -/
def linkComponent (component : List Byte) : Except StreamError (List Byte) :=
  if component = bstr "." then .ok [0x02, 0]
  else if component = bstr ".." then .ok [0x04, 0]
  else if 255 < component.length then
    .error (isoError .unsupported "Rock Ridge symlink component exceeds u8")
  else if 248 < component.length then
    .error (isoError .unsupported "Rock Ridge symlink component requires component continuation")
  else .ok ([0, UInt8.ofNat component.length] ++ component)

/-- The component records, as many in a group as a field has room for; the last group is the current
one. -/
def groupComponents : List (List Byte) → List Byte → List (List Byte)
  | [], current => [current]
  | component :: components, current =>
    if current ≠ [] ∧ 250 < current.length + component.length then
      current :: groupComponents components component
    else groupComponents components (current ++ component)

/-- `push_symbolic_link_fields`. -/
def symbolicLinkFields (target : List Byte) : Except StreamError (List Byte) := do
  let components ← ((target.splitOn (chr '/')).filter (· ≠ [])).mapM linkComponent
  let root : List (List Byte) := if target.head? = some (chr '/') then [[0x08, 0]] else []
  continuedFields (bstr "SL") (groupComponents (root ++ components) [])

/-- `timestamp_field`. -/
def timestampField (times : EntryTimes) : Option (List Byte) :=
  let values := [times.created, times.modified, times.accessed, times.changed].map
    fun t => t.bind longTimestamp
  let flags := (values.zipIdx.map fun (v, bit) => if v.isSome then 2 ^ bit else 0).sum
  if flags = 0 then none else some (UInt8.ofNat (0x80 + flags) :: values.reduceOption.flatten)

/-- `full_mode`. -/
def fullMode (kind : EntryKind) (permissions : Option UInt32) : UInt32 :=
  let fileType : UInt32 :=
    match kind with
    | .file | .hardlink => 0o100000
    | .dir => 0o040000
    | .symlink => 0o120000
    | .block => 0o060000
    | .char => 0o020000
    | .fifo => 0o010000
    | .socket => 0o140000
  fileType ||| (permissions.getD (if kind = .dir then 0o755 else 0o644) &&& 0o7777)

/-- `u32_value`. -/
def u32Value (value : UInt64) (context : String) : Except StreamError ℕ :=
  if value.toNat ≤ u32Max then .ok value.toNat else .error (isoError .unsupported context)

/-- `continuation_field`. -/
def continuationField (block offset length : ℕ) : Except StreamError (List Byte) :=
  suspField (bstr "CE") (bothEndianU32 block ++ bothEndianU32 offset ++ bothEndianU32 length)

/-! ### The continuation area -/

/-- `SuspContinuationArea`. -/
structure SuspContinuationArea where
  baseLba : ℕ
  bytes : List Byte := []
deriving DecidableEq

/-- `SuspContinuationArea::append`: the field for what was appended. -/
def SuspContinuationArea.append (area : SuspContinuationArea) (bytes : List Byte) :
    Except StreamError (SuspContinuationArea × List Byte) := do
  let absoluteOffset := area.bytes.length
  if u32Max < absoluteOffset / SECTOR then
    throw (isoError .limit "ISO continuation LBA exceeds u32")
  let block := area.baseLba + absoluteOffset / SECTOR
  if u32Max < block then
    throw (isoError .limit "ISO continuation LBA overflow")
  if u32Max < bytes.length then
    throw (isoError .limit "ISO continuation length exceeds u32")
  let field ← continuationField block (absoluteOffset % SECTOR) bytes.length
  return ({ area with bytes := area.bytes ++ bytes }, field)

/-- The loop of `susp_field_prefix`, with a round for each byte. -/
def prefixLoop (systemUse : List Byte) (maximum : ℕ) : ℕ → ℕ → Except StreamError ℕ
  | 0, cursor => .ok cursor
  | rounds + 1, cursor =>
    if cursor < systemUse.length then
      match systemUse[cursor + 2]? with
      | none => .error (isoError .malformed "truncated ISO system-use field header")
      | some length =>
        if length.toNat < 4 then
          .error (isoError .malformed "invalid ISO system-use field length")
        else if systemUse.length < cursor + length.toNat then
          .error (isoError .malformed "ISO system-use field exceeds its data")
        else if maximum < cursor + length.toNat then .ok cursor
        else prefixLoop systemUse maximum rounds (cursor + length.toNat)
    else .ok cursor

/-- `susp_field_prefix`: how much of the system-use data has room in the record. -/
def suspFieldPrefix (systemUse : List Byte) (maximum : ℕ) : Except StreamError ℕ :=
  prefixLoop systemUse maximum systemUse.length 0

/-! ### Records -/

/-- Where the system-use data begins in a record. -/
def systemUseStart (identifierLength : ℕ) : ℕ :=
  DIRECTORY_RECORD_BASE + identifierLength + if identifierLength % 2 = 0 then 1 else 0

/-- The system-use data of a record, and the continuation area behind it: all of it, or what there is
room for and where the rest is. -/
def recordSystemUse (systemUse : List Byte) (available : ℕ)
    (continuation : Option SuspContinuationArea) :
    Except StreamError (List Byte × Option SuspContinuationArea) :=
  if systemUse.length ≤ available then .ok (systemUse, continuation)
  else if available < 28 then
    .error (isoError .unsupported "ISO identifier leaves no room for a continuation entry")
  else
    match suspFieldPrefix systemUse (available - 28) with
    | .error e => .error e
    | .ok inline =>
      if systemUse.length < inline then
        .error (isoError .malformed "ISO continuation split exceeds system-use data")
      else
        let continued := systemUse.drop inline
        match continuation with
        | some area =>
          (area.append continued).map fun (area, ce) => (systemUse.take inline ++ ce, some area)
        | none =>
          if u32Max < continued.length then
            .error (isoError .limit "ISO continuation length exceeds u32")
          else (continuationField 0 0 continued.length).map fun ce =>
            (systemUse.take inline ++ ce, none)

/-- The bytes of a record, field by field. -/
def recordBytes (identifier : List Byte) (lba size : ℕ) (directory : Bool)
    (recordingTime systemUse : List Byte) : List Byte :=
  [UInt8.ofNat (systemUseStart identifier.length + systemUse.length), 0] ++ bothEndianU32 lba ++
    bothEndianU32 size ++ recordingTime ++ [if directory then DIRECTORY_FLAG else 0, 0, 0] ++
    bothEndianU16 1 ++ [UInt8.ofNat identifier.length] ++ identifier ++
    (if identifier.length % 2 = 0 then [0] else []) ++ systemUse

/-- `continued_directory_record`: the record, and the continuation area behind it. -/
def continuedDirectoryRecord (identifier : List Byte) (lba size : ℕ) (directory : Bool)
    (recordingTime systemUse : List Byte) (continuation : Option SuspContinuationArea) :
    Except StreamError (List Byte × Option SuspContinuationArea) := do
  let start := systemUseStart identifier.length
  if 255 < start then
    throw (isoError .unsupported "ISO identifier leaves no room in its directory record")
  let (inRecord, continuation) ← recordSystemUse systemUse (255 - start) continuation
  if 255 < start + inRecord.length then
    throw (isoError .limit "ISO directory record exceeds u8")
  if 255 < identifier.length then
    throw (isoError .unsupported "ISO identifier exceeds u8")
  return (recordBytes identifier lba size directory recordingTime inRecord, continuation)

/-- `directory_record`. -/
def directoryRecord (identifier : List Byte) (lba size : ℕ) (directory : Bool)
    (recordingTime systemUse : List Byte) : Except StreamError (List Byte) :=
  (continuedDirectoryRecord identifier lba size directory recordingTime systemUse none).map (·.1)

/-! ### Directories -/

/-- Where a record of this length comes to lie, if nothing else does from `position` on. -/
def recordPosition (position length : ℕ) : ℕ :=
  if SECTOR < position % SECTOR + length then position + (SECTOR - position % SECTOR) else position

/-- The position behind records of these lengths. -/
def layoutEnd (lengths : List ℕ) : ℕ :=
  lengths.foldl (fun position length => recordPosition position length + length) 0

/-- The number of sectors for so many bytes. -/
def sectors (bytes : ℕ) : ℕ := (bytes + (SECTOR - 1)) / SECTOR

/-- `layout_length`. -/
def layoutLength (records : List (List Byte)) : ℕ :=
  max (sectors (layoutEnd (records.map List.length))) 1 * SECTOR

/-- The loop of `layout_records`. -/
def layoutLoop : List (List Byte) → ℕ → List Byte → List Byte
  | [], _, extent => extent
  | record :: records, position, extent =>
    let position := recordPosition position record.length
    layoutLoop records (position + record.length) (Slice.splice extent position record)

/-- `layout_records`. -/
def layoutRecords (records : List (List Byte)) : List Byte :=
  layoutLoop records 0 (List.replicate (layoutLength records) 0)

/-- `advance_lba`. -/
def advanceLba (lba bytes : ℕ) : Except StreamError ℕ :=
  if u32Max < sectors bytes then .error (isoError .limit "ISO region exceeds u32 sectors")
  else if u32Max < lba + sectors bytes then .error (isoError .limit "ISO LBA overflow")
  else .ok (lba + sectors bytes)

end LibarchiveOxide.Iso.Records

/-! # The extent of a directory

The records of a directory lie in its extent one behind the other, each inside one sector. -/

namespace LibarchiveOxide.Iso.Extents

open Core.Failure Lib.Slice Stream.Event Iso.Fields Iso.Records

/-- Where records of these lengths lie. -/
def recordPositions : List ℕ → ℕ → List ℕ
  | [], _ => []
  | length :: lengths, position =>
    recordPosition position length ::
      recordPositions lengths (recordPosition position length + length)

/-- The records lie at these positions of the extent, each in one sector and behind the ones before. -/
structure Whole (extent : List Byte) (records : List (List Byte)) (positions : List ℕ) : Prop where
  sector : List.Forall₂ (fun q r => q % SECTOR + r.length ≤ SECTOR) positions records
  bytes : List.Forall₂ (fun q r => window extent q (q + r.length) = r) positions records
  apart : (positions.zip records).Pairwise fun a b => a.1 + a.2.length ≤ b.1

theorem le_recordPosition (position length : ℕ) : position ≤ recordPosition position length := by
  unfold recordPosition
  split_ifs <;> omega

/-- No record straddles a sector. -/
theorem recordPosition_mod {position length : ℕ} (h : length ≤ SECTOR) :
    recordPosition position length % SECTOR + length ≤ SECTOR := by
  have hs : SECTOR = 2048 := rfl
  rw [hs] at h
  simp only [recordPosition, hs]
  split_ifs <;> omega

theorem le_of_mem_recordPositions : ∀ {lengths : List ℕ} {position q : ℕ},
    q ∈ recordPositions lengths position → position ≤ q
  | length :: lengths, position, q, h => by
    have hle := le_recordPosition position length
    rcases List.mem_cons.mp h with rfl | h
    · exact hle
    · have := le_of_mem_recordPositions h
      omega

/-- The position behind records of these lengths, from a position on. -/
def endFrom (position : ℕ) (lengths : List ℕ) : ℕ :=
  lengths.foldl (fun position length => recordPosition position length + length) position

theorem le_endFrom : ∀ (lengths : List ℕ) (position : ℕ), position ≤ endFrom position lengths
  | [], _ => le_rfl
  | length :: lengths, position => by
    have h1 := le_recordPosition position length
    have h2 := le_endFrom lengths (recordPosition position length + length)
    have h3 : endFrom position (length :: lengths) =
      endFrom (recordPosition position length + length) lengths := rfl
    omega

/-- **The loop** puts every record at its position, and leaves what is before as it is. -/
theorem layoutLoop_ok : ∀ {records : List (List Byte)} {position : ℕ} {extent : List Byte},
    (∀ r ∈ records, r.length ≤ SECTOR) →
    endFrom position (records.map List.length) ≤ extent.length →
    (layoutLoop records position extent).length = extent.length ∧
      (∀ a b, b ≤ position → window (layoutLoop records position extent) a b = window extent a b) ∧
      Whole (layoutLoop records position extent) records
        (recordPositions (records.map List.length) position)
  | [], _, _, _, _ => ⟨rfl, fun _ _ _ => rfl, .nil, .nil, .nil⟩
  | r :: records, position, extent, hshort, hend => by
    obtain ⟨hr, hshort⟩ := List.forall_mem_cons.mp hshort
    set q := recordPosition position r.length
    have hq : position ≤ q := le_recordPosition _ _
    have hend : endFrom (q + r.length) (records.map List.length) ≤ extent.length := hend
    have hfits : q + r.length ≤ extent.length := (le_endFrom _ _).trans hend
    have hlength := length_splice (v := r) hfits
    obtain ⟨hlen, hkeep, hsector, hbytes, hapart⟩ := layoutLoop_ok hshort (hlength.symm ▸ hend)
    refine ⟨hlen.trans hlength, fun a b hb => ?_, ?_, ?_, ?_⟩
    · exact (hkeep a b (by omega)).trans (window_splice_of_disjoint hfits (.inl (by omega)))
    · exact .cons (recordPosition_mod hr) hsector
    · exact .cons ((hkeep _ _ le_rfl).trans (window_splice_self hfits)) hbytes
    · refine List.pairwise_cons.mpr ⟨fun x hx => ?_, hapart⟩
      exact le_of_mem_recordPositions (List.of_mem_zip hx).1

theorem le_sectors (bytes : ℕ) : bytes ≤ sectors bytes * SECTOR := by
  have hs : SECTOR = 2048 := rfl
  simp only [sectors, hs]
  omega

theorem layoutLength_mod (records : List (List Byte)) : layoutLength records % SECTOR = 0 :=
  Nat.mul_mod_left _ _

theorem length_layoutRecords {records : List (List Byte)} (h : ∀ r ∈ records, r.length ≤ 255) :
    (layoutRecords records).length = layoutLength records ∧
      Whole (layoutRecords records) records (recordPositions (records.map List.length) 0) := by
  have hshort : ∀ r ∈ records, r.length ≤ SECTOR := fun r hr => (h r hr).trans (by decide)
  have hend : endFrom 0 (records.map List.length) ≤
      (List.replicate (layoutLength records) (0 : Byte)).length := by
    rw [List.length_replicate]
    exact (le_sectors _).trans (Nat.mul_le_mul_right _ (le_max_left _ _))
  obtain ⟨hlen, -, hwhole⟩ := layoutLoop_ok hshort hend
  exact ⟨hlen.trans List.length_replicate, hwhole⟩

end LibarchiveOxide.Iso.Extents
