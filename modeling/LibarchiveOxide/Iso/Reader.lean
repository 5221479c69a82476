import LibarchiveOxide.Extract.Filesystem
import LibarchiveOxide.Iso.Fields
import LibarchiveOxide.Iso.SystemUse
import LibarchiveOxide.Lib.Result

/-! # The index of an ISO image

`parse_iso_index` reads the volume descriptors, chooses a tree, and walks over its directories. The loops
have a bound on their rounds where the image does not give one. -/

namespace LibarchiveOxide.Iso.Reader

open Core.Failure Core.Budget Core.Metadata Lib.Slice Lib.Result Extract.Path Stream.Event
open Stream.Image Iso.Fields Iso.Names Iso.SystemUse

def ISO_MAX_DESCRIPTORS : ℕ := 64

/-- `IsoRoot`. -/
structure IsoRoot where
  lba : ℕ
  size : ℕ
  joliet : Bool
deriving DecidableEq

/-- `IsoDirectory`. -/
structure IsoDirectory where
  lba : ℕ
  size : ℕ
  pathPrefix : List Byte
  depth : ℕ
deriving DecidableEq

/-- `IsoIndex`. -/
structure IsoIndex where
  metadata : EntryMetadata
  dataOffset : ℕ
  size : ℕ
deriving DecidableEq

/-! ### Volume descriptors -/

/-- `trim_iso_text`. -/
def trimIsoText (value : List Byte) : List Byte :=
  (value.reverse.dropWhile fun b => b == chr ' ' || b == 0).reverse

/-- `encoded_iso_text`. -/
def encodedIsoText (value : List Byte) : ArchivePath :=
  if validUtf8 value then .fromUtf8 value else .fromBytes value

/-- `is_joliet_descriptor`. -/
def isJolietDescriptor (descriptor : List Byte) : Bool :=
  (List.range 30).any fun i =>
    let value := window descriptor (88 + i) (88 + i + 3)
    value == [0x25, 0x2f, 0x40] || value == [0x25, 0x2f, 0x43] || value == [0x25, 0x2f, 0x45]

/-- The root directory in a volume descriptor. -/
def descriptorRoot (descriptor : List Byte) (joliet : Bool) : Except StreamError IsoRoot := do
  let lba ← isoU32 descriptor 158
  let size ← isoU32 descriptor 166
  return ⟨lba, size, joliet⟩

/-- A text of a volume descriptor as an extension, unless it is empty. -/
def textExtension (key : String) (value : List Byte) : List Extension :=
  if value = [] then [] else [⟨"iso9660-volume", bstr key, value⟩]

/-- The texts of the primary volume descriptor. -/
def descriptorTexts (descriptor : List Byte) (metadata : ArchiveMetadata) : ArchiveMetadata :=
  let volume := trimIsoText (window descriptor 40 72)
  { metadata with
    volumeName := if volume = [] then metadata.volumeName else some (encodedIsoText volume)
    extensions := metadata.extensions ++
      textExtension "system-id" (trimIsoText (window descriptor 8 40)) ++
      textExtension "application-id" (trimIsoText (window descriptor 574 702)) }

/-- What the volume descriptors say. -/
structure Volumes where
  primary : Option IsoRoot := none
  joliet : Option IsoRoot := none
  archiveMetadata : ArchiveMetadata := {}

/-- A volume descriptor that is not the terminator. -/
def readDescriptor (descriptor : List Byte) (v : Volumes) : Except StreamError Volumes :=
  if descriptor.head? = some 1 then do
    let blockSize ← isoU16 descriptor 128
    if blockSize ≠ SECTOR then
      throw (isoError .unsupported "logical block size is not 2048")
    let root ← descriptorRoot descriptor false
    return { v with
      primary := some root
      archiveMetadata := descriptorTexts descriptor v.archiveMetadata }
  else if descriptor.head? = some 2 ∧ isJolietDescriptor descriptor then do
    let root ← descriptorRoot descriptor true
    return { v with joliet := some root }
  else .ok v

/-- The loop over the volume descriptors, with so many left, and the check behind it. -/
def descriptorLoop (image : List Byte) : ℕ → ℕ → Volumes → Except StreamError Volumes
  | 0, _, _ => .error (isoError .malformed "volume descriptor terminator is missing")
  | left + 1, index, v => do
    let offset := (DESCRIPTOR_START + index) * SECTOR
    if image.length < offset + SECTOR then
      throw (isoError .malformed "truncated volume descriptor set")
    let descriptor ← readExact image offset SECTOR
    if window descriptor 1 6 ≠ bstr "CD001" ∨ descriptor.getD 6 0 ≠ 1 then
      throw (isoError .malformed "invalid volume descriptor identifier or version")
    if descriptor.head? = some 255 then return v
    else
      let v ← readDescriptor descriptor v
      descriptorLoop image left (index + 1) v

/-! ### Directories -/

/-- The code points of UTF-16, with replacements for surrogates without a partner. -/
def decodeUtf16 : List ℕ → List ℕ
  | [] => []
  | [u] => if 0xD800 ≤ u ∧ u ≤ 0xDFFF then [replacement] else [u]
  | u :: v :: rest =>
    if u < 0xD800 ∨ 0xDFFF < u then u :: decodeUtf16 (v :: rest)
    else if u < 0xDC00 ∧ 0xDC00 ≤ v ∧ v ≤ 0xDFFF then
      (0x10000 + (u - 0xD800) * 1024 + (v - 0xDC00)) :: decodeUtf16 rest
    else replacement :: decodeUtf16 (v :: rest)

/-- The big-endian units of an even number of bytes. -/
def beUnits : List Byte → List ℕ
  | hi :: lo :: rest => (hi.toNat * 256 + lo.toNat) :: beUnits rest
  | _ => []

/-- `decode_iso_identifier`. -/
def decodeIsoIdentifier (identifier : List Byte) (joliet isDirectory : Bool) :
    Except StreamError (List Byte) := do
  if joliet ∧ identifier.length % 2 ≠ 0 then
    throw (isoError .malformed "odd-length Joliet identifier")
  let name := if joliet then (decodeUtf16 (beUnits identifier)).flatMap utf8Bytes else identifier
  let name := name.takeWhile (· ≠ chr ';')
  if joliet = false ∧ isDirectory = false ∧ name.getLast? = some (chr '.') then return name.dropLast
  else return name

/-- `detect_rock_ridge`: the loop over the fields of the first record, with a round for each byte. -/
def rockRidgeLoop : ℕ → List Byte → Bool → ℕ → Option ℕ
  | rounds + 1, s0 :: s1 :: length :: version :: rest, saw, skip =>
    let systemUse := s0 :: s1 :: length :: version :: rest
    if length.toNat < 4 ∨ systemUse.length < length.toNat then if saw then some skip else none
    else
      let field := systemUse.take length.toNat
      let isSp := decide ([s0, s1] = bstr "SP" ∧ 7 ≤ field.length ∧ window field 4 6 = [0xbe, 0xef])
      let isOther := [s0, s1] == bstr "RR" || [s0, s1] == bstr "ER" || [s0, s1] == bstr "PX"
      rockRidgeLoop rounds (systemUse.drop length.toNat) (saw || isSp || isOther)
        (if isSp then (field.getD 6 0).toNat else skip)
  | _, _, saw, skip => if saw then some skip else none

/-- `detect_rock_ridge`. -/
def detectRockRidge (image : List Byte) (root : IsoRoot) (limits : Limits) :
    Except StreamError (Option ℕ) := do
  let offset ← okOr (checkedMul root.lba SECTOR)
    (isoError .malformed "root extent offset overflow")
  let readLength := min root.size SECTOR
  if exceeds readLength limits.inFlightBytes ∨
      ((checkedAdd offset readLength).all fun stop => decide (image.length < stop)) then
    throw (isoError .limit "root directory record exceeds configured limits")
  let bytes ← readExact image offset readLength
  let recordLength := (bytes.headD 0).toNat
  if bytes.length < recordLength ∨ recordLength ≤ DIRECTORY_RECORD_BASE then
    throw (isoError .malformed "invalid root directory record")
  let record := bytes.take recordLength
  let identifierLength := (record.getD 32 0).toNat
  let start := DIRECTORY_RECORD_BASE + identifierLength +
    if identifierLength % 2 = 0 then 1 else 0
  return rockRidgeLoop record.length (record.drop start) false 0

/-- What `parse_iso_directory` works on. -/
structure Index where
  metadataUsed : ℕ
  entries : List IsoIndex := []
  stack : List IsoDirectory := []

/-- The parameters of the walk over the directories. -/
structure Walk where
  image : List Byte
  joliet : Bool
  suspSkip : ℕ
  limits : Limits
  /-- `size_of::<IsoIndex>()`. -/
  indexSize : ℕ
  /-- The rounds that the continuation areas of a record may take. -/
  rounds : ℕ

/-- The metadata of an entry. -/
def entryMetadata (record path : List Byte) (joliet isDirectory : Bool) (size : ℕ) (r : RockRidge) :
    Except StreamError EntryMetadata := do
  let path : ArchivePath := ⟨path, if joliet then .utf8 else .bytes⟩
  (validateEncodedPath path).mapError .archive
  return {
    kind := r.kind.getD (if isDirectory then .dir else .file)
    path := path
    size := some (if isDirectory then 0 else UInt64.ofNat size)
    mode := some (r.mode.getD (if isDirectory then 0o755 else 0o644))
    owner := { uid := r.uid, gid := r.gid }
    times := {
      modified := r.modified.or (shortIsoTime (window record 18 25))
      accessed := r.accessed
      changed := r.changed
      created := r.created }
    linkTarget := r.linkTarget.map .fromBytes
    inode := r.inode
    links := r.links
    referencedDevice := r.referencedDevice
    extensions := r.extensions }

/-- The entry of a record that is neither the directory's own nor its parent's. -/
def readEntry (w : Walk) (directory : IsoDirectory) (record identifier : List Byte) (index : Index) :
    Option (Except StreamError Index) :=
  let isDirectory := record.getD 25 0 &&& DIRECTORY_FLAG ≠ 0
  let checked : Except StreamError (ℕ × ℕ × List Byte) := do
    if record.getD 25 0 &&& 0x80 ≠ 0 then
      throw (isoError .unsupported "multi-extent files are not yet supported")
    let lba ← isoU32 record 2
    let size ← isoU32 record 10
    if w.image.length < lba * SECTOR + size then
      throw (isoError .malformed "entry extent is outside the image")
    if exceeds size w.limits.entryBytes then
      throw (isoError .limit "entry exceeds configured size limit")
    let name ← decodeIsoIdentifier identifier w.joliet isDirectory
    return (lba, size, name)
  match checked with
  | .error e => some (.error e)
  | .ok (lba, size, name) =>
    let start := DIRECTORY_RECORD_BASE + identifier.length +
      (if identifier.length % 2 = 0 then 1 else 0) + w.suspSkip
    let systemUse := record.drop start
    (parseRockRidgeWithContinuations w.image systemUse w.image.length w.limits w.rounds).map
      fun parsed => do
        let (r, continuationBytes) ← parsed
        if r.relocated then return index
        else
          let path := directory.pathPrefix ++ r.name.getD name ++
            if isDirectory then [chr '/'] else []
          if exceeds path.length w.limits.pathBytes then
            throw (isoError .limit "entry path exceeds configured limit")
          let metadata ← entryMetadata record path w.joliet isDirectory size r
          let accounted ← okOr (do
            let value ← checkedAdd path.length systemUse.length
            let value ← checkedAdd value continuationBytes
            checkedAdd value w.indexSize) (isoError .limit "metadata accounting overflow")
          let used ← okOr (checkedAdd index.metadataUsed accounted)
            (isoError .limit "metadata accounting overflow")
          if exceeds used w.limits.metadataBytes then
            throw (isoError .limit "ISO metadata exceeds configured limit")
          if w.limits.entries.any fun maximum => decide (maximum ≤ index.entries.length) then
            throw (isoError .limit "entry count exceeds configured limit")
          return {
            metadataUsed := used
            entries := index.entries ++ [⟨metadata, lba * SECTOR, if isDirectory then 0 else size⟩]
            stack := if isDirectory then
                ⟨r.childLink.getD lba, size, path, directory.depth + 1⟩ :: index.stack
              else index.stack }

/-- The loop of `parse_iso_directory`, with a round for each byte of the extent. -/
def directoryLoop (w : Walk) (directory : IsoDirectory) (extent : List Byte) :
    ℕ → ℕ → Index → Option (Except StreamError Index)
  | 0, _, index => some (.ok index)
  | rounds + 1, position, index =>
    match extent[position]? with
    | none => some (.ok index)
    | some recordLength =>
      if recordLength = 0 then
        directoryLoop w directory extent rounds ((position / SECTOR + 1) * SECTOR) index
      else
        let stop := position + recordLength.toNat
        if extent.length < stop then
          some (.error (isoError .malformed "directory record exceeds its extent"))
        else
          let record := window extent position stop
          if record.length < DIRECTORY_RECORD_BASE + 1 then
            some (.error (isoError .malformed "directory record is too short"))
          else
            let identifierEnd := DIRECTORY_RECORD_BASE + (record.getD 32 0).toNat
            if record.length < identifierEnd then
              some (.error (isoError .malformed "identifier exceeds directory record"))
            else
              let identifier := window record DIRECTORY_RECORD_BASE identifierEnd
              if identifier = [0] ∨ identifier = [1] then
                directoryLoop w directory extent rounds stop index
              else
                match readEntry w directory record identifier index with
                | none => none
                | some (.error e) => some (.error e)
                | some (.ok index) => directoryLoop w directory extent rounds stop index

/-- The extent of a directory. -/
def readExtent (image : List Byte) (limits : Limits) (directory : IsoDirectory) :
    Except StreamError (List Byte) := do
  if exceeds directory.size limits.inFlightBytes then
    throw (isoError .limit "directory extent exceeds the in-flight buffer limit")
  if image.length < directory.lba * SECTOR + directory.size then
    throw (isoError .malformed "directory extent is outside the image")
  readExact image (directory.lba * SECTOR) directory.size

/-- The loop of `parse_iso_index` over the directories; the top of the stack is its head. -/
def walkLoop (w : Walk) : ℕ → List (ℕ × ℕ) → Index → Option (Except StreamError Index)
  | 0, _, _ => none
  | rounds + 1, visited, index =>
    match index.stack with
    | [] => some (.ok index)
    | directory :: stack =>
      if exceeds directory.depth w.limits.nesting then
        some (.error (isoError .limit "directory nesting exceeds configured limit"))
      else if (directory.lba, directory.size) ∈ visited then
        walkLoop w rounds visited { index with stack := stack }
      else
        match readExtent w.image w.limits directory with
        | .error e => some (.error e)
        | .ok extent =>
          match directoryLoop w directory extent extent.length 0 { index with stack := stack } with
          | none => none
          | some (.error e) => some (.error e)
          | some (.ok index) =>
            walkLoop w rounds ((directory.lba, directory.size) :: visited) index

/-- `archive_metadata_size`. -/
def archiveMetadataSize (metadata : ArchiveMetadata) : ℕ :=
  (metadata.volumeName.map fun n => n.raw.length).getD 0 +
    (metadata.comment.map List.length).getD 0 +
    (metadata.extensions.map fun e =>
      e.namespace_.utf8ByteSize + e.key.length + e.value.length).sum

/-- `parse_iso_index`; `none` while it is still going on as the rounds run out. -/
def parseIsoIndex (image : List Byte) (limits : Limits) (indexSize rounds : ℕ) :
    Option (Except StreamError (ArchiveMetadata × List IsoIndex)) :=
  let opened : Except StreamError (ArchiveMetadata × IsoRoot × ℕ) := do
    let v ← descriptorLoop image ISO_MAX_DESCRIPTORS 0 {}
    let primary ← okOr v.primary
      (isoError .malformed "primary volume descriptor is missing")
    match ← detectRockRidge image primary limits with
    | some skip => return (v.archiveMetadata, primary, skip)
    | none => return (v.archiveMetadata, v.joliet.getD primary, 0)
  match opened with
  | .error e => some (.error e)
  | .ok (metadata, root, skip) =>
    (walkLoop ⟨image, root.joliet, skip, limits, indexSize, rounds⟩ rounds []
      ⟨archiveMetadataSize metadata, [], [⟨root.lba, root.size, [], 0⟩]⟩).map fun walked =>
        walked.map fun index => (metadata, index.entries)

end LibarchiveOxide.Iso.Reader
