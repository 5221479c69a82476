import LibarchiveOxide.Core.Failure
import LibarchiveOxide.SevenZip.Streams
import LibarchiveOxide.SevenZip.Wire

/-! # The next header

`parseHeader` reads the sections of a header in whatever order they come: `folders` is the table of
the last streams section read so far, and each files section assigns windows from the table that is
there when it is read. -/

namespace LibarchiveOxide.SevenZip.Header

open Core.Failure Core.Metadata Core.Budget Lib SevenZip.Wire SevenZip.Graph SevenZip.Streams
open SevenZip.Names

/-- A parsed file record, with the window of a content file in its folder. -/
structure FileRec where
  name : List Byte
  kind : EntryKind
  mode : ℕ
  times : EntryTimes
  anti : Bool
  startPosition : Option ℕ
  hasStream : Bool
  folderIndex : Option ℕ
  streamOffset : ℕ
  size : ℕ
  crc : Option UInt32
deriving DecidableEq

/-- `MAX_FILES`. -/
def maxFiles : ℕ := 2 ^ 24

/-! ### Properties of the files -/

/-- A parser run on a property's body. -/
def onBody {α : Type} (p : Parse α) (body : List Byte) : Parse α :=
  match p { rest := body } with
  | .ok (a, _) => pure a
  | .error e => throw e

/-- The bytes of one name, up to its terminator; each code unit takes two bytes. -/
def nameLoop : ℕ → Parse (List Byte)
  | 0 => malformed "7z: truncated header field"
  | fuel + 1 => do
    let unit ← bytes 2
    if leValue unit = 0 then pure []
    else do
      let raw ← nameLoop fuel
      pure (unit ++ raw)

/-- One name. -/
def parseName : Parse (List Byte) := do
  let left ← remaining
  let raw ← nameLoop (left + 1)
  pure (utf16leToBytes raw)

/-- `parse_names`. -/
def parseNames (numFiles : ℕ) : Parse (List (List Byte)) := do
  let external ← u8
  if external ≠ 0 then unsupported "7z: names in an external stream"
  Parser.times parseName numFiles

/-- `read_all_defined`. -/
def readAllDefined (n : ℕ) : Parse (List Bool) := do
  let all ← u8
  if all ≠ 0 then pure (List.replicate n true) else bitVector n

/-- The values of the files that have one. -/
def definedValues {α : Type} (value : Parse α) : List Bool → Parse (List (Option α))
  | [] => pure []
  | d :: ds => do
    let v ← if d then (do
        let a ← value
        pure (some a))
      else pure none
    let vs ← definedValues value ds
    pure (v :: vs)

/-- A vector of optional values behind its `AllAreDefined` vector and its external byte. -/
def parseVector {α : Type} (value : Parse α) (external : String) (numFiles : ℕ) :
    Parse (List (Option α)) := do
  let defined ← readAllDefined numFiles
  let ext ← u8
  if ext ≠ 0 then unsupported external
  definedValues value defined

/-- `parse_times`. -/
def parseTimes : ℕ → Parse (List (Option Timestamp)) :=
  parseVector (do
    let ft ← u64
    pure (filetimeToTimestamp ft)) "7z: times in an external stream"

/-- `parse_positions`. -/
def parsePositions : ℕ → Parse (List (Option ℕ)) :=
  parseVector u64 "7z: start positions in an external stream"

/-- The Unix mode in an attribute word, if its marker is set. -/
def unixMode (attr : ℕ) : Option ℕ := if attr / 0x8000 % 2 ≠ 0 then some (attr / 65536) else none

/-- `parse_attributes`. -/
def parseAttributes (numFiles : ℕ) : Parse (List (Option ℕ)) := do
  let attrs ← parseVector u32 "7z: attributes in an external stream" numFiles
  pure (attrs.map fun a => a.bind unixMode)

/-- `permission_bits`. -/
def permissionBits (fullMode : Option ℕ) (kind : EntryKind) : ℕ :=
  match fullMode with
  | some m => if m % 0o10000 ≠ 0 then m % 0o10000 else (if kind = .dir then 0o755 else 0o644)
  | none => if kind = .dir then 0o755 else 0o644

/-- The tables of `parse_files_info` while they are read. -/
structure FilesState where
  emptyStream : List Bool
  emptyFile : List Bool := []
  antiEmpty : List Bool := []
  names : List (List Byte) := []
  created : List (Option Timestamp)
  accessed : List (Option Timestamp)
  modified : List (Option Timestamp)
  startPositions : List (Option ℕ)
  modes : List (Option ℕ)
deriving DecidableEq

/-- Nothing is known about the files yet. -/
def FilesState.new (numFiles : ℕ) : FilesState where
  emptyStream := List.replicate numFiles false
  created := List.replicate numFiles none
  accessed := List.replicate numFiles none
  modified := List.replicate numFiles none
  startPositions := List.replicate numFiles none
  modes := List.replicate numFiles none

/-- The number of files without a stream. -/
def FilesState.numEmpty (st : FilesState) : ℕ := st.emptyStream.count true

/-- One property of the files. -/
def parseProperty (numFiles prop : ℕ) (body : List Byte) (st : FilesState) : Parse FilesState :=
  if prop = kEmptyStream.toNat then do
    let v ← onBody (bitVector numFiles) body
    pure { st with emptyStream := v }
  else if prop = kEmptyFile.toNat then do
    let v ← onBody (bitVector st.numEmpty) body
    pure { st with emptyFile := v }
  else if prop = kAnti.toNat then do
    let v ← onBody (bitVector st.numEmpty) body
    pure { st with antiEmpty := v }
  else if prop = kName.toNat then do
    let v ← onBody (parseNames numFiles) body
    pure { st with names := v }
  else if prop = kCtime.toNat then do
    let v ← onBody (parseTimes numFiles) body
    pure { st with created := v }
  else if prop = kAtime.toNat then do
    let v ← onBody (parseTimes numFiles) body
    pure { st with accessed := v }
  else if prop = kMtime.toNat then do
    let v ← onBody (parseTimes numFiles) body
    pure { st with modified := v }
  else if prop = kWinAttributes.toNat then do
    let v ← onBody (parseAttributes numFiles) body
    pure { st with modes := v }
  else if prop = kStartPos.toNat then do
    let v ← onBody (parsePositions numFiles) body
    pure { st with startPositions := v }
  else pure st

/-- The property loop of `parse_files_info`, with the properties it preserves. -/
def filesLoop (numFiles : ℕ) : ℕ → FilesState → List Extension →
    Parse (FilesState × List Extension)
  | 0, _, _ => malformed "7z: unexpected end of header"
  | fuel + 1, st, exts => do
    let prop ← number
    if prop = kEnd.toNat then pure (st, exts)
    else do
      let size ← number
      let body ← bytes size
      let st ← parseProperty numFiles prop body st
      filesLoop numFiles fuel st (exts ++ [⟨"7z-files-property", leBytes 8 prop, body⟩])

/-! ### Records -/

/-- The substreams of all folders in order, each with its folder. -/
def flatSubstreams (folders : List FolderInfo) : List (ℕ × ℕ × Option UInt32) :=
  folders.zipIdx.flatMap fun f =>
    (f.1.substreamSizes.zip f.1.substreamCrcs).map fun s => (f.2, s.1, s.2)

/-- Where the assembly of the records is: the substreams that are left, the offset in the current
folder, and the number of files without a stream so far. -/
structure Cursor where
  flat : List (ℕ × ℕ × Option UInt32)
  running : ℕ := 0
  currentFolder : Option ℕ := none
  emptyIndex : ℕ := 0

/-- The optional value of a file. -/
def valueAt {α : Type} (l : List (Option α)) (i : ℕ) : Option α := (l[i]?).join

/-- The record of a file with its place. -/
def recordOf (st : FilesState) (i : ℕ) (kind : EntryKind) (folderIndex : Option ℕ)
    (offset size : ℕ) (anti : Bool) (crc : Option UInt32) (hasStream : Bool) : FileRec where
  name := st.names.getD i []
  kind := kind
  mode := permissionBits (valueAt st.modes i) kind
  times :=
    { modified := valueAt st.modified i
      accessed := valueAt st.accessed i
      created := valueAt st.created i }
  anti := anti
  startPosition := valueAt st.startPositions i
  hasStream := hasStream
  folderIndex := folderIndex
  streamOffset := offset
  size := size
  crc := crc

/-- The Unix mode is that of a symbolic link. -/
def isLinkMode (fullMode : Option ℕ) : Bool := fullMode.any fun m => m / 0o10000 % 16 == 0o12

/-- One record: a file with a stream takes the next substream. -/
def assembleFile (st : FilesState) (i : ℕ) (c : Cursor) : Except HeaderError (FileRec × Cursor) :=
  if st.emptyStream.getD i false then
    let kind := if st.emptyFile.getD c.emptyIndex false then EntryKind.file else .dir
    .ok (recordOf st i kind none 0 0 (st.antiEmpty.getD c.emptyIndex false) none false,
      { c with emptyIndex := c.emptyIndex + 1 })
  else
    match c.flat with
    | [] => .error (.malformed "7z: content stream index out of range")
    | (fi, size, crc) :: flat =>
      let offset := if c.currentFolder = some fi then c.running else 0
      match checkedAdd offset size with
      | none => .error (.malformed "7z: folder offset overflow")
      | some running =>
        let kind := if isLinkMode (valueAt st.modes i) then EntryKind.symlink else .file
        .ok (recordOf st i kind (some fi) offset size false crc true,
          { c with flat := flat, running := running, currentFolder := some fi })

/-- The records of the files from the `i`th on. -/
def assembleFiles (st : FilesState) : ℕ → ℕ → Cursor → Except HeaderError (List FileRec)
  | 0, _, _ => .ok []
  | n + 1, i, c => do
    let (rec_, c) ← assembleFile st i c
    let more ← assembleFiles st n (i + 1) c
    .ok (rec_ :: more)

/-- `parse_files_info`: the records, and the properties it preserves. -/
def parseFilesInfo (folders : List FolderInfo) : Parse (List FileRec × List Extension) := do
  let numFiles ← number
  if maxFiles < numFiles then throw (HeaderError.limitExceeded "7z: too many files")
  let left ← remaining
  if left < numFiles then malformed "7z: file count exceeds header size"
  let (st, exts) ← filesLoop numFiles left (.new numFiles) []
  let files ← liftM (assembleFiles st numFiles 0 { flat := flatSubstreams folders })
  pure (files, exts)

/-! ### The header -/

/-- The parsed header. -/
structure HeaderParser where
  files : List FileRec := []
  folders : List FolderInfo := []
  headerExtensions : List Extension := []
deriving DecidableEq

/-- `parse_archive_properties`. -/
def archivePropertiesLoop : ℕ → List Extension → Parse (List Extension)
  | 0, _ => malformed "7z: unexpected end of header"
  | fuel + 1, exts => do
    let property ← u8
    if property = kEnd then pure exts
    else do
      let size ← number
      let value ← bytes size
      archivePropertiesLoop fuel (exts ++ [⟨"7z-archive-property", [property], value⟩])

/-- The loop of `parse_header`; the table in the state is its local `folders`. -/
def headerLoop (b : Build) : ℕ → HeaderParser → Parse HeaderParser
  | 0, _ => malformed "7z: unexpected end of header"
  | fuel + 1, h => do
    let property ← u8
    if property = kEnd then pure h
    else if property = kArchiveProperties then do
      let left ← remaining
      let exts ← archivePropertiesLoop left []
      headerLoop b fuel { h with headerExtensions := h.headerExtensions ++ exts }
    else if property = kMainStreamsInfo then do
      let folders ← parseStreamsInfo b
      headerLoop b fuel { h with folders := folders }
    else if property = kFilesInfo then do
      let (files, exts) ← parseFilesInfo h.folders
      headerLoop b fuel
        { h with files := h.files ++ files, headerExtensions := h.headerExtensions ++ exts }
    else unsupported "7z: unsupported header property"

/-- `HeaderParser::parse_header` on a new parser. -/
def parseHeader (b : Build) : Parse HeaderParser := do
  let left ← remaining
  headerLoop b left {}

/-! ### The layout -/

/-- `seven_error`. -/
def sevenError (kind : ErrorKind) (context : String) : ArchiveError := .inFormat "7z" kind context

/-- The accounted metadata of the files, each within the limits on paths and sizes. -/
def accountFiles (b : Build) (limits : Limits) : List FileRec → ℕ → Except ArchiveError ℕ
  | [], metadata => .ok metadata
  | file :: files, metadata =>
    if exceeds file.name.length limits.pathBytes then
      .error (sevenError .limit "file name exceeds configured path limit")
    else if exceeds file.size limits.entryBytes then
      .error (sevenError .limit "file size exceeds configured limit")
    else
      match (checkedAdd metadata file.name.length).bind (checkedAdd · b.sizeOfFileRec) with
      | none => .error (sevenError .limit "metadata accounting overflow")
      | some metadata => accountFiles b limits files metadata

/-- A sum that does not overflow. -/
def checkedSum : List ℕ → Option ℕ
  | [] => some 0
  | n :: ns => (checkedSum ns).bind (checkedAdd n ·)

/-- `validate_seek_layout`. -/
def validateSeekLayout (b : Build) (files : List FileRec) (folders : List FolderInfo)
    (limits : Limits) : Except ArchiveError Unit := do
  if exceeds files.length limits.entries then
    throw (sevenError .limit "file count exceeds configured limit")
  let metadata ← accountFiles b limits files 0
  if exceeds metadata limits.metadataBytes then
    throw (sevenError .limit "file metadata exceeds configured limit")
  let totalUnpack ← okOr (checkedSum (folders.map FolderInfo.unpackSize))
    (sevenError .malformed "folder size sum overflow")
  if exceeds totalUnpack limits.decodedTotal then
    throw (sevenError .limit "folder output exceeds decoded-total limit")
  let totalContent ← okOr (checkedSum ((files.filter FileRec.hasStream).map FileRec.size))
    (sevenError .malformed "substream size sum overflow")
  if totalContent ≠ totalUnpack then
    throw (sevenError .malformed "substream sizes do not equal folder size")

end LibarchiveOxide.SevenZip.Header

/-! # The sections of a header

Which sections a header has, in the order it has them. The parsers are those of the header itself;
only their order is kept. -/

namespace LibarchiveOxide.SevenZip.Sections

open Core.Failure Lib SevenZip.Wire SevenZip.Graph SevenZip.Streams SevenZip.Header

/-- The blocks of a streams section. -/
inductive Block where
  | pack
  | unpack
  | substreams
deriving DecidableEq

/-- The sections of a header. -/
inductive Section where
  | properties
  | streams (blocks : List Block)
  | files
deriving DecidableEq

/-- The blocks of a streams section. -/
def blocksLoop (b : Build) : ℕ → StreamsState → Parse (List Block)
  | 0, _ => malformed "7z: unexpected end of header"
  | fuel + 1, st => do
    let property ← u8
    if property = kEnd then pure []
    else if property = kPackInfo then do
      let st ← parsePackInfo st
      let more ← blocksLoop b fuel st
      pure (.pack :: more)
    else if property = kUnpackInfo then do
      let st ← parseUnpackInfo b st
      let more ← blocksLoop b fuel st
      pure (.unpack :: more)
    else if property = kSubstreamsInfo then do
      let st ← parseSubstreams st
      let more ← blocksLoop b fuel st
      pure (.substreams :: more)
    else unsupported "7z: unsupported streams-info property"

/-- The blocks of the streams section at the cursor. -/
def streamsBlocks (b : Build) : Parse (List Block) := do
  let left ← remaining
  blocksLoop b left {}

/-- The sections of a header; the table of folders is needed to read a files section. -/
def sectionsLoop (b : Build) : ℕ → List FolderInfo → Parse (List Section)
  | 0, _ => malformed "7z: unexpected end of header"
  | fuel + 1, folders => do
    let property ← u8
    if property = kEnd then pure []
    else if property = kArchiveProperties then do
      let left ← remaining
      let _ ← archivePropertiesLoop left []
      let more ← sectionsLoop b fuel folders
      pure (.properties :: more)
    else if property = kMainStreamsInfo then do
      let start ← get
      let blocks ← streamsBlocks b
      set start
      let folders ← parseStreamsInfo b
      let more ← sectionsLoop b fuel folders
      pure (.streams blocks :: more)
    else if property = kFilesInfo then do
      let _ ← parseFilesInfo folders
      let more ← sectionsLoop b fuel folders
      pure (.files :: more)
    else unsupported "7z: unsupported header property"

/-- The sections of a header. -/
def sections (b : Build) (header : List Byte) : Except HeaderError (List Section) :=
  (sectionsLoop b header.length [] { rest := header }).map Prod.fst

/-- In a streams section, no folders are defined after the substreams. -/
def BlocksInOrder (blocks : List Block) : Prop :=
  blocks.Pairwise fun a b => a = .substreams → b ≠ .unpack

instance (blocks : List Block) : Decidable (BlocksInOrder blocks) :=
  inferInstanceAs (Decidable (blocks.Pairwise _))

/-- The blocks of a section. -/
def Section.blocks : Section → List Block
  | .streams blocks => blocks
  | _ => []

/-- The streams come before the files, there is one files section, and in each streams section the
folders come before the substreams. -/
def InOrder (tags : List Section) : Prop :=
  (tags.Pairwise fun a b => a = .files → b = .properties) ∧
    ∀ t ∈ tags, BlocksInOrder t.blocks

instance (tags : List Section) : Decidable (InOrder tags) :=
  inferInstanceAs (Decidable (tags.Pairwise _ ∧ ∀ t ∈ tags, BlocksInOrder t.blocks))

end LibarchiveOxide.SevenZip.Sections
