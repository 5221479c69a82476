import LibarchiveOxide.Iso.Records
import LibarchiveOxide.Stream.Seekable

/-! # The ISO writer

Payloads go to the output as they come; the tree of the entries is kept, and `finish` writes it behind
them: the path tables, the directories of the primary tree, the continuation area, the directories of
the Joliet tree, and last the volume descriptors in the sectors that `new` left free. The output never
fails; a call that fails is the end of the writer here. -/

namespace LibarchiveOxide.Iso.Writer

open Core.Failure Core.Budget Core.Metadata Lib Lib.LittleEndian Lib.Result Stream.Event
open Stream.Seekable Iso.Fields Iso.Names Iso.Records

def METADATA_START : ℕ := 19
def RECORDING_TIME : List Byte := [120, 1, 1, 0, 0, 0, 0]

/-- `size_of` of the records that are accounted. -/
structure Sizes where
  node : ℕ
  entryMetadata : ℕ
  archiveMetadata : ℕ

/-- `IsoNode`. -/
structure IsoNode where
  name : List Byte := []
  kind : EntryKind := .dir
  metadata : Option EntryMetadata := none
  children : List ℕ := []
  parent : ℕ := 0
  directoryNumber : ℕ := 0
  parentNumber : ℕ := 0
  primaryLba : ℕ := 0
  primarySize : ℕ := 0
  jolietLba : ℕ := 0
  jolietSize : ℕ := 0
  fileLba : ℕ := 0
  fileSize : ℕ := 0
deriving DecidableEq

namespace IsoNode

def root : IsoNode := { directoryNumber := 1, parentNumber := 1 }

def implicitDirectory (name : List Byte) (parent : ℕ) : IsoNode := { name := name, parent := parent }

def isDirectory (n : IsoNode) : Bool := n.kind = .dir

/-- `directory_extent` of a node. -/
def extent (n : IsoNode) (joliet : Bool) : ℕ × ℕ :=
  if joliet then (n.jolietLba, n.jolietSize) else (n.primaryLba, n.primarySize)

end IsoNode

/-- `PendingEntry`. -/
structure PendingEntry where
  components : List (List Byte)
  metadata : EntryMetadata
  size : ℕ
  fileLba : ℕ
deriving DecidableEq

/-- `IsoSeekWriter`. -/
structure IsoSeekWriter where
  output : Output
  nodes : List IsoNode
  pending : Option PendingEntry
  limits : Limits
  metadataUsed : ℕ
  decodedTotal : ℕ
  archiveMetadata : ArchiveMetadata

/-- `self.nodes[index]`. -/
def nodeAt (nodes : List IsoNode) (index : ℕ) : IsoNode := nodes.getD index .root

/-- `pad_output_to_sector`. -/
def padOutput (output : Output) : Output :=
  output.writeAll (List.replicate ((SECTOR - output.position % SECTOR) % SECTOR) 0)

/-- `write_padded_region`. -/
def writePaddedRegion (output : Output) (bytes : List Byte) : Output :=
  padOutput (output.writeAll bytes)

/-! ### The calls for entries -/

/-- `IsoSeekWriter::new`. -/
def IsoSeekWriter.new (sizes : Sizes) (output : Output) (limits : Limits) : IsoSeekWriter where
  output := (output.seek 0).writeAll (List.replicate (METADATA_START * SECTOR) 0)
  nodes := [.root]
  pending := none
  limits := limits
  metadataUsed := sizes.node
  decodedTotal := 0
  archiveMetadata := {}

/-- The bytes of the extensions, on top of a number. -/
def extensionsCost (extensions : List Extension) (cost : ℕ) : Option ℕ :=
  extensions.foldlM (fun cost extension => do
    let cost ← checkedAdd cost extension.namespace_.utf8ByteSize
    let cost ← checkedAdd cost extension.key.length
    checkedAdd cost extension.value.length) cost

def accountingOverflow : StreamError := isoError .limit "metadata accounting overflow"

/-- `archive_metadata_cost`. -/
def archiveMetadataCost (sizes : Sizes) (metadata : ArchiveMetadata) : Except StreamError ℕ := do
  let cost ← okOr (checkedAdd sizes.archiveMetadata
    ((metadata.volumeName.map fun n => n.raw.length).getD 0)) accountingOverflow
  let cost ← okOr (checkedAdd cost ((metadata.comment.map List.length).getD 0)) accountingOverflow
  okOr (extensionsCost metadata.extensions cost) accountingOverflow

/-- `set_archive_metadata`. -/
def IsoSeekWriter.setArchiveMetadata (sizes : Sizes) (w : IsoSeekWriter)
    (metadata : ArchiveMetadata) : Except StreamError IsoSeekWriter := do
  if w.pending.isSome ∨ w.nodes.length ≠ 1 ∨ w.decodedTotal ≠ 0 then
    throw (isoError .protocol "ISO archive metadata must be set before the first entry")
  if metadata.comment.isSome ∨
      metadata.extensions.any fun extension => extension.namespace_ ≠ "iso9660-volume" then
    throw (isoError .unsupported "ISO archive metadata contains an unrepresentable property")
  let cost ← archiveMetadataCost sizes metadata
  if exceeds (min (w.metadataUsed + cost) u64Max) w.limits.metadataBytes then
    throw (isoError .limit "ISO archive metadata exceeds configured limit")
  let used ← okOr (checkedAdd w.metadataUsed cost) accountingOverflow
  return { w with archiveMetadata := metadata, metadataUsed := used }

/-- `validate_entry_metadata`. -/
def validateEntryMetadata (metadata : EntryMetadata) : Except StreamError Unit := do
  match metadata.kind with
  | .file | .dir | .fifo | .socket => pure ()
  | .symlink =>
    if metadata.linkTarget.isNone then
      throw (isoError .protocol "ISO symbolic link requires a target")
  | .hardlink =>
    if metadata.linkTarget.isNone then
      throw (isoError .protocol "ISO hard link requires a target")
  | .char | .block =>
    if metadata.referencedDevice.isNone then
      throw (isoError .protocol "ISO device entry requires major/minor numbers")
  if metadata.kind ≠ .file ∧ metadata.size.any (· ≠ 0) then
    throw (isoError .protocol "non-file ISO entry must have size zero or unknown")
  if metadata.sparse ≠ [] ∨ metadata.xattrs ≠ [] ∨ metadata.acl ≠ [] ∨ metadata.encrypted then
    throw (isoError .unsupported
      "ISO writer cannot represent sparse, xattr, ACL, or encrypted metadata")

/-- The child of a node with this name. -/
def childNamed (nodes : List IsoNode) (parent : ℕ) (name : List Byte) : Option ℕ :=
  (nodeAt nodes parent).children.find? fun index => (nodeAt nodes index).name = name

/-- The loop of `validate_tree_path`: how many nodes of the path are missing. -/
def missingNodes (nodes : List IsoNode) : ℕ → List (List Byte) → Except StreamError ℕ
  | _, [] => .ok 0
  | current, component :: components =>
    match childNamed nodes current component with
    | none => .ok (component :: components).length
    | some child =>
      if components ≠ [] ∧ (nodeAt nodes child).isDirectory = false then
        .error (isoError .protocol "ISO path traverses a non-directory entry")
      else if components = [] ∧ (nodeAt nodes child).metadata.isSome then
        .error (isoError .protocol "duplicate ISO entry path")
      else missingNodes nodes child components

/-- `metadata_cost`. -/
def metadataCost (sizes : Sizes) (metadata : EntryMetadata) : Except StreamError ℕ :=
  okOr (do
    let total ← checkedAdd metadata.path.raw.length
      ((metadata.linkTarget.map fun t => t.raw.length).getD 0)
    let total ← checkedAdd total sizes.entryMetadata
    extensionsCost metadata.extensions total) accountingOverflow

/-- The sector of the cursor. -/
def outputLba (output : Output) (unaligned tooLarge : String) : Except StreamError ℕ :=
  if output.position % SECTOR ≠ 0 then .error (isoError .protocol unaligned)
  else if u32Max < output.position / SECTOR then .error (isoError .limit tooLarge)
  else .ok (output.position / SECTOR)

/-- `start_entry`. -/
def IsoSeekWriter.startEntry (sizes : Sizes) (w : IsoSeekWriter) (metadata : EntryMetadata) :
    Except StreamError IsoSeekWriter := do
  if w.pending.isSome then
    throw (isoError .protocol "previous ISO entry is still open")
  let components ← normalizePath metadata.path w.limits
  validateEntryMetadata metadata
  let missing ← missingNodes w.nodes 0 components
  let projected ← okOr (checkedAdd w.nodes.length missing)
    (isoError .limit "ISO node count overflow")
  if exceeds (projected - 1) w.limits.entries then
    throw (isoError .limit "ISO entry count exceeds configured limit")
  let cost ← metadataCost sizes metadata
  let more ← okOr (checkedMul missing sizes.node) accountingOverflow
  let accounting ← okOr (checkedAdd cost more) accountingOverflow
  let used ← okOr (checkedAdd w.metadataUsed accounting) accountingOverflow
  if exceeds used w.limits.metadataBytes then
    throw (isoError .limit "ISO metadata exceeds configured limit")
  let lba ← outputLba w.output "ISO payload cursor is not sector aligned"
    "ISO extent LBA exceeds u32"
  return { w with
    metadataUsed := used
    pending := some ⟨components, metadata, 0, lba⟩ }

/-- `write_data`. -/
def IsoSeekWriter.writeData (w : IsoSeekWriter) (bytes : List Byte) :
    Except StreamError IsoSeekWriter := do
  let pending ← okOr w.pending (isoError .protocol "ISO data was supplied outside an entry")
  if bytes = [] then return w
  else
    if pending.metadata.kind ≠ .file then
      throw (isoError .protocol "only regular ISO files accept payload data")
    let next ← okOr (checkedAdd pending.size bytes.length)
      (isoError .limit "ISO entry size overflow")
    if u32Max < next then
      throw (isoError .limit "single-extent ISO file exceeds u32")
    if exceeds next w.limits.entryBytes then
      throw (isoError .limit "ISO entry exceeds configured size limit")
    let total ← okOr (checkedAdd w.decodedTotal bytes.length)
      (isoError .limit "ISO decoded total overflow")
    if exceeds total w.limits.decodedTotal then
      throw (isoError .limit "ISO decoded total exceeds configured limit")
    return { w with
      output := w.output.writeAll bytes
      pending := some { pending with size := next }
      decodedTotal := total }

/-- `child_directory`: the child of a node, which is made if it is missing. -/
def childDirectory (nodes : List IsoNode) (parent : ℕ) (name : List Byte) : List IsoNode × ℕ :=
  match childNamed nodes parent name with
  | some index => (nodes, index)
  | none =>
    ((nodes ++ [IsoNode.implicitDirectory name parent]).modify parent
      (fun n => { n with children := n.children ++ [nodes.length] }), nodes.length)

/-- The directories of a path. -/
def childDirectories : List IsoNode → ℕ → List (List Byte) → List IsoNode × ℕ
  | nodes, parent, [] => (nodes, parent)
  | nodes, parent, name :: names =>
    childDirectories (childDirectory nodes parent name).1 (childDirectory nodes parent name).2 names

/-- `find_path`. -/
def findPath (nodes : List IsoNode) : ℕ → List (List Byte) → Option ℕ
  | current, [] => some current
  | current, component :: components =>
    (childNamed nodes current component).bind fun child => findPath nodes child components

/-- The extent that an entry refers to. -/
def entryExtent (nodes : List IsoNode) (limits : Limits) (pending : PendingEntry) :
    Except StreamError (ℕ × ℕ) :=
  if pending.metadata.kind = .hardlink then do
    let target ← okOr pending.metadata.linkTarget
      (isoError .protocol "ISO hard link target is missing")
    let components ← normalizePath target limits
    let index ← okOr (findPath nodes 0 components)
      (isoError .protocol "ISO hard link target must precede the link")
    if (nodeAt nodes index).isDirectory then
      throw (isoError .protocol "ISO hard link target is a directory")
    return ((nodeAt nodes index).fileLba, (nodeAt nodes index).fileSize)
  else if u32Max < pending.size then .error (isoError .limit "ISO file size exceeds u32")
  else .ok (pending.fileLba, pending.size)

/-- `insert_entry`. -/
def insertEntry (nodes : List IsoNode) (limits : Limits) (pending : PendingEntry) :
    Except StreamError (List IsoNode) := do
  let leaf ← okOr pending.components.getLast? (isoError .protocol "ISO entry path is empty")
  let (nodes, parent) := childDirectories nodes 0 pending.components.dropLast
  let (nodes, index) := childDirectory nodes parent leaf
  let (fileLba, fileSize) ← entryExtent nodes limits pending
  return nodes.modify index fun n =>
    { n with
      kind := pending.metadata.kind
      metadata := some pending.metadata
      fileLba := fileLba
      fileSize := fileSize }

/-- `end_entry`. -/
def IsoSeekWriter.endEntry (w : IsoSeekWriter) : Except StreamError IsoSeekWriter := do
  let pending ← okOr w.pending (isoError .protocol "no ISO entry is open")
  if pending.metadata.size.any fun declared => declared.toNat ≠ pending.size then
    throw (isoError .protocol "ISO entry size does not match its declared size")
  if pending.metadata.kind ≠ .file ∧ pending.size ≠ 0 then
    throw (isoError .protocol "non-file ISO entry carried payload")
  let output := if pending.metadata.kind = .file then padOutput w.output else w.output
  let nodes ← insertEntry w.nodes w.limits pending
  return { w with output := output, nodes := nodes, pending := none }

/-! ### The tree -/

/-- The indices in the order of the names. -/
def sortByName (nodes : List IsoNode) (indices : List ℕ) : List ℕ :=
  indices.insertionSort fun left right => (nodeAt nodes left).name ≤ (nodeAt nodes right).name

/-- `sorted_children`. -/
def sortedChildren (nodes : List IsoNode) (directory : ℕ) : List ℕ :=
  sortByName nodes (nodeAt nodes directory).children

/-- The loop of `order_directories` over the children of a directory. -/
def numberChildren (parentNumber : ℕ) :
    List ℕ → List IsoNode → ℕ → Except StreamError (List IsoNode × ℕ)
  | [], nodes, number => .ok (nodes, number)
  | child :: children, nodes, number =>
    if 65535 < number + 1 then .error (isoError .limit "too many ISO directories")
    else numberChildren parentNumber children
      (nodes.modify child fun n =>
        { n with directoryNumber := number, parentNumber := parentNumber }) (number + 1)

/-- The loop of `order_directories`; `none` while it is still going on as the rounds run out. -/
def orderLoop : ℕ → List ℕ → ℕ → List ℕ → List IsoNode →
    Option (Except StreamError (List ℕ × List IsoNode))
  | _, [], _, order, nodes => some (.ok (order, nodes))
  | 0, _ :: _, _, _, _ => none
  | rounds + 1, directory :: queue, number, order, nodes =>
    let children := sortByName nodes
      ((nodeAt nodes directory).children.filter fun child => (nodeAt nodes child).isDirectory)
    match numberChildren (nodeAt nodes directory).directoryNumber children nodes number with
    | .error e => some (.error e)
    | .ok (nodes, number) =>
      orderLoop rounds (queue ++ children) number (order ++ [directory]) nodes

/-- `order_directories`: there are as many rounds as there are numbers of directories. -/
def orderDirectories (nodes : List IsoNode) :
    Option (Except StreamError (List ℕ × List IsoNode)) :=
  orderLoop 65536 [0] 2 [] nodes

/-! ### The records of a directory -/

/-- `directory_identifier`. -/
def directoryIdentifier (nodes : List IsoNode) (directory : ℕ) (joliet : Bool) : List Byte :=
  if directory = 0 then [0]
  else if joliet then jolietName (nodeAt nodes directory).name
  else primaryName (nodeAt nodes directory).name

/-- `child_identifier`. -/
def childIdentifier (n : IsoNode) (joliet : Bool) : List Byte :=
  if joliet then jolietName n.name
  else if n.isDirectory then primaryName n.name
  else primaryName n.name ++ bstr ";1"

/-- `recording_time`. -/
def recordingTime (n : IsoNode) : List Byte :=
  ((n.metadata.bind fun m => m.times.modified).bind shortTimestamp).getD RECORDING_TIME

/-- The flags of the `RR` field. -/
def rockRidgeFlags (n : IsoNode) (dotRecord : Bool) : Byte :=
  0x01 ||| (if dotRecord then 0 else 0x08) |||
    (if n.kind = .char ∨ n.kind = .block then 0x02 else 0) |||
    (if n.kind = .symlink then 0x04 else 0) |||
    (if n.metadata.any fun m => m.times ≠ {} then 0x80 else 0)

/-- The `PX` field. -/
def attributesField (n : IsoNode) (index : ℕ) : Except StreamError (List Byte) := do
  let mode := fullMode n.kind (n.metadata.bind EntryMetadata.mode)
  let links ← u32Value ((n.metadata.bind EntryMetadata.links).getD
    (if n.isDirectory then 2 else 1)) "Rock Ridge link count exceeds u32"
  let uid ← u32Value ((n.metadata.bind fun m => m.owner.uid).getD 0) "Rock Ridge uid exceeds u32"
  let gid ← u32Value ((n.metadata.bind fun m => m.owner.gid).getD 0) "Rock Ridge gid exceeds u32"
  let inode ← u32Value ((n.metadata.bind EntryMetadata.inode).getD (UInt64.ofNat (index + 1)))
    "Rock Ridge inode exceeds u32"
  suspField (bstr "PX") ([mode.toNat, links, uid, gid, inode].flatMap bothEndianU32)

/-- The `PN` field. -/
def deviceField (n : IsoNode) : Except StreamError (List Byte) :=
  match n.metadata.bind EntryMetadata.referencedDevice with
  | none => .ok []
  | some device => do
    let major ← u32Value device.major "Rock Ridge device major exceeds u32"
    let minor ← u32Value device.minor "Rock Ridge device minor exceeds u32"
    suspField (bstr "PN") (bothEndianU32 major ++ bothEndianU32 minor)

/-- The `SL` fields. -/
def linkFields (n : IsoNode) : Except StreamError (List Byte) :=
  if n.kind = .symlink then do
    let target ← okOr (n.metadata.bind EntryMetadata.linkTarget)
      (isoError .protocol "ISO symlink target is missing")
    symbolicLinkFields target.raw
  else .ok []

/-- The `TF` field and the fields that were kept from another image. -/
def keptFields (n : IsoNode) : Except StreamError (List Byte) :=
  match n.metadata with
  | none => .ok []
  | some m => do
    let times ← (match timestampField m.times with
      | none => .ok []
      | some tf => suspField (bstr "TF") tf)
    let fields ← m.extensions.mapM rawSystemUse
    return times ++ fields.flatten

/-- `rock_ridge_system_use` of the node with this index. -/
def rockRidgeSystemUse (n : IsoNode) (index : ℕ) (root dotRecord : Bool) :
    Except StreamError (List Byte) := do
  let sp := if root then [chr 'S', chr 'P', 0x07, 0x01, 0xbe, 0xef, 0x00] else []
  let rr ← suspField (bstr "RR") [rockRidgeFlags n dotRecord]
  let nm ← (if dotRecord then .ok [] else nmFields n.name)
  let px ← attributesField n index
  let pn ← deviceField n
  let sl ← linkFields n
  let kept ← keptFields n
  return sp ++ rr ++ nm ++ px ++ pn ++ sl ++ kept

/-- `directory_record_for_child`. -/
def directoryRecordForChild (nodes : List IsoNode) (child : ℕ) (joliet : Bool)
    (continuation : Option SuspContinuationArea) :
    Except StreamError (List Byte × Option SuspContinuationArea) := do
  let n := nodeAt nodes child
  let (lba, size) := if n.isDirectory then n.extent joliet else (n.fileLba, n.fileSize)
  let systemUse ← (if joliet then .ok [] else rockRidgeSystemUse n child false false)
  continuedDirectoryRecord (childIdentifier n joliet) lba size n.isDirectory (recordingTime n)
    systemUse continuation

/-- The records of the children, one after another. -/
def childRecords (nodes : List IsoNode) (joliet : Bool) :
    List ℕ → Option SuspContinuationArea →
      Except StreamError (List (List Byte) × Option SuspContinuationArea)
  | [], continuation => .ok ([], continuation)
  | child :: children, continuation =>
    match directoryRecordForChild nodes child joliet continuation with
    | .error e => .error e
    | .ok (record, continuation) =>
      match childRecords nodes joliet children continuation with
      | .error e => .error e
      | .ok (records, continuation) => .ok (record :: records, continuation)

/-- `build_directory_records`. -/
def buildDirectoryRecords (nodes : List IsoNode) (directory : ℕ) (joliet : Bool)
    (continuation : Option SuspContinuationArea) :
    Except StreamError (List (List Byte) × Option SuspContinuationArea) := do
  let n := nodeAt nodes directory
  let systemUse ← (if joliet then .ok []
    else rockRidgeSystemUse n directory (decide (directory = 0)) true)
  let (own, continuation) ← continuedDirectoryRecord [0] (n.extent joliet).1 (n.extent joliet).2
    true (recordingTime n) systemUse continuation
  let up := nodeAt nodes n.parent
  let parent ← directoryRecord [1] (up.extent joliet).1 (up.extent joliet).2 true
    (recordingTime up) []
  let (records, continuation) ← childRecords nodes joliet (sortedChildren nodes directory)
    continuation
  return (own :: parent :: records, continuation)

/-- The loop of `validate_identifiers` for one tree of a directory. -/
def validateDirectory (nodes : List IsoNode) (directory : ℕ) (joliet : Bool) :
    Except StreamError Unit := do
  validateIdentifier (directoryIdentifier nodes directory joliet)
  (sortedChildren nodes directory).forM fun child => do
    validateIdentifier (childIdentifier (nodeAt nodes child) joliet)
    let _ ← directoryRecordForChild nodes child joliet none
    return ()

/-- `validate_identifiers`. -/
def validateIdentifiers (nodes : List IsoNode) (order : List ℕ) : Except StreamError Unit :=
  order.forM fun directory => do
    validateDirectory nodes directory false
    validateDirectory nodes directory true

end LibarchiveOxide.Iso.Writer

/-! # Finishing an ISO image

The sizes of the directories are found with addresses that are not known yet; then every region gets
its address; then all of them are written, the records with their addresses. -/

namespace LibarchiveOxide.Iso.Finish

open Core.Failure Core.Budget Core.Metadata Lib Lib.LittleEndian Lib.Result Stream.Event
open Stream.Seekable Iso.Fields Iso.Names Iso.Records Iso.Writer

/-! ### Sizes -/

/-- The sizes of the directories, one after another. -/
def sizeDirectories : List ℕ → List IsoNode → Except StreamError (List IsoNode)
  | [], nodes => .ok nodes
  | directory :: order, nodes => do
    let (primary, _) ← buildDirectoryRecords nodes directory false none
    let (joliet, _) ← buildDirectoryRecords nodes directory true none
    if u32Max < layoutLength primary then
      throw (isoError .limit "ISO directory extent exceeds u32")
    if u32Max < layoutLength joliet then
      throw (isoError .limit "Joliet directory extent exceeds u32")
    sizeDirectories order (nodes.modify directory fun n =>
      { n with primarySize := layoutLength primary, jolietSize := layoutLength joliet })

/-- The continuation area of the primary tree. -/
def probeContinuations (nodes : List IsoNode) :
    List ℕ → Option SuspContinuationArea → Except StreamError (Option SuspContinuationArea)
  | [], area => .ok area
  | directory :: order, area =>
    match buildDirectoryRecords nodes directory false area with
    | .error e => .error e
    | .ok (_, area) => probeContinuations nodes order area

/-- The bytes of a continuation area. -/
def areaOf (area : Option SuspContinuationArea) : List Byte := (area.map (·.bytes)).getD []

/-- `path_table_record_length`. -/
def pathTableRecordLength (identifierLength : ℕ) : ℕ :=
  8 + identifierLength + if (8 + identifierLength) % 2 = 0 then 0 else 1

/-- `path_table_size`. -/
def pathTableSize (nodes : List IsoNode) (order : List ℕ) (joliet : Bool) : ℕ :=
  (order.map fun directory =>
    pathTableRecordLength (directoryIdentifier nodes directory joliet).length).sum

/-- `check_final_metadata_size`. -/
def checkFinalMetadataSize (nodes : List IsoNode) (limits : Limits) (order : List ℕ)
    (primaryPath jolietPath continuationSize : ℕ) : Except StreamError Unit := do
  let directoryBytes : Option ℕ := order.foldlM (fun total directory => do
    let value ← checkedAdd total (nodeAt nodes directory).primarySize
    checkedAdd value (nodeAt nodes directory).jolietSize) 0
  let continuationBytes ← (if continuationSize = 0 then .ok 0
    else okOr (checkedMul (sectors continuationSize) SECTOR)
      (isoError .limit "ISO continuation size overflow"))
  let total ← okOr (do
    let value ← checkedMul primaryPath 2
    let value ← checkedAdd value (← checkedMul jolietPath 2)
    let value ← checkedAdd value (← directoryBytes)
    checkedAdd value continuationBytes) (isoError .limit "ISO final metadata size overflow")
  if exceeds total limits.metadataBytes then
    throw (isoError .limit "ISO final index exceeds metadata limit")

/-! ### Addresses -/

/-- Where the regions are, and the directories with their addresses. -/
structure Layout where
  primaryLPath : ℕ
  primaryMPath : ℕ
  jolietLPath : ℕ
  jolietMPath : ℕ
  continuationLba : ℕ
  totalSectors : ℕ
  nodes : List IsoNode
deriving DecidableEq

/-- The addresses of the directories of a tree, one after another. -/
def placeDirectories (joliet : Bool) :
    List ℕ → List IsoNode → ℕ → Except StreamError (List IsoNode × ℕ)
  | [], nodes, lba => .ok (nodes, lba)
  | directory :: order, nodes, lba => do
    let nodes := nodes.modify directory fun n =>
      if joliet then { n with jolietLba := lba } else { n with primaryLba := lba }
    let next ← advanceLba lba ((nodeAt nodes directory).extent joliet).2
    placeDirectories joliet order nodes next

/-- The addresses of all regions. -/
def planLayout (nodes : List IsoNode) (order : List ℕ)
    (primaryPath jolietPath continuationSize lba : ℕ) : Except StreamError Layout := do
  let primaryMPath ← advanceLba lba primaryPath
  let jolietLPath ← advanceLba primaryMPath primaryPath
  let jolietMPath ← advanceLba jolietLPath jolietPath
  let directories ← advanceLba jolietMPath jolietPath
  let (nodes, continuationLba) ← placeDirectories false order nodes directories
  let joliet ← advanceLba continuationLba continuationSize
  let (nodes, totalSectors) ← placeDirectories true order nodes joliet
  return ⟨lba, primaryMPath, jolietLPath, jolietMPath, continuationLba, totalSectors, nodes⟩

/-! ### Bytes -/

/-- A number of `n` bytes in one order. -/
def oneEndian (bigEndian : Bool) (n value : ℕ) : List Byte :=
  if bigEndian then (leBytes n value).reverse else leBytes n value

/-- A record of a path table. -/
def pathTableRecord (nodes : List IsoNode) (joliet bigEndian : Bool) (directory : ℕ) :
    Except StreamError (List Byte) :=
  let identifier := directoryIdentifier nodes directory joliet
  if 255 < identifier.length then
    .error (isoError .unsupported "ISO path-table identifier exceeds u8")
  else
    .ok ([UInt8.ofNat identifier.length, 0] ++
      oneEndian bigEndian 4 ((nodeAt nodes directory).extent joliet).1 ++
      oneEndian bigEndian 2 (nodeAt nodes directory).parentNumber ++ identifier ++
      if identifier.length % 2 = 0 then [] else [0])

/-- `build_path_table`. -/
def buildPathTable (nodes : List IsoNode) (order : List ℕ) (joliet bigEndian : Bool) :
    Except StreamError (List Byte) :=
  (order.mapM (pathTableRecord nodes joliet bigEndian)).map List.flatten

/-- The directories of a tree are written, one after another. -/
def emitDirectories (nodes : List IsoNode) (joliet : Bool) :
    List ℕ → Output → Option SuspContinuationArea →
      Except StreamError (Output × Option SuspContinuationArea)
  | [], output, area => .ok (output, area)
  | directory :: order, output, area =>
    match buildDirectoryRecords nodes directory joliet area with
    | .error e => .error e
    | .ok (records, area) =>
      emitDirectories nodes joliet order (output.writeAll (layoutRecords records)) area

/-- The path tables are written. -/
def emitPathTables (nodes : List IsoNode) (order : List ℕ) (output : Output) :
    Except StreamError Output := do
  let primaryL ← buildPathTable nodes order false false
  let output := writePaddedRegion output primaryL
  let primaryM ← buildPathTable nodes order false true
  let output := writePaddedRegion output primaryM
  let jolietL ← buildPathTable nodes order true false
  let output := writePaddedRegion output jolietL
  let jolietM ← buildPathTable nodes order true true
  return writePaddedRegion output jolietM

def layoutChanged : StreamError :=
  isoError .protocol "ISO continuation layout changed between planning and emission"

def cursorDisagrees : StreamError :=
  isoError .protocol "ISO layout cursor disagrees with calculated volume size"

/-- The regions are written, and the cursor is where the plan says. -/
def emitRegions (layout : Layout) (order : List ℕ) (continuationSize : ℕ) (output : Output) :
    Except StreamError Output := do
  let output ← emitPathTables layout.nodes order output
  let (output, area) ← emitDirectories layout.nodes false order output
    (some { baseLba := layout.continuationLba })
  if (areaOf area).length ≠ continuationSize then throw layoutChanged
  let output := if areaOf area = [] then output else writePaddedRegion output (areaOf area)
  let (output, _) ← emitDirectories layout.nodes true order output none
  if output.position ≠ layout.totalSectors * SECTOR then throw cursorDisagrees
  return output

/-! ### Volume descriptors -/

/-- `VolumeDescriptor`. -/
structure VolumeDescriptor where
  descriptorType : ℕ
  joliet : Bool
  rootLba : ℕ
  rootSize : ℕ
  pathTableSize : ℕ
  littlePathLba : ℕ
  bigPathLba : ℕ
  totalSectors : ℕ

/-- The value of an extension of the archive metadata. -/
def volumeProperty (metadata : ArchiveMetadata) (key : String) : Option (List Byte) :=
  (metadata.extensions.find? fun extension =>
    extension.namespace_ = "iso9660-volume" ∧ extension.key = bstr key).map Extension.value

/-- A field for at most `n` bytes. -/
def putAtMost (descriptor : List Byte) (offset n : ℕ) (value : List Byte) : List Byte :=
  Slice.splice descriptor offset (value.take n)

/-- The texts of the archive metadata in a volume descriptor. -/
def putTexts (joliet : Bool) (metadata : ArchiveMetadata) (descriptor : List Byte) : List Byte :=
  let volumeName := (metadata.volumeName.map ArchivePath.raw).getD (bstr "LIBARCHIVE_OXIDE")
  if joliet then
    putAtMost (Slice.splice descriptor 88 [0x25, 0x2f, 0x45]) 40 32 (jolietName volumeName)
  else
    let descriptor := Slice.splice descriptor 8 (List.replicate 64 (chr ' '))
    let descriptor := (volumeProperty metadata "system-id").elim descriptor
      (putAtMost descriptor 8 32)
    let descriptor := putAtMost descriptor 40 32 (primaryName volumeName)
    (volumeProperty metadata "application-id").elim descriptor (putAtMost descriptor 574 128)

/-- `volume_descriptor`. -/
def volumeDescriptor (layout : VolumeDescriptor) (metadata : ArchiveMetadata) :
    Except StreamError (List Byte) := do
  let descriptor := Slice.splice (List.replicate SECTOR 0) 0
    ([UInt8.ofNat layout.descriptorType] ++ bstr "CD001" ++ [1])
  let descriptor := putTexts layout.joliet metadata descriptor
  let descriptor := Slice.splice descriptor 80 (bothEndianU32 layout.totalSectors)
  let descriptor := Slice.splice descriptor 120 (bothEndianU16 1)
  let descriptor := Slice.splice descriptor 124 (bothEndianU16 1)
  let descriptor := Slice.splice descriptor 128 (bothEndianU16 SECTOR)
  if u32Max < layout.pathTableSize then
    throw (isoError .limit "ISO path table exceeds u32")
  let descriptor := Slice.splice descriptor 132 (bothEndianU32 layout.pathTableSize)
  let descriptor := Slice.splice descriptor 140 (oneEndian false 4 layout.littlePathLba)
  let descriptor := Slice.splice descriptor 148 (oneEndian true 4 layout.bigPathLba)
  let root ← directoryRecord [0] layout.rootLba layout.rootSize true RECORDING_TIME []
  let descriptor := Slice.splice descriptor 156 root
  let descriptor := if layout.joliet then descriptor
    else Slice.splice descriptor 190 (List.replicate 623 (chr ' '))
  return Slice.splice descriptor 881 [1]

/-- The terminator of the volume descriptors. -/
def terminator : List Byte := [255] ++ bstr "CD001" ++ [1] ++ List.replicate (SECTOR - 7) 0

/-- The volume descriptors are written, and the cursor goes back to the end. -/
def emitDescriptors (layout : Layout) (metadata : ArchiveMetadata) (primaryPath jolietPath : ℕ)
    (output : Output) : Except StreamError Output := do
  let root := nodeAt layout.nodes 0
  let primary ← volumeDescriptor
    ⟨1, false, root.primaryLba, root.primarySize, primaryPath, layout.primaryLPath,
      layout.primaryMPath, layout.totalSectors⟩ metadata
  let supplementary ← volumeDescriptor
    ⟨2, true, root.jolietLba, root.jolietSize, jolietPath, layout.jolietLPath,
      layout.jolietMPath, layout.totalSectors⟩ metadata
  let archiveEnd := output.position
  let output := output.seek (DESCRIPTOR_START * SECTOR)
  let output := ((output.writeAll primary).writeAll supplementary).writeAll terminator
  return output.seek archiveEnd

/-- What is known before anything is written: the directories in their order, where the regions are,
and the sizes of those that are no directories. -/
structure Planned where
  order : List ℕ
  layout : Layout
  primaryPath : ℕ
  jolietPath : ℕ
  continuationSize : ℕ
deriving DecidableEq

/-- The first part of `finish`. -/
def plan (w : IsoSeekWriter) (order : List ℕ) (nodes : List IsoNode) :
    Except StreamError Planned := do
  validateIdentifiers nodes order
  let nodes ← sizeDirectories order nodes
  let area ← probeContinuations nodes order (some { baseLba := 0 })
  let continuationSize := (areaOf area).length
  let primaryPath := pathTableSize nodes order false
  let jolietPath := pathTableSize nodes order true
  checkFinalMetadataSize nodes w.limits order primaryPath jolietPath continuationSize
  let lba ← outputLba w.output "ISO output cursor is not sector aligned"
    "ISO image exceeds u32 LBA range"
  let layout ← planLayout nodes order primaryPath jolietPath continuationSize lba
  return ⟨order, layout, primaryPath, jolietPath, continuationSize⟩

/-- The second part of `finish`. -/
def emit (w : IsoSeekWriter) (p : Planned) : Except StreamError Output := do
  let output ← emitRegions p.layout p.order p.continuationSize w.output
  emitDescriptors p.layout w.archiveMetadata p.primaryPath p.jolietPath output

/-- `finish`; `none` would be a loop that does not end. -/
def finish (w : IsoSeekWriter) : Option (Except StreamError Output) :=
  if w.pending.isSome then some (.error (isoError .protocol "ISO entry is open at finish"))
  else (orderDirectories w.nodes).map fun ordered => do
    let (order, nodes) ← ordered
    let p ← plan w order nodes
    emit w p

end LibarchiveOxide.Iso.Finish
