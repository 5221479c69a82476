import LibarchiveOxide.SevenZip.Graph

/-! # Streams info

`PackInfo`, `UnpackInfo` and `SubStreamsInfo` are read in whatever order and number they come; the
last of each kind stands. A loop over properties consumes at least a byte in each round, so the
length of the header bounds its rounds. -/

namespace LibarchiveOxide.SevenZip.Streams

open Core.Failure Lib SevenZip.Wire SevenZip.Graph

/-! ### Property ids -/

def kEnd : Byte := 0x00
def kHeader : Byte := 0x01
def kArchiveProperties : Byte := 0x02
def kMainStreamsInfo : Byte := 0x04
def kFilesInfo : Byte := 0x05
def kPackInfo : Byte := 0x06
def kUnpackInfo : Byte := 0x07
def kSubstreamsInfo : Byte := 0x08
def kSize : Byte := 0x09
def kCrc : Byte := 0x0A
def kFolder : Byte := 0x0B
def kCodersUnpackSize : Byte := 0x0C
def kNumUnpackStream : Byte := 0x0D
def kEmptyStream : Byte := 0x0E
def kEmptyFile : Byte := 0x0F
def kAnti : Byte := 0x10
def kName : Byte := 0x11
def kCtime : Byte := 0x12
def kAtime : Byte := 0x13
def kMtime : Byte := 0x14
def kWinAttributes : Byte := 0x15
def kEncodedHeader : Byte := 0x17
def kStartPos : Byte := 0x18

/-- `SIGNATURE_HEADER_SIZE`. -/
def signatureHeaderSize : ℕ := 32

/-! ### Digests -/

/-- The digests that are defined, in order. -/
def definedDigests : List Bool → Parse (List (Option UInt32))
  | [] => pure []
  | d :: ds => do
    let crc ← if d then (do
        let v ← u32
        pure (some (UInt32.ofNat v)))
      else pure none
    let crcs ← definedDigests ds
    pure (crc :: crcs)

/-- `read_digests`. -/
def readDigests (count : ℕ) : Parse (List (Option UInt32)) :=
  if count = 0 then pure []
  else do
    let left ← remaining
    if left < count then malformed "7z: digest count exceeds header size"
    let allDefined ← u8
    let defined ← if allDefined ≠ 0 then pure (List.replicate count true) else bitVector count
    definedDigests defined

/-! ### Substreams -/

/-- The substream tables while they are read. -/
structure SubState where
  counts : List ℕ
  sizes : Option (List (List ℕ)) := none
  crcs : Option (List (List (Option UInt32))) := none
deriving DecidableEq

/-- The stored sizes of one folder, all but the last, and their sum. -/
def readSizes : ℕ → ℕ → Parse (List ℕ × ℕ)
  | 0, sum => pure ([], sum)
  | n + 1, sum => do
    let size ← number
    match checkedAdd sum size with
    | none => malformed "7z: substream size overflow"
    | some sum => do
      let (sizes, sum) ← readSizes n sum
      pure (size :: sizes, sum)

/-- The sizes of one folder; the last one is what is left of the folder. -/
def folderSizes (count folderSize : ℕ) : Parse (List ℕ) :=
  if count = 0 then pure []
  else do
    let left ← remaining
    if left < count - 1 then malformed "7z: substream count exceeds header size"
    let (sizes, sum) ← readSizes (count - 1) 0
    if folderSize < sum then malformed "7z: substream sizes exceed folder"
    pure (sizes ++ [folderSize - sum])

/-- The `kSize` property, folder by folder. -/
def allSizes : List (ℕ × ℕ) → Parse (List (List ℕ))
  | [] => pure []
  | (count, folderSize) :: rest => do
    let sizes ← folderSizes count folderSize
    let more ← allSizes rest
    pure (sizes :: more)

/-- A single substream whose folder carries a digest repeats none. -/
def already (n : ℕ) (folderCrc : Option UInt32) : Bool := n == 1 && folderCrc.isSome

/-- The number of digests stored for the substreams, with saturation. -/
def unknownDigests (counts : List (ℕ × Option UInt32)) : ℕ :=
  counts.foldl (fun total c => min (total + if already c.1 c.2 then 0 else c.1) u64Max) 0

/-- The digests over the substreams, in folder order. -/
def distribute : List (ℕ × Option UInt32) → List (Option UInt32) → List (List (Option UInt32))
  | [], _ => []
  | (n, folderCrc) :: rest, digests =>
    if already n folderCrc then [folderCrc] :: distribute rest digests
    else
      ((List.range n).map fun i => (digests[i]?).join) :: distribute rest (digests.drop n)

/-- Without a `kCRC` block only the folder's digest of a single substream is known. -/
def defaultCrcs (counts : List (ℕ × Option UInt32)) : List (List (Option UInt32)) :=
  counts.map fun c => if already c.1 c.2 then [c.2] else List.replicate c.1 none

/-- Without a `kSize` block a folder has at most one substream. -/
def defaultSize (count folderSize : ℕ) : Parse (List ℕ) :=
  match count with
  | 0 => pure []
  | 1 => pure [folderSize]
  | _ => malformed "7z: missing substream sizes"

/-- The sizes without a `kSize` block. -/
def defaultSizes : List (ℕ × ℕ) → Parse (List (List ℕ))
  | [] => pure []
  | (count, folderSize) :: rest => do
    let sizes ← defaultSize count folderSize
    let more ← defaultSizes rest
    pure (sizes :: more)

/-- The folders' digests, `none` behind the end of the list. -/
def crcOf (folderCrcs : List (Option UInt32)) (index : ℕ) : Option UInt32 :=
  (folderCrcs[index]?).join

/-- The counts beside the folders' digests. -/
def withCrcs (counts : List ℕ) (folderCrcs : List (Option UInt32)) : List (ℕ × Option UInt32) :=
  counts.zipIdx.map fun c => (c.1, crcOf folderCrcs c.2)

/-- The property loop of `parse_substreams_info`. -/
def subLoop (folderUnpack : List ℕ) (folderCrcs : List (Option UInt32)) :
    ℕ → SubState → Parse SubState
  | 0, _ => malformed "7z: unexpected end of header"
  | fuel + 1, st => do
    let property ← u8
    if property = kEnd then pure st
    else if property = kNumUnpackStream then do
      let counts ← Parser.times number folderUnpack.length
      subLoop folderUnpack folderCrcs fuel { st with counts := counts }
    else if property = kSize then do
      let sizes ← allSizes (st.counts.zip folderUnpack)
      subLoop folderUnpack folderCrcs fuel { st with sizes := some sizes }
    else if property = kCrc then do
      let counts := withCrcs st.counts folderCrcs
      let digests ← readDigests (unknownDigests counts)
      subLoop folderUnpack folderCrcs fuel { st with crcs := some (distribute counts digests) }
    else unsupported "7z: unsupported substreams property"

/-- Every folder has as many sizes and digests as substreams. -/
def checkCounts : List ℕ → List (List ℕ) → List (List (Option UInt32)) → Parse Unit
  | count :: counts, sizes :: moreSizes, crcs :: moreCrcs =>
    if sizes.length ≠ count then malformed "7z: substream count mismatch"
    else if crcs.length ≠ count then malformed "7z: substream crc count mismatch"
    else checkCounts counts moreSizes moreCrcs
  | _, _, _ => pure ()

/-- The sizes that were stored, or those that follow without them. -/
def storedSizes (st : SubState) (folderUnpack : List ℕ) : Parse (List (List ℕ)) :=
  match st.sizes with
  | some sizes => pure sizes
  | none => defaultSizes (st.counts.zip folderUnpack)

/-- `parse_substreams_info`. -/
def parseSubstreamsInfo (folderUnpack : List ℕ) (folderCrcs : List (Option UInt32)) :
    Parse (List (List ℕ) × List (List (Option UInt32))) := do
  let left ← remaining
  let st ← subLoop folderUnpack folderCrcs left { counts := List.replicate folderUnpack.length 1 }
  let sizes ← storedSizes st folderUnpack
  let crcs := st.crcs.getD (defaultCrcs (withCrcs st.counts folderCrcs))
  checkCounts st.counts sizes crcs
  pure (sizes, crcs)

/-! ### Streams -/

/-- The tables of `parse_streams_info` while they are read. -/
structure StreamsState where
  packPos : ℕ := 0
  packSizes : Option (List ℕ) := none
  graphs : List Folder := []
  outputSizesAll : List ℕ := []
  numFolders : ℕ := 0
  folderCrcs : List (Option UInt32) := []
  substreamSizes : Option (List (List ℕ)) := none
  substreamCrcs : Option (List (List (Option UInt32))) := none
deriving DecidableEq

/-- The output streams of all graphs. -/
def totalOutputs (graphs : List Folder) : ℕ := (graphs.map Folder.totalOut).sum

/-- `folder_unpack_sizes`. -/
def folderUnpackSizes : List Folder → List ℕ → Except HeaderError (List ℕ)
  | [], _ => .ok []
  | graph :: graphs, sizes =>
    if sizes.length < graph.totalOut then .error (.malformed "7z: coder output-size mismatch")
    else do
      let finalOut ← graph.finalOutIndex
      let size ← okOr ((sizes.take graph.totalOut)[finalOut]?)
        (.malformed "7z: final output size missing")
      let more ← folderUnpackSizes graphs (sizes.drop graph.totalOut)
      .ok (size :: more)

/-- The properties of a `PackInfo`. -/
def packLoop (numPack : ℕ) : ℕ → Option (List ℕ) → Parse (Option (List ℕ))
  | 0, _ => malformed "7z: unexpected end of header"
  | fuel + 1, sizes => do
    let property ← u8
    if property = kEnd then pure sizes
    else if property = kSize then do
      let sizes ← Parser.times number numPack
      packLoop numPack fuel (some sizes)
    else if property = kCrc then do
      let _ ← readDigests numPack
      packLoop numPack fuel sizes
    else unsupported "7z: unsupported pack-info property"

/-- A `PackInfo`. -/
def parsePackInfo (st : StreamsState) : Parse StreamsState := do
  let packPos ← number
  let numPack ← number
  let left ← remaining
  if left < numPack then malformed "7z: pack-stream count exceeds header size"
  let sizes ← packLoop numPack left st.packSizes
  pure { st with packPos := packPos, packSizes := sizes }

/-- The properties behind the sizes of an `UnpackInfo`. -/
def unpackLoop (numFolders : ℕ) : ℕ → List (Option UInt32) → Parse (List (Option UInt32))
  | 0, _ => malformed "7z: unexpected end of header"
  | fuel + 1, crcs => do
    let property ← u8
    if property = kEnd then pure crcs
    else if property = kCrc then do
      let crcs ← readDigests numFolders
      unpackLoop numFolders fuel crcs
    else unsupported "7z: unsupported unpack-info property"

/-- An `UnpackInfo`. -/
def parseUnpackInfo (b : Build) (st : StreamsState) : Parse StreamsState := do
  let property ← u8
  if property ≠ kFolder then malformed "7z: unpack info missing kFolder"
  let numFolders ← number
  let external ← u8
  if external ≠ 0 then unsupported "7z: external folder definitions"
  let left ← remaining
  if left < numFolders then malformed "7z: folder count exceeds header size"
  let graphs ← Parser.times (readFolder b) numFolders
  let property ← u8
  if property ≠ kCodersUnpackSize then malformed "7z: missing coders-unpack-size"
  let left ← remaining
  if left < totalOutputs graphs then malformed "7z: output-stream count exceeds header size"
  let sizes ← Parser.times number (totalOutputs graphs)
  let left ← remaining
  let crcs ← unpackLoop numFolders left (List.replicate numFolders none)
  pure { st with
    graphs := graphs, outputSizesAll := sizes, numFolders := numFolders, folderCrcs := crcs }

/-- A `SubStreamsInfo`, against the folders read so far. -/
def parseSubstreams (st : StreamsState) : Parse StreamsState := do
  let folderUnpack ← liftM (folderUnpackSizes st.graphs st.outputSizesAll)
  let (sizes, crcs) ← parseSubstreamsInfo folderUnpack st.folderCrcs
  pure { st with substreamSizes := some sizes, substreamCrcs := some crcs }

/-- The property loop of `parse_streams_info`. -/
def streamsLoop (b : Build) : ℕ → StreamsState → Parse StreamsState
  | 0, _ => malformed "7z: unexpected end of header"
  | fuel + 1, st => do
    let property ← u8
    if property = kEnd then pure st
    else if property = kPackInfo then do
      let st ← parsePackInfo st
      streamsLoop b fuel st
    else if property = kUnpackInfo then do
      let st ← parseUnpackInfo b st
      streamsLoop b fuel st
    else if property = kSubstreamsInfo then do
      let st ← parseSubstreams st
      streamsLoop b fuel st
    else unsupported "7z: unsupported streams-info property"

/-- The end of a run of pack streams. -/
def packEnd : ℕ → List ℕ → Except HeaderError ℕ
  | running, [] => .ok running
  | running, size :: sizes =>
    match checkedAdd running size with
    | none => .error (.malformed "7z: pack offset overflow")
    | some next => packEnd next sizes

/-- The folders with their tables, in order; `running` is where the next pack stream starts. -/
def assemble (folderUnpack : List ℕ) (sizes : List (List ℕ)) (crcs : List (List (Option UInt32))) :
    List Folder → ℕ → ℕ → List ℕ → List ℕ → Except HeaderError (List FolderInfo)
  | [], _, _, _, _ => .ok []
  | graph :: graphs, index, running, packSizes, outputs => do
    let packs := packSizes.take graph.packedIndices.length
    let next ← packEnd running packs
    let decodeOrder ← resolveFolder graph
    let more ← assemble folderUnpack sizes crcs graphs (index + 1) next
      (packSizes.drop graph.packedIndices.length) (outputs.drop graph.totalOut)
    .ok ({ graph := graph
           packOffset := running
           packSizes := packs
           unpackSize := folderUnpack.getD index 0
           outputSizes := outputs.take graph.totalOut
           decodeOrder := decodeOrder
           substreamSizes := sizes.getD index []
           substreamCrcs := crcs.getD index [] } :: more)

/-- The checks behind the property loop, and the folders. -/
def finishStreams (st : StreamsState) : Except HeaderError (List FolderInfo) := do
  if st.numFolders = 0 then throw (.malformed "7z: missing folder definitions")
  if st.graphs.length ≠ st.numFolders then throw (.malformed "7z: inconsistent folder table")
  if st.outputSizesAll.length ≠ totalOutputs st.graphs then
    throw (.malformed "7z: coder output-size mismatch")
  let folderUnpack ← folderUnpackSizes st.graphs st.outputSizesAll
  let packSizes ← okOr st.packSizes (.malformed "7z: missing pack sizes")
  if packSizes.length ≠ (st.graphs.map fun g => g.packedIndices.length).sum then
    throw (.malformed "7z: pack-stream count does not match folder inputs")
  let sizes := st.substreamSizes.getD (folderUnpack.map fun size => [size])
  if sizes.length ≠ st.numFolders then throw (.malformed "7z: substream folder-count mismatch")
  let crcs := st.substreamCrcs.getD (st.folderCrcs.map fun crc => [crc])
  if crcs.length ≠ st.numFolders then
    throw (.malformed "7z: substream crc folder-count mismatch")
  let base ← okOr (checkedAdd signatureHeaderSize st.packPos)
    (.malformed "7z: pack offset overflow")
  assemble folderUnpack sizes crcs st.graphs 0 base packSizes st.outputSizesAll

/-- `parse_streams_info`. -/
def parseStreamsInfo (b : Build) : Parse (List FolderInfo) := do
  let left ← remaining
  let st ← streamsLoop b left {}
  liftM (finishStreams st)

end LibarchiveOxide.SevenZip.Streams
