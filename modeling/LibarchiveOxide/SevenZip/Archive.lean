import LibarchiveOxide.Codecs.Crc
import LibarchiveOxide.Lib.Slice
import LibarchiveOxide.SevenZip.Reader

/-! # Opening an archive

The signature header leads to the next header, which is the header itself or is decoded, as a folder,
into it. The source is a byte string; `content` is what the decoder built for a folder makes of its
packed bytes. -/

namespace LibarchiveOxide.SevenZip.Archive

open Core.Failure Core.Metadata Core.Budget Lib.Slice Stream.Event SevenZip.Wire SevenZip.Graph
open SevenZip.Streams SevenZip.Header SevenZip.Reader

/-- `SIGNATURE`. -/
def signature : List Byte := [0x37, 0x7A, 0xBC, 0xAF, 0x27, 0x1C]

/-- What opening an archive is given. -/
structure Opener where
  build : Build := {}
  crc32 : List Byte → UInt32 := Codecs.Crc.crc32
  content : FolderInfo → List Byte → Except ArchiveError (List Byte)
  hasPassword : Bool := false
  limits : Limits

/-- A failure of the reader. -/
def sevenFail {α : Type} (kind : ErrorKind) (context : String) : Except StreamError α :=
  .error (.archive (sevenError kind context))

/-- `seven_legacy_error`. -/
def legacyError : HeaderError → StreamError
  | .malformed context => .archive (sevenError .malformed context)
  | .unsupported context => .archive (sevenError .unsupported context)
  | .limitExceeded context => .archive (sevenError .limit context)

/-- The result of a header parser. -/
def legacy {α : Type} : Except HeaderError (α × ByteReader) → Except StreamError α
  | .ok p => .ok p.1
  | .error e => .error (legacyError e)

/-- `validate_folder_range`. -/
def validateFolderRange (folder : FolderInfo) (imageLength : ℕ) : Except StreamError Unit :=
  match checkedAdd folder.packOffset folder.packSpan with
  | none => sevenFail .malformed "packed stream is outside the archive"
  | some stop =>
    if imageLength < stop then sevenFail .malformed "packed stream is outside the archive"
    else .ok ()

variable (o : Opener) (image : List Byte)

/-- What the decoder of a folder makes of its packed bytes. -/
def folderContent (folder : FolderInfo) : Except ArchiveError (List Byte) :=
  o.content folder (window image folder.packOffset (folder.packOffset + folder.packSpan))

/-- `decode_seek_header`. -/
def decodeSeekHeader (folder : FolderInfo) : Except StreamError (List Byte) :=
  if exceeds folder.unpackSize o.limits.metadataBytes then
    sevenFail .limit "decoded header exceeds metadata limit"
  else do
    validateFolderRange folder image.length
    match folderContent o image folder with
    | .error e => .error (.archive e)
    | .ok output =>
      if output.length < folder.unpackSize then sevenFail .malformed "LZMA payload decode failed"
      else if folder.unpackSize < output.length then
        sevenFail .integrity "encoded header exceeds its declared size"
      else .ok output

/-- The next header of an archive: empty, or with the checksum that the signature header has. -/
def nextHeader : Except StreamError (List Byte) :=
  if image.length < signatureHeaderSize then
    .error (.io ⟨"UnexpectedEof", "failed to fill whole buffer"⟩)
  else if image.take 6 ≠ signature then sevenFail .malformed "bad signature header"
  else if (o.crc32 (window image 12 32)).toNat ≠ leValue (window image 8 12) then
    sevenFail .integrity "start-header CRC mismatch"
  else
    let headerOffset := leValue (window image 12 20)
    let headerSize := leValue (window image 20 28)
    if headerSize = 0 then .ok []
    else if exceeds headerSize o.limits.metadataBytes then
      sevenFail .limit "next header exceeds metadata limit"
    else
      match checkedAdd signatureHeaderSize headerOffset with
      | none => sevenFail .malformed "next-header offset overflow"
      | some start =>
        match checkedAdd start headerSize with
        | none => sevenFail .malformed "next header is outside the archive"
        | some stop =>
          if image.length < stop then sevenFail .malformed "next header is outside the archive"
          else if (o.crc32 (window image start stop)).toNat ≠ leValue (window image 28 32) then
            sevenFail .integrity "next-header CRC mismatch"
          else .ok (window image start stop)

/-- The folder of an encoded header. -/
def encodedFolder (encoded : List Byte) : Except StreamError FolderInfo := do
  let folders ← legacy (parseStreamsInfo o.build { rest := encoded })
  match folders with
  | [folder] =>
    if folder.isDecodable then .ok folder
    else sevenFail .unsupported "encoded-header coder is unsupported"
  | _ => sevenFail .unsupported "encoded header must be a single folder"

/-- The header that a next header is or is decoded into. -/
def decodedHeader (header : List Byte) : Except StreamError (List Byte) :=
  match header with
  | [] => sevenFail .malformed "unexpected next-header property"
  | property :: encoded =>
    if property = kHeader then .ok header
    else if property = kEncodedHeader then do
      let folder ← encodedFolder o encoded
      decodeSeekHeader o image folder
    else sevenFail .malformed "unexpected next-header property"

/-- The bytes behind `kHeader`. -/
def headerBody (header : List Byte) : Except StreamError (List Byte) :=
  match header with
  | [] => sevenFail .malformed "decoded header does not begin with kHeader"
  | property :: body =>
    if property = kHeader then .ok body
    else sevenFail .malformed "decoded header does not begin with kHeader"

end LibarchiveOxide.SevenZip.Archive

/-! # Building the decoder of a folder

`build_folder_reader` composes the coders of a graph: a linear chain in the decode order, or four
inputs of a BCJ2 junction with what follows the junction wrapped around it. A decoder is modelled by
its structure (`Stage`); whether the set-up of a coder succeeds is a parameter. -/

namespace LibarchiveOxide.SevenZip.FolderReader

open Core.Failure Stream.Event SevenZip.Wire SevenZip.Graph SevenZip.Header SevenZip.Archive

/-- `SevenStage` with its sources: an extent of the archive, a coder around another stage, or a BCJ2
junction around four of them. A coder is kept with its index in the graph. -/
inductive Stage where
  | source (start size : ℕ)
  | coder (index : ℕ) (method : CoderMethod) (unpackSize : ℕ) (inner : Stage)
  | bcj2 (index unpackSize : ℕ) (main call jump range : Stage)
deriving DecidableEq

/-- What does not depend on the graph: the codec-memory check of a folder, and the set-up of the
reader of a coder. -/
structure Setup where
  memory : FolderInfo → Except StreamError Unit
  reader : CoderMethod → ℕ → Stage → Except StreamError Unit

variable (setup : Setup)

/-- The first output stream of a coder. -/
def outBase (f : Folder) (index : ℕ) : ℕ := ((f.coders.take index).map Coder.numOut).sum

/-- `wrap_coder`. -/
def wrapCoder (index : ℕ) (method : CoderMethod) (unpackSize : ℕ) (inner : Stage) :
    Except StreamError Stage :=
  match method with
  | .bcj2 => sevenFail .protocol "BCJ2 junction cannot be used as a single-input coder"
  | .unsupported => sevenFail .unsupported "payload coder is unsupported"
  | method => do
    setup.reader method unpackSize inner
    .ok (.coder index method unpackSize inner)

/-- The coder at an index; the source indexes the table. -/
def coderAt (f : Folder) (index : ℕ) : Except StreamError Coder :=
  okOr f.coders[index]? (.archive (sevenError .protocol "coder index out of bounds"))

/-- The loops that wrap coders around a stage. -/
def wrapAll (info : FolderInfo) : List ℕ → Stage → Except StreamError Stage
  | [], stage => .ok stage
  | index :: order, stage => do
    let coder ← coderAt info.graph index
    let outSize ← okOr info.outputSizes[outBase info.graph index]?
      (.archive (sevenError .malformed "coder output size missing"))
    let stage ← wrapCoder setup index coder.method outSize stage
    wrapAll info order stage

/-- `build_linear_folder` on the packed bytes of the folder. -/
def buildLinearFolder (info : FolderInfo) : Except StreamError Stage :=
  wrapAll setup info info.decodeOrder (.source info.packOffset info.packSpan)

/-- The packed extents: for each packed input the start and the size of its pack stream. -/
def packExtents : ℕ → List ℕ → List ℕ → Except StreamError (List (ℕ × ℕ × ℕ))
  | start, input :: inputs, size :: sizes => do
    let next ← okOr (checkedAdd start size)
      (.archive (sevenError .limit "BCJ2 pack extent overflow"))
    let extents ← packExtents next inputs sizes
    .ok ((input, start, size) :: extents)
  | _, _, _ => .ok []

/-- `build_bcj2_input`. The first argument is how much deeper the graph may be. -/
def buildBcj2Input (info : FolderInfo) (extents : List (ℕ × ℕ × ℕ)) :
    ℕ → ℕ → Except StreamError Stage
  | 0, _ => sevenFail .malformed "BCJ2 input graph contains a cycle"
  | depthLeft + 1, input =>
    match extents.find? fun extent => extent.1 == input with
    | some (_, start, size) => .ok (.source start size)
    | none => do
      let pair ← okOr (info.graph.bindPairs.find? fun pair => pair.inIndex == input)
        (.archive (sevenError .malformed "BCJ2 input is not fed"))
      let producer ← okOr (info.graph.coderOfOut pair.outIndex)
        (.archive (sevenError .malformed "BCJ2 input producer is missing"))
      let coder ← coderAt info.graph producer
      if coder.numIn ≠ 1 ∨ coder.numOut ≠ 1 ∨ coder.method = .bcj2 then
        throw (.archive (sevenError .malformed
          "BCJ2 branch coder must have one input and one output"))
      let inner ← buildBcj2Input info extents depthLeft (info.graph.inBase producer)
      let outSize ← okOr info.outputSizes[outBase info.graph producer]?
        (.archive (sevenError .malformed "BCJ2 branch output size missing"))
      wrapCoder setup producer coder.method outSize inner

/-- The coder is the BCJ2 junction. -/
def isBcj2 (f : Folder) (index : ℕ) : Bool :=
  f.coders[index]?.any fun coder => coder.method == .bcj2

/-- The junction of `build_bcj2_folder` with its four inputs. -/
def buildJunction (info : FolderInfo) (index : ℕ) : Except StreamError Stage := do
  let bcj2 ← coderAt info.graph index
  if bcj2.numIn ≠ 4 ∨ bcj2.numOut ≠ 1 then
    throw (.archive (sevenError .malformed
      "BCJ2 junction must have four inputs and one output"))
  let extents ← packExtents info.packOffset info.graph.packedIndices info.packSizes
  let input := fun slot => buildBcj2Input setup info extents (info.graph.coders.length + 1)
    (info.graph.inBase index + slot)
  let main ← input 0
  let call ← input 1
  let jump ← input 2
  let range ← input 3
  let unpackSize ← okOr info.outputSizes[outBase info.graph index]?
    (.archive (sevenError .malformed "BCJ2 output size missing"))
  .ok (.bcj2 index unpackSize main call jump range)

/-- `build_bcj2_folder`. -/
def buildBcj2Folder (info : FolderInfo) : Except StreamError Stage :=
  match info.decodeOrder.dropWhile fun index => !isBcj2 info.graph index with
  | [] => sevenFail .protocol "BCJ2 folder has no BCJ2 junction"
  | index :: tail => do
    let stage ← buildJunction setup info index
    wrapAll setup info tail stage

/-- `build_folder_reader`. -/
def buildFolderReader (info : FolderInfo) : Except StreamError Stage := do
  if !info.isDecodable then
    throw (.archive (sevenError .unsupported "payload coder is unsupported"))
  setup.memory info
  if info.graph.isLinearChain then buildLinearFolder setup info
  else buildBcj2Folder setup info

/-! ### What a stage computes -/

/-- What the bytes of an extent are, and what a coder makes of its input streams. -/
structure Coding (σ : Type) where
  extent : ℕ → ℕ → σ
  run : CoderMethod → ℕ → List σ → σ

/-- The output of a stage. -/
def Stage.output {σ : Type} (coding : Coding σ) : Stage → σ
  | .source start size => coding.extent start size
  | .coder _ method unpackSize inner => coding.run method unpackSize [inner.output coding]
  | .bcj2 _ unpackSize main call jump range => coding.run .bcj2 unpackSize
      [main.output coding, call.output coding, jump.output coding, range.output coding]

/-- The coders of a stage, each as often as it is used. -/
def Stage.coders : Stage → List ℕ
  | .source _ _ => []
  | .coder index _ _ inner => inner.coders ++ [index]
  | .bcj2 index _ main call jump range =>
    main.coders ++ call.coders ++ jump.coders ++ range.coders ++ [index]

end LibarchiveOxide.SevenZip.FolderReader
