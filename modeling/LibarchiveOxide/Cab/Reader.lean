import LibarchiveOxide.Core.Failure
import LibarchiveOxide.Lib.Radix
import LibarchiveOxide.Lib.Result
import LibarchiveOxide.Stream.Event

/-! # The data records of a cabinet

A folder of a cabinet is a chain of `CFDATA` records: a stored checksum, the packed and the unpacked
size, the reserved area that the cabinet header announces, and the packed bytes. A stored checksum of
zero means that there is none. -/

namespace LibarchiveOxide.Cab.Data

open Core.Failure Core.Budget Lib.LittleEndian Stream.Event Stream.Image

/-- `cab_error`. -/
def cabError (kind : ErrorKind) (context : String) : StreamError :=
  .archive (.inFormat "cab" kind context)

/-- The MSZIP window, which is also the largest unpacked size of a record. -/
def mszipWindow : ℕ := 0x8000

/-- `tail_value`: the bytes after the last full word, folded big-endian. -/
def tailValue (tail : List Byte) : UInt32 :=
  tail.foldl (fun (value : UInt32) (byte : Byte) => (value <<< 8) ||| byte.toUInt32) 0

/-- `cab_checksum`. -/
def cabChecksum : List Byte → UInt32 → UInt32
  | a :: b :: c :: d :: rest, checksum =>
    cabChecksum rest (checksum ^^^ UInt32.ofNat (leValue [a, b, c, d]))
  | tail, checksum => checksum ^^^ tailValue tail

/-- `validate_cfdata_checksum`. -/
def validateCfdataChecksum (stored : UInt32) (sizeFields reserved payload : List Byte) :
    Except StreamError Unit :=
  if stored = 0 then .ok ()
  else
    let payloadSum := cabChecksum payload 0
    let headerSum := cabChecksum sizeFields payloadSum
    let computed := cabChecksum reserved headerSum
    if computed ≠ stored then .error (cabError .malformed "CFDATA checksum mismatch") else .ok ()

/-- The stored checksum of a record header. -/
def storedChecksum (header : List Byte) : UInt32 := UInt32.ofNat (leValue (header.take 4))

/-- The bytes of the two sizes in a record header. -/
def sizeFields (header : List Byte) : List Byte := (header.drop 4).take 4

/-- `cbData` of a record header. -/
def cbDataOf (header : List Byte) : ℕ := leValue ((header.drop 4).take 2)

/-- `cbUncomp` of a record header. -/
def cbUncompOf (header : List Byte) : ℕ := leValue ((header.drop 6).take 2)

end LibarchiveOxide.Cab.Data

/-! # Decoding a folder

A folder is one solid stream: its blocks are decoded one after the other by a codec that keeps its
state between them. A block of a spanning folder may be split over several records, of which all but
the last say that they unpack to nothing. The inflater, the LZX and the Quantum decoder are
parameters; a build without LZX or Quantum has none. -/

namespace LibarchiveOxide.Cab.Folder

open Core.Failure Core.Budget Lib.LittleEndian Stream.Event Stream.Image Cab.Data

/-- `TINFLStatus`. -/
inductive TinflStatus where
  | done
  | hasMoreOutput
  | needsMoreInput
  | failedCannotMakeProgress
  | failed
deriving DecidableEq

/-- The status of a Quantum call. -/
inductive QuantumStatus where
  | inputEmpty
  | outputFull
  | streamEnd
deriving DecidableEq

/-- The failures of a Quantum call that are told apart. -/
inductive QuantumError where
  | outputLimitExceeded
  | unsupported
  | other
deriving DecidableEq

/-- What is outside of the reader: the inflater, which is given its input, the workspace and where it
may write, and returns its status, how much it consumed, how much it wrote and the workspace; the
decoders of LZX and Quantum, with their constructors for a window exponent. -/
structure Codecs where
  Inflate : Type
  newInflate : Inflate
  inflate : Inflate → List Byte → List Byte → ℕ → (TinflStatus × ℕ × ℕ × List Byte) × Inflate
  lzxEnabled : Bool
  Lzx : Type
  newLzx : ℕ → Option Lzx
  lzx : Lzx → List Byte → ℕ → Option (List Byte × Lzx)
  quantumEnabled : Bool
  Quantum : Type
  newQuantum : ℕ → Option Quantum
  quantum : Quantum → List Byte → ℕ → Except QuantumError ((ℕ × List Byte × QuantumStatus) × Quantum)
  quantumFinish : Quantum → ℕ → Except QuantumError ((ℕ × List Byte × QuantumStatus) × Quantum)

/-- `Method`. -/
inductive Method where
  | store
  | mszip
  | quantum (windowBits : ℕ)
  | lzx (windowBits : ℕ)
  | unsupported (code : ℕ)
deriving DecidableEq

/-- `QUANTUM_FRAME` and `LZX_FRAME`. -/
def frameSize : ℕ := 0x8000

/-- `MSZIP_WORKSPACE`. -/
def mszipWorkspace : ℕ := 2 * mszipWindow

/-- The state of a codec: the MSZIP workspace with its history, the LZX decoder, or the Quantum
decoder with the output it still owes. -/
inductive CodecState (c : Codecs) where
  | plain
  | mszip (workspace : List Byte) (historyLen : ℕ)
  | lzx (decoder : c.Lzx)
  | quantum (decoder : c.Quantum) (declaredRemaining : ℕ) (finished : Bool)

/-- `FolderStream`. -/
structure FolderStream (c : Codecs) where
  folderIndex : ℕ
  method : Method
  numBlocks : ℕ
  nextBlock : ℕ := 0
  blockCursor : ℕ
  reserveData : ℕ
  allowSpanning : Bool
  produced : ℕ := 0
  buf : List Byte := []
  bufPos : ℕ := 0
  codec : CodecState c

variable {c : Codecs}

/-! ### MSZIP -/

/-- The loop of `mszip_inflate_block`. Every round that goes on consumes or writes a byte. -/
def mszipLoop (historyLen expected : ℕ) : ℕ → c.Inflate → List Byte → List Byte → List Byte →
    Except StreamError (List Byte × List Byte)
  | 0, _, _, _, _ => .error (cabError .malformed "MSZIP decoder made no progress")
  | fuel + 1, decompressor, input, workspace, output => do
    let start ← okOr (checkedAdd historyLen output.length)
      (cabError .malformed "MSZIP output offset overflow")
    let ((status, consumed, written, workspace), decompressor) :=
      c.inflate decompressor input workspace start
    if expected - output.length < written then
      throw (cabError .malformed "MSZIP block produced more than its declared size")
    let «end» ← okOr (checkedAdd start written)
      (cabError .malformed "MSZIP output extent overflow")
    if workspace.length < «end» then
      throw (cabError .malformed "MSZIP output extent is invalid")
    let output := output ++ (workspace.drop start).take written
    if input.length < consumed then
      throw (cabError .malformed "MSZIP consumed count overflow")
    match status with
    | .done => .ok (output, workspace)
    | .hasMoreOutput =>
      if written = 0 ∧ consumed = 0 then
        .error (cabError .malformed "MSZIP decoder made no progress")
      else mszipLoop historyLen expected fuel decompressor (input.drop consumed) workspace output
    | .needsMoreInput | .failedCannotMakeProgress =>
      .error (cabError .malformed "truncated MSZIP DEFLATE stream")
    | .failed => .error (cabError .malformed "invalid MSZIP DEFLATE stream")

/-- `mszip_inflate_block`: the block, and the workspace with the history for the next one. -/
def mszipInflateBlock (c : Codecs) (workspace : List Byte) (historyLen : ℕ) (deflate : List Byte)
    (expected : ℕ) : Except StreamError (List Byte × List Byte × ℕ) := do
  if workspace.length ≠ mszipWorkspace ∨ mszipWindow < historyLen then
    throw (cabError .protocol "MSZIP history workspace is inconsistent")
  let combinedLen ← okOr (checkedAdd historyLen expected)
    (cabError .malformed "MSZIP output extent overflow")
  if workspace.length < combinedLen then
    throw (cabError .malformed "MSZIP history and output exceed the workspace")
  let (output, workspace) ← mszipLoop (c := c) historyLen expected (deflate.length + expected + 1)
    c.newInflate deflate workspace []
  if output.length ≠ expected then
    throw (cabError .malformed "MSZIP block size does not match its header")
  let retained := min combinedLen mszipWindow
  let history := (workspace.drop (combinedLen - retained)).take retained
  .ok (output, history ++ workspace.drop retained, retained)

/-! ### Quantum -/

/-- `map_quantum_error`. -/
def mapQuantumError (error : QuantumError) : StreamError :=
  cabError (match error with
    | .outputLimitExceeded => .limit
    | .unsupported => .unsupported
    | .other => .malformed) "invalid or truncated CAB Quantum frame"

/-- The loop of `quantum_decode_block`: what is left of the payload, and the output. Every round
that goes on consumes or writes a byte. -/
def quantumLoop (capacity : ℕ) : ℕ → c.Quantum → List Byte → List Byte →
    Except StreamError (List Byte × List Byte × c.Quantum)
  | 0, decoder, input, output => .ok (input, output, decoder)
  | fuel + 1, decoder, input, output =>
    if capacity ≤ output.length then .ok (input, output, decoder)
    else do
      let ((consumed, written, status), decoder) ←
        (c.quantum decoder input (capacity - output.length)).mapError mapQuantumError
      if input.length < consumed ∨ capacity - output.length < written.length then
        throw (cabError .protocol "Quantum decoder reported progress outside its buffers")
      let rest := input.drop consumed
      let output := output ++ written
      if status = .streamEnd ∨ consumed = 0 ∧ written = [] ∨ rest = [] ∧ status = .inputEmpty then
        .ok (rest, output, decoder)
      else quantumLoop capacity fuel decoder rest output

/-- `quantum_decode_block`: the output, and the state of the decoder. -/
def quantumDecodeBlock (decoder : c.Quantum) (declaredRemaining : ℕ) (finished : Bool)
    (payload : List Byte) (declared : ℕ) : Except StreamError (List Byte × CodecState c) := do
  if finished then
    throw (cabError .protocol "Quantum input supplied after folder completion")
  let declaredRemaining ← okOr (checkedAdd declaredRemaining declared)
    (cabError .limit "Quantum declared-output overflow")
  let payload := payload ++ [0xFF]
  let capacity := min declaredRemaining frameSize
  let (rest, output, decoder) ← quantumLoop capacity (payload.length + capacity + 1) decoder payload []
  if rest ≠ [] then
    throw (cabError .malformed "CAB Quantum frame ended before consuming its compressed payload")
  if declaredRemaining < output.length then
    throw (cabError .protocol "Quantum output accounting underflow")
  .ok (output, .quantum decoder (declaredRemaining - output.length) false)

/-! ### Blocks -/

/-- `decode_cfdata_payload`. -/
def decodeCfdataPayload (stream : FolderStream c) (payload : List Byte) (cbUncomp : ℕ) :
    Except StreamError (List Byte × CodecState c) :=
  match stream.method with
  | .store =>
    if payload.length ≠ cbUncomp then
      .error (cabError .malformed "stored CFDATA compressed and uncompressed sizes disagree")
    else .ok (payload, stream.codec)
  | .mszip =>
    if payload.take 2 ≠ bstr "CK" then
      .error (cabError .malformed "MSZIP CFDATA block missing 'CK' signature")
    else
      match stream.codec with
      | .mszip workspace historyLen => do
        let (output, workspace, historyLen) ←
          mszipInflateBlock c workspace historyLen (payload.drop 2) cbUncomp
        .ok (output, .mszip workspace historyLen)
      | _ => .error (cabError .protocol "MSZIP history workspace is inconsistent")
  | .quantum _ =>
    if !c.quantumEnabled then
      .error (cabError .unsupported "CAB Quantum support is not compiled into this build")
    else
      match stream.codec with
      | .quantum decoder declaredRemaining finished =>
        quantumDecodeBlock decoder declaredRemaining finished payload cbUncomp
      | _ => .error (cabError .protocol "Quantum folder decoder is missing")
  | .lzx _ =>
    if !c.lzxEnabled then
      .error (cabError .unsupported "CAB LZX support is not compiled into this build")
    else
      match stream.codec with
      | .lzx decoder =>
        match c.lzx decoder payload cbUncomp with
        | none => .error (cabError .malformed "invalid or truncated CAB LZX frame")
        | some (output, decoder) => .ok (output, .lzx decoder)
      | _ => .error (cabError .protocol "LZX folder decoder is missing")
  | .unsupported _ => .error (cabError .unsupported "folder compression method is unsupported")

end LibarchiveOxide.Cab.Folder

/-! # The cabinet reader

The files of a cabinet are windows of the decoded folders. One decoder is live at a time; reading a
file, skipping it and draining to its offset all move that decoder, and another folder replaces it. A
failure poisons the reader, unless it only says that a payload cannot be decoded. -/

namespace LibarchiveOxide.Cab.Reader

open Core.Failure Core.Metadata Core.Budget Stream.Event Cab.Data Cab.Folder

/-- `CabFolder`. -/
structure CabFolder where
  dataOffset : ℕ
  numData : ℕ
  method : Method
  decodedSize : Option ℕ := none
deriving DecidableEq

variable {c : Codecs}

/-! ### The live decoder -/

section Decoding

variable (image : List Byte) (imageLength : ℕ) (limits : Limits)

/-- The decoder that `ensure_folder_stream` constructs. -/
def newCodec (folder : CabFolder) : Except StreamError (CodecState c) :=
  match folder.method with
  | .store | .unsupported _ => .ok .plain
  | .mszip =>
    if exceeds mszipWorkspace limits.codecMemory then
      .error (cabError .limit "MSZIP history and output workspace exceed codec-memory limit")
    else .ok (.mszip (List.replicate mszipWorkspace 0) 0)
  | .lzx windowBits =>
    if !c.lzxEnabled then .ok .plain
    else if folder.decodedSize.isNone then
      .error (cabError .unsupported "spanning LZX folder requires another cabinet")
    else
      match c.newLzx windowBits with
      | none => .error (cabError .limit "LZX decoder allocation failed")
      | some decoder => .ok (.lzx decoder)
  | .quantum windowBits =>
    if !c.quantumEnabled then .ok .plain
    else if folder.decodedSize.isNone then
      .error (cabError .unsupported "spanning Quantum folder requires another cabinet")
    else
      match c.newQuantum windowBits with
      | none => .error (cabError .malformed "invalid CAB Quantum window exponent")
      | some decoder => .ok (.quantum decoder 0 false)

/-- The stream of a folder before its first block. -/
def freshStream (index : ℕ) (folder : CabFolder) (reserveData : ℕ) (allowSpanning : Bool)
    (codec : CodecState c) : FolderStream c where
  folderIndex := index
  method := folder.method
  numBlocks := folder.numData
  blockCursor := folder.dataOffset
  reserveData := reserveData
  allowSpanning := allowSpanning
  codec := codec

end Decoding

end LibarchiveOxide.Cab.Reader
