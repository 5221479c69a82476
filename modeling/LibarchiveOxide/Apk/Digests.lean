import LibarchiveOxide.Apk.Cursor
import LibarchiveOxide.Core.Failure
import LibarchiveOxide.Lib.Chunks
import LibarchiveOxide.Lib.Radix
import LibarchiveOxide.Lib.Result
import LibarchiveOxide.Lib.Slice

/-! # The chunked digests of an APK

A content digest is a hash over the hashes of chunks of one mebibyte, behind their number. The chunks
are those of three sections: the entries, the central directory, and the end record as if there were no
signing block. -/

namespace LibarchiveOxide.Apk.Digests

open Core.Failure Core.Budget Lib.Result Lib.LittleEndian Lib.Chunks Lib.Slice Apk.Cursor

/-- `CHUNK_SIZE`. -/
def CHUNK_SIZE : ℕ := 1024 * 1024

/-- `u32::MAX`. -/
def u32Max : ℕ := 2 ^ 32 - 1

/-- `ApkLayout`, without its signing schemes. -/
structure ApkLayout where
  blockStart : ℕ
  centralOffset : ℕ
  eocdOffset : ℕ
  eocd : List Byte
deriving DecidableEq

/-- `ComputedDigests`, without the one of fs-verity. -/
structure ComputedDigests where
  sha256 : Option (List Byte)
  sha512 : Option (List Byte)
deriving DecidableEq

/-- The hash functions. -/
structure Hashes where
  sha256 : List Byte → List Byte
  sha512 : List Byte → List Byte

/-! ### Hashers -/

/-- The bytes that the hashers that are in use have been given. -/
structure Hashers where
  sha256 : Option (List Byte)
  sha512 : Option (List Byte)

/-- `update` of each hasher that is in use. -/
def Hashers.update (h : Hashers) (bytes : List Byte) : Hashers :=
  ⟨h.sha256.map (· ++ bytes), h.sha512.map (· ++ bytes)⟩

/-- New hashers for a chunk, `top.is_some().then(new)`. -/
def Hashers.chunk (top : Hashers) : Hashers :=
  ⟨top.sha256.map fun _ => [], top.sha512.map fun _ => []⟩

/-- `update_chunk_header`. -/
def updateChunkHeader (h : Hashers) (length : ℕ) : Hashers :=
  (h.update [0xa5]).update (leBytes 4 length)

/-- The digest of a chunk goes to the hasher of the section. -/
def finishOne (hash : List Byte → List Byte) (chunk top : Option (List Byte)) :
    Option (List Byte) :=
  match chunk, top with
  | some chunk, some top => some (top ++ hash chunk)
  | _, top => top

variable (x : Hashes)

/-- `finish_chunk`. -/
def finishChunk (chunk top : Hashers) : Hashers :=
  ⟨finishOne x.sha256 chunk.sha256 top.sha256, finishOne x.sha512 chunk.sha512 top.sha512⟩

/-! ### Sections -/

variable {bytes : List Byte}

/-- `chunks`. -/
def chunkCount (length : ℕ) : Except Failure ℕ :=
  if length = 0 then .ok 0
  else do
    let sum ← okOr (checkedAdd length (CHUNK_SIZE - 1))
      (.resource "APK chunk-count arithmetic overflow")
    .ok (sum / CHUNK_SIZE)

/-- The inner loop of `hash_reader_section`; `none` while it is still running when the fuel is
spent. -/
def readChunk (bufferSize : ℕ+) : ℕ → Hashers → List Byte → ℕ →
    Option (Except Failure (Hashers × List Byte))
  | _, chunk, input, 0 => some (.ok (chunk, input))
  | 0, _, _, _ + 1 => none
  | fuel + 1, chunk, input, chunkRemaining + 1 =>
    let take := min (chunkRemaining + 1) bufferSize
    if input.length < take then
      some (.error (.read
        "cannot read APK bytes for content digest: failed to fill whole buffer"))
    else readChunk bufferSize fuel (chunk.update (input.take take)) (input.drop take)
      (chunkRemaining + 1 - take)

theorem readChunk_isSome (bufferSize : ℕ+) : ∀ {fuel remaining : ℕ} {chunk : Hashers}
    {input : List Byte}, remaining ≤ fuel → (readChunk bufferSize fuel chunk input remaining).isSome
  | _, 0, _, _, _ => by rw [readChunk]; rfl
  | 0, _ + 1, _, _, h => nomatch h
  | fuel + 1, remaining + 1, chunk, input, h => by
    have hpos := bufferSize.pos
    rw [readChunk]
    split_ifs with hshort
    · rfl
    · exact readChunk_isSome bufferSize (by omega)

/-- A chunk of the file, given to the hashers of the chunk. -/
def readWhole (bufferSize : ℕ+) (chunk : Hashers) (input : List Byte) (length : ℕ) :
    Except Failure (Hashers × List Byte) :=
  (readChunk bufferSize length chunk input length).get (readChunk_isSome bufferSize le_rfl)

/-- The loop of `hash_reader_section`; `none` while it is still running when the fuel is spent. -/
def sectionLoop (bufferSize : ℕ+) : ℕ → Hashers → List Byte → ℕ → Option (Except Failure Hashers)
  | _, top, _, 0 => some (.ok top)
  | 0, _, _, _ + 1 => none
  | fuel + 1, top, input, remaining + 1 =>
    let chunkLength := min (remaining + 1) CHUNK_SIZE
    if u32Max < chunkLength then some (.error (.resource "APK chunk length exceeds u32"))
    else
      match readWhole bufferSize (updateChunkHeader top.chunk chunkLength) input chunkLength with
      | .error e => some (.error e)
      | .ok (chunk, input) =>
        sectionLoop bufferSize fuel (finishChunk x chunk top) input (remaining + 1 - chunkLength)

theorem sectionLoop_isSome (bufferSize : ℕ+) : ∀ {fuel remaining : ℕ} {top : Hashers}
    {input : List Byte}, remaining ≤ fuel → (sectionLoop x bufferSize fuel top input remaining).isSome
  | _, 0, _, _, _ => by rw [sectionLoop]; rfl
  | 0, _ + 1, _, _, h => nomatch h
  | fuel + 1, remaining + 1, top, input, h => by
    rw [sectionLoop]
    split_ifs with hlong
    · rfl
    · cases readWhole bufferSize (updateChunkHeader top.chunk (min (remaining + 1) CHUNK_SIZE)) input
        (min (remaining + 1) CHUNK_SIZE) with
      | error e => rfl
      | ok r =>
        refine sectionLoop_isSome bufferSize ?_
        have : 0 < CHUNK_SIZE := by decide
        omega

/-- `hash_reader_section`. -/
def hashReaderSection (file : List Byte) (offset length : ℕ) (limits : Limits) (top : Hashers) :
    Except Failure Hashers := do
  let bufferLimit := limits.inFlightBytes.getD (64 * 1024)
  if h : bufferLimit = 0 then throw (.resource "APK digest in-flight byte limit is zero")
  else
    (sectionLoop x ⟨min bufferLimit (64 * 1024), by omega⟩ length top (file.drop offset) length).get
      (sectionLoop_isSome x _ le_rfl)

/-- The end of a piece that begins at an offset, but not behind the bytes. -/
def endOf (size : ℕ) (bytes : List Byte) (offset : ℕ) : ℕ :=
  match checkedAdd offset size with
  | none => bytes.length
  | some stop => min stop bytes.length

/-- The end of the chunk that begins at an offset of some bytes in memory. -/
def chunkEnd (bytes : List Byte) (offset : ℕ) : ℕ := endOf CHUNK_SIZE bytes offset

/-- The loop of `hash_memory_section`; `none` while it is still running when the fuel is spent. -/
def memoryLoop (bytes : List Byte) : ℕ → Hashers → ℕ → Option (Except Failure Hashers)
  | fuel, top, offset =>
    if offset < bytes.length then
      match fuel with
      | 0 => none
      | fuel + 1 =>
        let chunk := window bytes offset (chunkEnd bytes offset)
        if u32Max < chunk.length then
          some (.error (.resource "APK memory chunk length exceeds u32"))
        else
          memoryLoop bytes fuel
            (finishChunk x ((updateChunkHeader top.chunk chunk.length).update chunk) top)
            (chunkEnd bytes offset)
    else some (.ok top)

theorem lt_endOf {size : ℕ} (hsize : 0 < size) {offset : ℕ} (h : offset < bytes.length) :
    offset < endOf size bytes offset := by
  unfold endOf
  cases hadd : checkedAdd offset size with
  | none => exact h
  | some stop =>
    obtain ⟨rfl, -⟩ := checkedAdd_eq_some.mp hadd
    exact lt_min (Nat.lt_add_of_pos_right hsize) h

theorem chunkSize_pos : 0 < CHUNK_SIZE := by
  unfold CHUNK_SIZE
  norm_num

theorem lt_chunkEnd {offset : ℕ} (h : offset < bytes.length) :
    offset < chunkEnd bytes offset := lt_endOf chunkSize_pos h

theorem memoryLoop_isSome : ∀ {fuel offset : ℕ} {top : Hashers},
    bytes.length - offset ≤ fuel → (memoryLoop x bytes fuel top offset).isSome := by
  intro fuel
  induction fuel with
  | zero =>
    intro offset top h
    rw [memoryLoop, if_neg (by omega)]
    rfl
  | succ fuel ih =>
    intro offset top h
    rw [memoryLoop]
    by_cases hmore : offset < bytes.length
    · rw [if_pos hmore]
      have := lt_chunkEnd hmore
      dsimp only
      split_ifs with hlong
      · rfl
      · exact ih (by omega)
    · rw [if_neg hmore]
      rfl

/-- `hash_memory_section`. -/
def hashMemorySection (bytes : List Byte) (top : Hashers) : Except Failure Hashers :=
  (memoryLoop x bytes bytes.length top 0).get (memoryLoop_isSome x (Nat.sub_le ..))

/-! ### The digests -/

/-- The end record as if the central directory were at the signing block. -/
def patchedEocd (layout : ApkLayout) : Except Failure (List Byte) := do
  if u32Max < layout.blockStart then
    throw (.unsupported "APK Signing Block offset exceeds ZIP32 range")
  if layout.eocd.length < 20 then throw (.invalid "APK EOCD central offset is truncated")
  .ok (splice layout.eocd 16 (leBytes 4 layout.blockStart))

/-- The number of all chunks. -/
def allChunks (firstLength centralLength eocdLength : ℕ) : Except Failure ℕ := do
  let first ← chunkCount firstLength
  let central ← chunkCount centralLength
  let total ← okOr ((checkedAdd first central).bind fun value =>
      (chunkCount eocdLength).toOption.bind fun eocd => checkedAdd value eocd)
    (.resource "APK content chunk count overflow")
  if u32Max < total then throw (.resource "APK has too many 1 MiB content chunks")
  .ok total

/-- `compute_chunked_digests`. -/
def computeChunkedDigests (file : List Byte) (layout : ApkLayout) (limits : Limits)
    (sha256Requested sha512Requested : Bool) : Except Failure ComputedDigests := do
  if !sha256Requested && !sha512Requested then return ⟨none, none⟩
  if layout.eocdOffset < layout.centralOffset then
    throw (.invalid "APK central-directory range underflow")
  let centralLength := layout.eocdOffset - layout.centralOffset
  let signedLength ← okOr ((checkedAdd layout.blockStart centralLength).bind fun value =>
    checkedAdd value layout.eocd.length) (.resource "APK signed length overflow")
  if exceeds signedLength limits.decodedTotal then
    throw (.resource s!"APK signature covers {signedLength} bytes; decoded-total limit is {limits.decodedTotal.getD 0}")
  let count ← allChunks layout.blockStart centralLength layout.eocd.length
  let opening := 0x5a :: leBytes 4 count
  let top : Hashers :=
    ⟨if sha256Requested then some opening else none, if sha512Requested then some opening else none⟩
  let top ← hashReaderSection x file 0 layout.blockStart limits top
  let top ← hashReaderSection x file layout.centralOffset centralLength limits top
  let eocd ← patchedEocd layout
  let top ← hashMemorySection x eocd top
  return ⟨top.sha256.map x.sha256, top.sha512.map x.sha512⟩

end LibarchiveOxide.Apk.Digests
