import LibarchiveOxide.Codecs.Calls
import LibarchiveOxide.Core.Failure
import LibarchiveOxide.Lib.Chunks
import LibarchiveOxide.Lib.Radix

/-! # The raw-block Zstandard encoder

`ZstdEncoder` writes a frame of raw blocks of one kibibyte. Its frame header, block header, block and
final block are each drained with an offset of their own. -/

namespace LibarchiveOxide.Codecs.Zstd

open Core.Failure Core.Budget Core.Protocol Lib.LittleEndian Codecs.Calls

/-- `ENCODER_WINDOW`. -/
def ENCODER_WINDOW : ℕ := 1024

/-- `ENCODER_FRAME_HEADER`. -/
def ENCODER_FRAME_HEADER : List Byte := [0x28, 0xb5, 0x2f, 0xfd, 0, 0]

/-- `ENCODER_FINAL_BLOCK`. -/
def ENCODER_FINAL_BLOCK : List Byte := [1, 0, 0]

/-- `BLOCK_HEADER`. -/
def BLOCK_HEADER : ℕ := 3

/-- `u32::MAX`. -/
def u32Max : ℕ := 2 ^ 32 - 1

/-- An error of the encoder. -/
def zstdError (kind : ErrorKind) (context : String) : ArchiveError :=
  .inFormat "zstd" kind context

/-- `ZstdEncoder`; `block` is what is filled of the block, `block_len` its length. -/
structure ZstdEncoder where
  frameHeaderOffset : ℕ := 0
  block : List Byte := []
  blockOutputOffset : ℕ := 0
  blockReady : Bool := false
  blockHeader : List Byte := List.replicate BLOCK_HEADER 0
  blockHeaderOffset : ℕ := BLOCK_HEADER
  finalBlockOffset : ℕ := 0
  finishing : Bool := false
  encodedInput : ℕ := 0
  limits : Limits
deriving DecidableEq

/-- `drain_bytes`: what is written. -/
def drainBytes (bytes : List Byte) (offset room : ℕ) : List Byte := (bytes.drop offset).take room

namespace ZstdEncoder

/-- `with_limits`, for an encoder of this size in memory. -/
def withLimits (size : ℕ) (limits : Limits) : Except ArchiveError ZstdEncoder :=
  if limits.codecMemory.any fun limit => decide (limit < size) then
    .error (zstdError .limit "Zstandard encoder exceeds the configured codec-memory budget")
  else .ok { limits := limits }

/-- The frame header, as far as there is room. -/
def drainFrameHeader (e : ZstdEncoder) (room : ℕ) : List Byte × ZstdEncoder :=
  let bytes := drainBytes ENCODER_FRAME_HEADER e.frameHeaderOffset room
  (bytes, { e with frameHeaderOffset := e.frameHeaderOffset + bytes.length })

/-- `prepare_block`. -/
def prepareBlock (e : ZstdEncoder) : Except ArchiveError ZstdEncoder :=
  if u32Max < e.block.length then .error (zstdError .limit "Zstandard block size overflow")
  else .ok { e with
    blockHeader := (leBytes 4 ((e.block.length <<< 3) % 2 ^ 32)).take BLOCK_HEADER
    blockHeaderOffset := 0
    blockOutputOffset := 0
    blockReady := true }

/-- `drain_block`. -/
def drainBlock (e : ZstdEncoder) (room : ℕ) : List Byte × ZstdEncoder :=
  let header := drainBytes e.blockHeader e.blockHeaderOffset room
  let blockHeaderOffset := e.blockHeaderOffset + header.length
  let body :=
    if blockHeaderOffset = e.blockHeader.length ∧ header.length < room then
      drainBytes e.block e.blockOutputOffset (room - header.length)
    else []
  let blockOutputOffset := e.blockOutputOffset + body.length
  let e := { e with blockHeaderOffset := blockHeaderOffset }
  (header ++ body,
    if blockOutputOffset = e.block.length then
      { e with block := [], blockOutputOffset := 0, blockReady := false }
    else { e with blockOutputOffset := blockOutputOffset })

/-- The bytes that the loop of `encode_data` puts into the block. -/
def fillBlock (e : ZstdEncoder) (data : List Byte) : Except ArchiveError (ℕ × ZstdEncoder) := do
  let count := min (ENCODER_WINDOW - e.block.length) data.length
  let next ← okOr (checkedAdd e.encodedInput count)
    (zstdError .limit "Zstandard input byte count overflow")
  if exceeds next e.limits.decodedTotal then
    throw (zstdError .limit "Zstandard input exceeds the configured decoded-byte budget")
  let e := { e with block := e.block ++ data.take count, encodedInput := next }
  let e ← (if e.block.length = ENCODER_WINDOW then e.prepareBlock else .ok e)
  return (count, e)

/-- The loop of `encode_data`: what is consumed, what is produced, and the encoder. Every round
consumes or produces something, so that as many rounds are enough as there are bytes on both sides. -/
def encodeLoop : ℕ → ZstdEncoder → List Byte → ℕ → Except ArchiveError (ℕ × List Byte × ZstdEncoder)
  | 0, e, _, _ => .ok (0, [], e)
  | rounds + 1, e, data, room =>
    if 0 < room ∧ data ≠ [] then
      if e.blockReady then do
        let (bytes, e) := e.drainBlock room
        let (consumed, produced, e) ← encodeLoop rounds e data (room - bytes.length)
        return (consumed, bytes ++ produced, e)
      else do
        let (count, e) ← e.fillBlock data
        let (consumed, produced, e) ← encodeLoop rounds e (data.drop count) room
        return (count + consumed, produced, e)
    else .ok (0, [], e)

/-- `encode_data`. -/
def encodeData (e : ZstdEncoder) (data : List Byte) (room : ℕ) :
    Except ArchiveError (ℕ × List Byte × ZstdEncoder) := do
  if e.finishing then
    throw (zstdError .protocol "Zstandard data supplied after finalization started")
  let (header, e) := e.drainFrameHeader room
  let (consumed, produced, e) ←
    encodeLoop (room + data.length) e data (room - header.length)
  return (consumed, header ++ produced, e)

/-- The block that is left when the input ends. -/
def finishBlock (e : ZstdEncoder) (room : ℕ) : Except ArchiveError (List Byte × ZstdEncoder) := do
  if e.frameHeaderOffset = ENCODER_FRAME_HEADER.length ∧ 0 < room then
    let e ← (if e.block ≠ [] ∧ !e.blockReady then e.prepareBlock else .ok e)
    return if e.blockReady then e.drainBlock room else ([], e)
  else return ([], e)

/-- The final block, once the block is out. -/
def drainFinalBlock (e : ZstdEncoder) (room : ℕ) : List Byte × ZstdEncoder :=
  if e.frameHeaderOffset = ENCODER_FRAME_HEADER.length ∧ !e.blockReady ∧ e.block = [] ∧ 0 < room then
    let bytes := drainBytes ENCODER_FINAL_BLOCK e.finalBlockOffset room
    (bytes, { e with finalBlockOffset := e.finalBlockOffset + bytes.length })
  else ([], e)

/-- `finish_frame`: what is produced, whether that was all, and the encoder. -/
def finishFrame (e : ZstdEncoder) (room : ℕ) :
    Except ArchiveError (List Byte × Bool × ZstdEncoder) := do
  let (header, e) := { e with finishing := true }.drainFrameHeader room
  let (block, e) ← e.finishBlock (room - header.length)
  let (final, e) := e.drainFinalBlock (room - header.length - block.length)
  return (header ++ block ++ final, e.finalBlockOffset = ENCODER_FINAL_BLOCK.length, e)

/-- `Codec::process`. -/
def process : Process ZstdEncoder := fun e input room last =>
  if e.finishing then do
    if input ≠ [] then
      throw (zstdError .protocol "input supplied after Zstandard finalization started")
    if e.finalBlockOffset = ENCODER_FINAL_BLOCK.length then return (⟨0, [], .done⟩, e)
    else
      let (produced, done, e) ← e.finishFrame room
      return (⟨0, produced, if done then .done else .needOutput⟩, e)
  else do
    let (consumed, produced, e) ← e.encodeData input room
    if consumed ≠ input.length ∨ produced.length = room then
      return (⟨consumed, produced, .needOutput⟩, e)
    else if last = .more then return (⟨consumed, produced, .needInput⟩, e)
    else
      let (finished, done, e) ← e.finishFrame (room - produced.length)
      return (⟨consumed, produced ++ finished, if done then .done else .needOutput⟩, e)

end ZstdEncoder

/-- The loop of `encode_frame`; `none` while it is still going on as the rounds run out. -/
def encodeFrameLoop : ℕ → ZstdEncoder → List Byte → List Byte →
    Option (Except ArchiveError (List Byte))
  | 0, _, _, _ => none
  | rounds + 1, e, input, frame =>
    match e.process input 4096 .end with
    | .error err => some (.error err)
    | .ok (step, e) =>
      match step.validate input.length 4096 with
      | .error err => some (.error err)
      | .ok step =>
        let frame := frame ++ step.produced
        if step.status = .done then some (.ok frame)
        else if step.consumed = 0 ∧ step.produced.length = 0 then
          some (.error (zstdError .protocol "Zstandard encoder made no progress"))
        else encodeFrameLoop rounds e (input.drop step.consumed) frame

/-- `encode_frame`, followed for a number of rounds. -/
def encodeFrame (size rounds : ℕ) (input : List Byte) (limits : Limits) :
    Option (Except ArchiveError (List Byte)) :=
  match ZstdEncoder.withLimits size limits with
  | .error e => some (.error e)
  | .ok e => encodeFrameLoop rounds e input []

end LibarchiveOxide.Codecs.Zstd

/-! # The frame that the encoder writes

A frame is the header, a raw block for each kibibyte of the input, and the final block. What an
encoder still owes is known from its offsets and from the input that is left (`owed`); each function
of the encoder pays from the front of it. So the output does not depend on how the encoder is driven
(`writes_frame`). -/

namespace LibarchiveOxide.Codecs.Frames

open Core.Failure Core.Budget Core.Protocol Lib Lib.LittleEndian Lib.Blocks Lib.Driving Lib.Result
open Codecs.Calls Codecs.Zstd

/-! ### Frames -/

/-- A raw block that is not the last. -/
def rawBlock (b : List Byte) : List Byte := leBytes 3 (b.length <<< 3) ++ b

/-- The raw blocks of some bytes. -/
def body (l : List Byte) : List Byte := (blocks ENCODER_WINDOW l).flatMap rawBlock

/-- The frame of an input. -/
def frame (input : List Byte) : List Byte := ENCODER_FRAME_HEADER ++ body input ++ ENCODER_FINAL_BLOCK

theorem body_nil : body [] = [] := by
  rw [body, blocks_nil (by decide)]
  rfl

/-- A block that is complete, or the last one, comes first. -/
theorem body_append {b rest : List Byte} (hne : b ≠ []) (hle : b.length ≤ ENCODER_WINDOW)
    (h : b.length = ENCODER_WINDOW ∨ rest = []) : body (b ++ rest) = rawBlock b ++ body rest := by
  by_cases hfull : b.length = ENCODER_WINDOW
  · rw [body, blocks_append (by decide) hfull, List.flatMap_cons]
    rfl
  · obtain rfl := h.resolve_left hfull
    rw [body_nil, List.append_nil, List.append_nil, body, blocks_of_short hne (by omega)]
    exact List.append_nil _

/-! ### Draining -/

theorem drainBytes_append (bytes : List Byte) (offset room : ℕ) :
    drainBytes bytes offset room ++ bytes.drop (offset + (drainBytes bytes offset room).length) =
      bytes.drop offset := by
  rw [← List.drop_drop]
  unfold drainBytes
  rw [List.length_take]
  conv_rhs => rw [← List.take_append_drop (min room (bytes.drop offset).length) (bytes.drop offset)]
  congr 1
  exact List.take_eq_take_iff.mpr (by omega)

theorem length_drainBytes (bytes : List Byte) (offset room : ℕ) :
    (drainBytes bytes offset room).length = min room (bytes.length - offset) := by
  rw [drainBytes, List.length_take, List.length_drop]

/-- What an encoder still has to write before the final block. -/
def pending (e : ZstdEncoder) (rest : List Byte) : List Byte :=
  if e.blockReady then
    e.blockHeader.drop e.blockHeaderOffset ++ e.block.drop e.blockOutputOffset ++ body rest
  else body (e.block ++ rest)

/-- **What an encoder owes**, if this is the input that is left. -/
def owed (e : ZstdEncoder) (rest : List Byte) : List Byte :=
  ENCODER_FRAME_HEADER.drop e.frameHeaderOffset ++ pending e rest ++
    ENCODER_FINAL_BLOCK.drop e.finalBlockOffset

/-- What is still to come out of an encoder; it does not fail. -/
def future (e : ZstdEncoder) (rest : List Byte) : List Byte × Option ArchiveError :=
  (owed e rest, none)

/-- The invariant of an encoder before the rest of its input. -/
structure Inv (e : ZstdEncoder) (rest : List Byte) : Prop where
  frameHeader : e.frameHeaderOffset ≤ ENCODER_FRAME_HEADER.length
  within : e.blockReady = false → e.block.length < ENCODER_WINDOW
  ready : e.blockReady = true → e.blockHeader.length = BLOCK_HEADER ∧
    e.blockHeaderOffset ≤ BLOCK_HEADER ∧ e.blockOutputOffset < e.block.length
  final : e.finalBlockOffset ≤ ENCODER_FINAL_BLOCK.length
  after : e.finalBlockOffset ≠ 0 →
    e.frameHeaderOffset = ENCODER_FRAME_HEADER.length ∧ e.blockReady = false ∧ e.block = [] ∧
      e.finishing = true
  ending : e.finishing = true → rest = []
  counted : e.encodedInput + rest.length ≤ u64Max
  unlimited : e.limits.decodedTotal = none

/-- The encoder pays `bytes`. -/
structure Pays (e : ZstdEncoder) (rest bytes : List Byte) (e' : ZstdEncoder) (rest' : List Byte) :
    Prop where
  inv : Inv e' rest'
  owed_eq : owed e rest = bytes ++ owed e' rest'
  finishing : e'.finishing = e.finishing

variable {e e' e'' : ZstdEncoder} {rest rest' rest'' bytes bytes' : List Byte} {room : ℕ}

/-- The final block waits for the end of the input. -/
theorem Inv.finalBlockOffset_eq (h : Inv e rest) (hfin : e.finishing = false) :
    e.finalBlockOffset = 0 := by
  by_contra hno
  rw [(h.after hno).2.2.2] at hfin
  cases hfin

theorem Pays.refl (h : Inv e rest) : Pays e rest [] e rest := ⟨h, rfl, rfl⟩

theorem Pays.trans (h : Pays e rest bytes e' rest') (h' : Pays e' rest' bytes' e'' rest'') :
    Pays e rest (bytes ++ bytes') e'' rest'' where
  inv := h'.inv
  owed_eq := by rw [h.owed_eq, h'.owed_eq, List.append_assoc]
  finishing := h'.finishing.trans h.finishing

/-- The frame header is paid. -/
theorem pays_frameHeader (h : Inv e rest) (room : ℕ) :
    Pays e rest (e.drainFrameHeader room).1 (e.drainFrameHeader room).2 rest := by
  have hlen := length_drainBytes ENCODER_FRAME_HEADER e.frameHeaderOffset room
  have hoff := h.frameHeader
  refine ⟨⟨?_, h.within, h.ready, h.final, fun hf => ?_, h.ending, h.counted, h.unlimited⟩, ?_, rfl⟩
  · simp only [ZstdEncoder.drainFrameHeader]
    omega
  · obtain ⟨hout, hblock⟩ := h.after hf
    refine ⟨?_, hblock⟩
    simp only [ZstdEncoder.drainFrameHeader]
    omega
  · unfold owed
    rw [← drainBytes_append ENCODER_FRAME_HEADER e.frameHeaderOffset room]
    simp only [ZstdEncoder.drainFrameHeader, List.append_assoc]
    rfl

/-- The frame header is out, or there is no more room. -/
theorem frameHeader_out (h : Inv e rest) (room : ℕ) :
    (e.drainFrameHeader room).1.length ≤ room ∧
      ((e.drainFrameHeader room).1.length < room →
        (e.drainFrameHeader room).2.frameHeaderOffset = ENCODER_FRAME_HEADER.length) := by
  have hlen := length_drainBytes ENCODER_FRAME_HEADER e.frameHeaderOffset room
  have hoff := h.frameHeader
  simp only [ZstdEncoder.drainFrameHeader]
  omega

/-- The block is made ready. -/
theorem pays_prepareBlock (h : Inv e rest) (hready : e.blockReady = false)
    (hfinal : e.finalBlockOffset = 0)
    {b : List Byte} (hne : b ≠ []) (hle : b.length ≤ ENCODER_WINDOW)
    (hlast : b.length = ENCODER_WINDOW ∨ rest' = []) {n : ℕ} (hn : n + rest'.length ≤ u64Max)
    (hending : e.finishing = true → rest' = []) (hrest : e.block ++ rest = b ++ rest') :
    ∃ e', { e with block := b, encodedInput := n }.prepareBlock = .ok e' ∧ Pays e rest [] e' rest' ∧
      e'.blockReady = true ∧ e'.frameHeaderOffset = e.frameHeaderOffset := by
  have hb : b.length ≤ 1024 := hle
  refine ⟨_, if_neg (by unfold u32Max; dsimp only; omega), ⟨⟨h.frameHeader, nofun, fun _ => ?_,
    h.final, fun hno => absurd hfinal hno, hending, hn, h.unlimited⟩, ?_, rfl⟩, rfl, rfl⟩
  · refine ⟨by simp [BLOCK_HEADER], Nat.zero_le _, List.length_pos_of_ne_nil hne⟩
  · have hheader : (leBytes 4 ((b.length <<< 3) % 2 ^ 32)).take BLOCK_HEADER =
        leBytes 3 (b.length <<< 3) := by
      rw [Nat.mod_eq_of_lt (by rw [Nat.shiftLeft_eq]; omega)]
      simp [leBytes, BLOCK_HEADER]
    simp only [owed, pending, hready, Bool.false_eq_true, if_false, if_true, hrest, hheader,
      body_append hne hle hlast, rawBlock, List.drop_zero, List.nil_append]

/-- A block that is ready pays. -/
theorem pays_drainBlock (h : Inv e rest) (hready : e.blockReady = true) (hroom : 0 < room)
    (hheader : e.frameHeaderOffset = ENCODER_FRAME_HEADER.length) :
    Pays e rest (e.drainBlock room).1 (e.drainBlock room).2 rest ∧
      (e.drainBlock room).2.frameHeaderOffset = ENCODER_FRAME_HEADER.length ∧
      (0 < (e.drainBlock room).1.length ∧ (e.drainBlock room).1.length ≤ room) ∧
      ((e.drainBlock room).1.length < room →
        (e.drainBlock room).2.blockReady = false ∧ (e.drainBlock room).2.block = []) := by
  obtain ⟨hlen, hbho, hboo⟩ := h.ready hready
  have hbusy : e.blockReady ≠ false := by rw [hready]; decide
  have hdrain := drainBytes_append e.blockHeader e.blockHeaderOffset room
  have hdl := length_drainBytes e.blockHeader e.blockHeaderOffset room
  rw [ZstdEncoder.drainBlock]
  generalize drainBytes e.blockHeader e.blockHeaderOffset room = header at hdrain hdl ⊢
  dsimp only
  by_cases hout : e.blockHeaderOffset + header.length = e.blockHeader.length ∧ header.length < room
  · -- the header is out, and the block follows
    rw [if_pos hout]
    have hdrain' := drainBytes_append e.block e.blockOutputOffset (room - header.length)
    have hdl' := length_drainBytes e.block e.blockOutputOffset (room - header.length)
    generalize drainBytes e.block e.blockOutputOffset (room - header.length) = part at hdrain' hdl' ⊢
    have howed : owed e rest = header ++ (part ++ (e.block.drop (e.blockOutputOffset + part.length) ++
        body rest ++ ENCODER_FINAL_BLOCK.drop e.finalBlockOffset)) := by
      rw [owed, pending, if_pos hready, hheader, List.drop_length, List.nil_append, ← hdrain, ← hdrain',
        hout.1, List.drop_length]
      simp only [List.append_assoc, List.append_nil]
    by_cases hall : e.blockOutputOffset + part.length = e.block.length
    · rw [if_pos hall]
      refine ⟨⟨⟨h.frameHeader, fun _ => Nat.succ_pos _, nofun, h.final, fun hf => ⟨hheader, rfl, rfl,
        (h.after hf).2.2.2⟩, h.ending, h.counted, h.unlimited⟩, ?_, rfl⟩, hheader, ?_, fun _ => ⟨rfl, rfl⟩⟩
      · rw [howed, hall, List.drop_length]
        simp only [owed, pending, hheader, List.drop_length, Bool.false_eq_true, if_false,
          List.nil_append, List.append_assoc]
      · simp only [List.length_append]
        omega
    · rw [if_neg hall]
      refine ⟨⟨⟨h.frameHeader, fun hno => absurd hno hbusy, fun _ => ⟨hlen, ?_, ?_⟩, h.final,
        fun hf => absurd (h.after hf).2.1 hbusy, h.ending, h.counted, h.unlimited⟩, ?_, rfl⟩, hheader,
        ?_, ?_⟩
      · dsimp only
        omega
      · dsimp only
        omega
      · rw [howed]
        simp only [owed, pending, hready, hheader, hout.1, List.drop_length, if_true,
          List.nil_append, List.append_assoc]
      · simp only [List.length_append]
        omega
      · simp only [List.length_append]
        omega
  · -- there is no room for anything but the header
    rw [if_neg hout, List.length_nil, Nat.add_zero, if_neg hboo.ne, List.append_nil]
    refine ⟨⟨⟨h.frameHeader, fun hno => absurd hno hbusy, fun _ => ⟨hlen, ?_, hboo⟩, h.final,
      fun hf => absurd (h.after hf).2.1 hbusy, h.ending, h.counted, h.unlimited⟩, ?_, rfl⟩, hheader,
      ?_, ?_⟩
    · dsimp only
      omega
    · rw [owed, pending, if_pos hready, ← hdrain]
      simp only [owed, pending, hready, hheader, List.drop_length, if_true, List.nil_append,
        List.append_assoc]
    · omega
    · omega

/-! ### The input -/

/-- The loop takes what fits into the block. -/
theorem pays_fillBlock {data behind : List Byte} (h : Inv e (data ++ behind))
    (hready : e.blockReady = false) (hfin : e.finishing = false) (hdata : data ≠ []) :
    ∃ count e', e.fillBlock data = .ok (count, e') ∧ (0 < count ∧ count ≤ data.length) ∧
      Pays e (data ++ behind) [] e' (data.drop count ++ behind) ∧
      e'.frameHeaderOffset = e.frameHeaderOffset := by
  have hfinal := h.finalBlockOffset_eq hfin
  have hpos := List.length_pos_of_ne_nil hdata
  have hwithin := h.within hready
  have hcounted := h.counted
  rw [List.length_append] at hcounted
  obtain ⟨count, hcount⟩ : ∃ count, count = min (ENCODER_WINDOW - e.block.length) data.length :=
    ⟨_, rfl⟩
  have hsum : e.encodedInput + count ≤ u64Max := by omega
  have hlen : (e.block ++ data.take count).length = e.block.length + count := by
    rw [List.length_append, List.length_take]
    omega
  have hsplit : e.block ++ (data ++ behind) =
      (e.block ++ data.take count) ++ (data.drop count ++ behind) := by
    rw [List.append_assoc, ← List.append_assoc (data.take count), List.take_append_drop]
  have hn : e.encodedInput + count + (data.drop count ++ behind).length ≤ u64Max := by
    rw [List.length_append, List.length_drop]
    omega
  have hending : e.finishing = true → data.drop count ++ behind = [] := fun hno => by
    rw [hfin] at hno
    cases hno
  have hfill : e.fillBlock data = (fun e' => (count, e')) <$>
      (if (e.block ++ data.take count).length = ENCODER_WINDOW then
        { e with block := e.block ++ data.take count
                 encodedInput := e.encodedInput + count }.prepareBlock
      else .ok { e with block := e.block ++ data.take count
                        encodedInput := e.encodedInput + count }) := by
    rw [ZstdEncoder.fillBlock, ← hcount, checkedAdd_of_le hsum, h.unlimited]
    rfl
  rw [hfill]
  by_cases hfull : (e.block ++ data.take count).length = ENCODER_WINDOW
  · rw [if_pos hfull]
    have hne : e.block ++ data.take count ≠ [] := List.ne_nil_of_length_pos (by rw [hfull]; decide)
    obtain ⟨e', hprep, hpays, -, hoff⟩ := pays_prepareBlock h hready hfinal hne hfull.le (.inl hfull)
      hn hending hsplit
    exact ⟨count, e', by rw [hprep]; rfl, by omega, hpays, hoff⟩
  · rw [if_neg hfull]
    refine ⟨count, _, rfl, by omega, ⟨⟨h.frameHeader, fun _ => ?_, fun hno => ?_, h.final, fun hno => ?_,
      hending, hn, h.unlimited⟩, ?_, rfl⟩, rfl⟩
    · dsimp only
      omega
    · rw [hready] at hno
      cases hno
    · exact absurd hfinal hno
    · simp only [owed, pending, hready, Bool.false_eq_true, if_false, List.nil_append, hsplit]

/-- **The loop of `encode_data`** gets to the end of the input or to the end of the room. -/
theorem pays_encodeLoop : ∀ (rounds : ℕ) {e : ZstdEncoder} {data behind : List Byte} (room : ℕ),
    room + data.length ≤ rounds → Inv e (data ++ behind) → e.finishing = false →
    (0 < room → e.frameHeaderOffset = ENCODER_FRAME_HEADER.length) →
    ∃ consumed produced e', ZstdEncoder.encodeLoop rounds e data room = .ok (consumed, produced, e') ∧
      Pays e (data ++ behind) produced e' (data.drop consumed ++ behind) ∧
      (consumed ≤ data.length ∧ produced.length ≤ room) ∧
      (produced.length = room ∨ consumed = data.length) ∧
      (produced.length < room → e'.frameHeaderOffset = ENCODER_FRAME_HEADER.length)
  | 0, e, data, behind, room, hle, h, hfin, hheader =>
    ⟨0, [], e, rfl, .refl h, ⟨Nat.zero_le _, Nat.zero_le _⟩, .inl (by rw [List.length_nil]; omega),
      fun hlt => hheader (by rw [List.length_nil] at hlt; exact hlt)⟩
  | rounds + 1, e, data, behind, room, hle, h, hfin, hheader => by
    rw [ZstdEncoder.encodeLoop]
    by_cases hgo : 0 < room ∧ data ≠ []
    · obtain ⟨hroom, hdata⟩ := hgo
      rw [if_pos ⟨hroom, hdata⟩]
      have hheader := hheader hroom
      by_cases hready : e.blockReady = true
      · obtain ⟨hpays, hheader', ⟨hpos, hle'⟩, -⟩ := pays_drainBlock h hready hroom hheader
        rw [if_pos hready]
        generalize e.drainBlock room = drained at hpays hheader' hpos hle'
        obtain ⟨bytes, e₁⟩ := drained
        dsimp only at hpays hheader' hpos hle'
        obtain ⟨c, p, e₂, hrun, hpays', ⟨hc, hp⟩, hexit, hout⟩ := pays_encodeLoop rounds
          (room - bytes.length) (by omega) hpays.inv (hpays.finishing.trans hfin)
          (fun _ => hheader')
        refine ⟨c, bytes ++ p, e₂, by simp only [hrun]; rfl, hpays.trans hpays', ?_, ?_, ?_⟩ <;>
          rw [List.length_append] <;> omega
      · rw [if_neg hready]
        obtain ⟨count, e₁, hfill, ⟨hpos, hle'⟩, hpays, hoff⟩ :=
          pays_fillBlock h (by simpa using hready) hfin hdata
        obtain ⟨c, p, e₂, hrun, hpays', ⟨hc, hp⟩, hexit, hout⟩ := pays_encodeLoop rounds room
          (by rw [List.length_drop]; omega) hpays.inv (hpays.finishing.trans hfin)
          (fun _ => hoff.trans hheader)
        rw [List.drop_drop] at hpays'
        rw [List.length_drop] at hc hexit
        refine ⟨count + c, p, e₂, by simp only [hfill, ok_bind, hrun]; rfl, hpays.trans hpays', ?_, ?_,
          hout⟩ <;> omega
    · rw [if_neg hgo]
      refine ⟨0, [], e, rfl, .refl h, ⟨Nat.zero_le _, Nat.zero_le _⟩, ?_,
        fun hlt => hheader (by rw [List.length_nil] at hlt; exact hlt)⟩
      by_cases hroom : 0 < room
      · right
        rw [List.length_eq_zero_iff.mpr (by simpa [hroom] using hgo)]
      · left
        rw [List.length_nil]
        omega

/-- **`encode_data` pays**, and stops only for want of input or of room. -/
theorem pays_encodeData {data behind : List Byte} (h : Inv e (data ++ behind))
    (hfin : e.finishing = false) (room : ℕ) :
    ∃ consumed produced e', e.encodeData data room = .ok (consumed, produced, e') ∧
      Pays e (data ++ behind) produced e' (data.drop consumed ++ behind) ∧
      (consumed ≤ data.length ∧ produced.length ≤ room) ∧
      (produced.length = room ∨ consumed = data.length) := by
  have hpays := pays_frameHeader h room
  obtain ⟨hle, hout⟩ := frameHeader_out h room
  rw [ZstdEncoder.encodeData, hfin]
  generalize e.drainFrameHeader room = drained at hpays hle hout
  obtain ⟨header, e₁⟩ := drained
  dsimp only at hpays hle hout
  obtain ⟨c, p, e₂, hrun, hpays', ⟨hc, hp⟩, hexit, -⟩ := pays_encodeLoop
    (room + data.length) (room - header.length) (by omega) hpays.inv
    (hpays.finishing.trans hfin) (fun hlt => hout (by omega))
  refine ⟨c, header ++ p, e₂, by simp only [hrun]; rfl, hpays.trans hpays', ?_, ?_⟩ <;>
    rw [List.length_append] <;> omega

/-! ### The end -/

/-- The block that is left is paid. -/
theorem pays_finishBlock (h : Inv e []) (room : ℕ)
    (hheader : 0 < room → e.frameHeaderOffset = ENCODER_FRAME_HEADER.length) :
    ∃ bytes e', e.finishBlock room = .ok (bytes, e') ∧ Pays e [] bytes e' [] ∧ bytes.length ≤ room ∧
      (bytes.length < room → e'.frameHeaderOffset = ENCODER_FRAME_HEADER.length ∧
        e'.blockReady = false ∧ e'.block = []) := by
  unfold ZstdEncoder.finishBlock
  by_cases hroom : 0 < room
  · have hheader := hheader hroom
    rw [if_pos ⟨hheader, hroom⟩]
    -- the block is ready, is made ready, or there is none
    by_cases hready : e.blockReady = true
    · obtain ⟨hpays, hheader', ⟨-, hle⟩, hout⟩ := pays_drainBlock h hready hroom hheader
      refine ⟨_, _, ?_, hpays, hle, fun hlt => ⟨hheader', hout hlt⟩⟩
      simp [hready]
    · have hready' : e.blockReady = false := by simpa using hready
      by_cases hne : e.block = []
      · refine ⟨[], e, by simp [hready', hne], .refl h, Nat.zero_le _,
          fun _ => ⟨hheader, hready', hne⟩⟩
      · have hfinal : e.finalBlockOffset = 0 := by
          by_contra hno
          exact hne (h.after hno).2.2.1
        obtain ⟨e₁, hprep, hpays, hready₁, hoff⟩ := pays_prepareBlock (n := e.encodedInput) h hready'
          hfinal hne (h.within hready').le (.inr rfl) h.counted (fun _ => rfl) rfl
        obtain ⟨hpays', hheader', ⟨-, hle⟩, hout⟩ :=
          pays_drainBlock hpays.inv hready₁ hroom (hoff.trans hheader)
        refine ⟨_, _, ?_, hpays.trans hpays', hle, fun hlt => ⟨hheader', hout hlt⟩⟩
        have hprep : e.prepareBlock = .ok e₁ := hprep
        simp [hready', hne, hprep, hready₁]
  · rw [if_neg (by omega)]
    exact ⟨[], e, rfl, .refl h, Nat.zero_le _, fun hlt => by rw [List.length_nil] at hlt; omega⟩

/-- The final block is paid. -/
theorem pays_drainFinalBlock (h : Inv e []) (hfin : e.finishing = true) (room : ℕ)
    (hout : 0 < room → e.frameHeaderOffset = ENCODER_FRAME_HEADER.length ∧ e.blockReady = false ∧
      e.block = []) :
    Pays e [] (e.drainFinalBlock room).1 (e.drainFinalBlock room).2 [] ∧
      (e.drainFinalBlock room).1.length ≤ room ∧
      ((e.drainFinalBlock room).1.length < room →
        (e.drainFinalBlock room).2.finalBlockOffset = ENCODER_FINAL_BLOCK.length) := by
  unfold ZstdEncoder.drainFinalBlock
  by_cases hroom : 0 < room
  · obtain ⟨hheader, hready, hblock⟩ := hout hroom
    rw [if_pos ⟨hheader, by rw [hready]; rfl, hblock, hroom⟩]
    have hlen := length_drainBytes ENCODER_FINAL_BLOCK e.finalBlockOffset room
    have hfinal := h.final
    refine ⟨⟨⟨h.frameHeader, h.within, h.ready, ?_, fun _ => ⟨hheader, hready, hblock, hfin⟩, h.ending,
      h.counted, h.unlimited⟩, ?_, rfl⟩, ?_, ?_⟩
    · dsimp only
      omega
    · simp only [owed, pending, hready, hblock, hheader, List.drop_length, Bool.false_eq_true, if_false,
        List.nil_append, body_nil]
      rw [drainBytes_append]
    · dsimp only
      omega
    · dsimp only
      omega
  · rw [if_neg (by tauto)]
    exact ⟨.refl h, Nat.zero_le _, fun hlt => by simp only [List.length_nil] at hlt; omega⟩

/-- **`finish_frame` pays**, and is done if there is room left. -/
theorem pays_finishFrame (h : Inv e []) (room : ℕ) :
    ∃ produced done e', e.finishFrame room = .ok (produced, done, e') ∧
      owed e [] = produced ++ owed e' [] ∧ Inv e' [] ∧ e'.finishing = true ∧ produced.length ≤ room ∧
      (done = true ↔ e'.finalBlockOffset = ENCODER_FINAL_BLOCK.length) ∧
      (produced.length < room → done = true) := by
  have hstart : Inv { e with finishing := true } [] :=
    ⟨h.frameHeader, h.within, h.ready, h.final, fun hf => by
      obtain ⟨h1, h2, h3, -⟩ := h.after hf
      exact ⟨h1, h2, h3, rfl⟩, fun _ => rfl, h.counted, h.unlimited⟩
  have hpays := pays_frameHeader hstart room
  obtain ⟨hle, hout⟩ := frameHeader_out hstart room
  unfold ZstdEncoder.finishFrame
  generalize ZstdEncoder.drainFrameHeader { e with finishing := true } room = drained
    at hpays hle hout
  obtain ⟨header, e₁⟩ := drained
  dsimp only at hpays hle hout
  obtain ⟨block, e₂, hblock, hpays₂, hle₂, hout₂⟩ := pays_finishBlock hpays.inv
    (room - header.length) (fun hlt => hout (by omega))
  have hfin₂ := hpays₂.finishing.trans hpays.finishing
  obtain ⟨hpays₃, hle₃, hout₃⟩ := pays_drainFinalBlock hpays₂.inv hfin₂
    (room - header.length - block.length) (fun hlt => hout₂ (by omega))
  simp only [hblock, ok_bind]
  generalize e₂.drainFinalBlock (room - header.length - block.length) = drained
    at hpays₃ hle₃ hout₃
  obtain ⟨final, e₃⟩ := drained
  dsimp only at hle₃ hout₃
  refine ⟨_, _, _, rfl, ?_, hpays₃.inv, hpays₃.finishing.trans hfin₂, ?_, by simp, fun hlt => ?_⟩
  · have := ((hpays.trans hpays₂).trans hpays₃).owed_eq
    exact this
  · simp only [List.length_append]
    omega
  · simp only [List.length_append] at hlt
    exact decide_eq_true (hout₃ (by omega))

/-! ### Runs -/

/-- An encoder whose final block is out owes nothing. -/
theorem future_done (h : Inv e []) (hf : e.finalBlockOffset = ENCODER_FINAL_BLOCK.length) :
    future e [] = ([], none) := by
  obtain ⟨hheader, hready, hblock, -⟩ := h.after (by rw [hf]; decide)
  simp only [future, owed, pending, hheader, hready, hblock, hf, List.drop_length, Bool.false_eq_true,
    if_false, List.nil_append, body_nil]

theorem future_of_owed (h : owed e rest = bytes ++ owed e' rest') :
    future e rest = (bytes ++ (future e' rest').1, (future e' rest').2) :=
  Prod.ext h rfl

/-- **Every step succeeds** and pays. -/
theorem process_steps {piece behind : List Byte} {last : EndOfInput}
    (h : Inv e (piece ++ behind)) (room : ℕ) (hlast : last = .end → behind = []) :
    ∃ s e', e.process piece room last = .ok (s, e') ∧
      Steps Inv future e piece behind room last s e' := by
  unfold ZstdEncoder.process
  by_cases hfin : e.finishing = true
  · -- the frame is being finished
    have hnil := h.ending hfin
    obtain ⟨rfl, rfl⟩ := List.append_eq_nil_iff.mp hnil
    rw [if_pos hfin]
    by_cases hf : e.finalBlockOffset = ENCODER_FINAL_BLOCK.length
    · refine ⟨⟨0, [], .done⟩, e, by simp only [ne_eq, not_true, if_false, if_pos hf]; rfl,
        ⟨by simp, h, rfl, fun _ => ⟨rfl, future_done h hf⟩, fun _ hno => absurd rfl hno⟩⟩
    · obtain ⟨p, done, e', hrun, howed, hinv, -, hle, hdone, hroom⟩ := pays_finishFrame h room
      refine ⟨⟨0, p, if done then .done else .needOutput⟩, e',
        by simp only [ne_eq, not_true, if_false, if_neg hf, hrun]; rfl, ⟨⟨Nat.zero_le _, hle⟩, hinv, future_of_owed howed, fun hs => ⟨rfl, ?_⟩, fun hpos hs _ hp => ?_⟩⟩
      · cases done with
        | true => exact future_done hinv (hdone.mp rfl)
        | false => cases hs
      · dsimp only at hp
        rw [hp, List.length_nil] at hroom
        rw [hroom hpos] at hs
        exact absurd rfl hs
  · rw [if_neg hfin]
    obtain ⟨c, p, e₁, hrun, hpays, ⟨hc, hp⟩, hexit⟩ := pays_encodeData h (by simpa using hfin) room
    simp only [hrun, ok_bind]
    by_cases hout : c ≠ piece.length ∨ p.length = room
    · rw [if_pos hout]
      refine ⟨_, e₁, rfl, ⟨⟨hc, hp⟩, hpays.inv, future_of_owed hpays.owed_eq, nofun, fun hpos _ hc0 hp0 => ?_⟩⟩
      dsimp only at hc0 hp0
      rw [hp0, List.length_nil] at hout hexit
      omega
    · rw [if_neg hout]
      push Not at hout
      obtain ⟨hall, -⟩ := hout
      by_cases hmore : last = .more
      · rw [if_pos hmore]
        refine ⟨_, e₁, rfl, ⟨⟨hc, hp⟩, hpays.inv, future_of_owed hpays.owed_eq, nofun, fun _ _ hc0 _ => ?_⟩⟩
        dsimp only at hc0
        exact ⟨List.length_eq_zero_iff.mp (hall.symm.trans hc0), hmore⟩
      · rw [if_neg hmore]
        obtain rfl := hlast (by cases last with
          | more => exact absurd rfl hmore
          | «end» => rfl)
        have hdrop : piece.drop c ++ [] = [] := by
          rw [hall, List.drop_length, List.append_nil]
        have hinv := hpays.inv
        have howed := hpays.owed_eq
        rw [hdrop] at hinv howed
        obtain ⟨f, done, e', hfinish, howed', hinv', -, hle, hdone, hroom⟩ :=
          pays_finishFrame hinv (room - p.length)
        refine ⟨⟨c, p ++ f, if done then .done else .needOutput⟩, e', by simp only [hfinish]; rfl,
          ⟨⟨hc, ?_⟩, ?_, ?_, fun hs => ⟨hdrop, ?_⟩, fun hpos hs _ hp0 => ?_⟩⟩
        · simp only [List.length_append]
          omega
        · rw [hdrop]
          exact hinv'
        · refine future_of_owed ?_
          rw [hdrop, howed, howed', List.append_assoc]
        · cases done with
          | true => exact future_done hinv' (hdone.mp rfl)
          | false => cases hs
        · obtain ⟨hp0, hf0⟩ := List.append_eq_nil_iff.mp hp0
          rw [hp0, hf0, List.length_nil] at hroom
          rw [hroom hpos] at hs
          exact absurd rfl hs

/-- **The encoder keeps to what it owes.** -/
theorem keeps_owed : Keeps (call ZstdEncoder.process) Inv future :=
  keeps_of_steps fun room hinv hlast => .inl (process_steps hinv room hlast)

/-- A fresh encoder owes the frame of its input. -/
theorem inv_start {input : List Byte} (hlen : input.length ≤ u64Max) :
    Inv { limits := .unlimited } input :=
  ⟨by decide, fun _ => by decide, nofun, by decide, fun hf => absurd rfl hf, nofun,
    by rw [Nat.zero_add]; exact hlen, rfl⟩

theorem owed_start (input : List Byte) : owed { limits := .unlimited } input = frame input := rfl

/-- **The loop of `encode_frame`** has no other result than the frame, and comes to it. -/
theorem encodeFrameLoop_owed : ∀ (rounds : ℕ) {e : ZstdEncoder} {input : List Byte} (acc : List Byte),
    Inv e input →
    (∀ r, encodeFrameLoop rounds e input acc = some r → r = .ok (acc ++ owed e input)) ∧
      (input.length + (owed e input).length < rounds →
        (encodeFrameLoop rounds e input acc).isSome)
  | 0, e, input, acc, h => ⟨nofun, fun hlt => absurd hlt (Nat.not_lt_zero _)⟩
  | rounds + 1, e, input, acc, h => by
    have hin : Inv e (input ++ []) := by rwa [List.append_nil]
    obtain ⟨s, e', hrun, hs⟩ := process_steps hin 4096 (fun (_ : EndOfInput.end = .end) => rfl)
    obtain ⟨hc, hp⟩ := hs.bounds
    have hinv := hs.inv
    have howed := congrArg Prod.fst hs.future_eq
    rw [List.append_nil] at hinv howed
    rw [List.append_nil] at howed
    change owed e input = s.produced ++ owed e' (input.drop s.consumed) at howed
    have hmoves : s.status ≠ .done → ¬ (s.consumed = 0 ∧ s.produced.length = 0) := by
      rintro hno ⟨h0, h1⟩
      obtain ⟨-, hmore⟩ := hs.moves (by decide) hno h0 (List.length_eq_zero_iff.mp h1)
      cases hmore
    have hvalid : s.validate input.length 4096 = .ok s := by
      rw [CodecStep.validate, if_neg, if_neg]
      · intro hstuck
        simp only [Bool.and_eq_true, beq_iff_eq, bne_iff_ne] at hstuck
        exact hmoves hstuck.2 ⟨hstuck.1.1.1.1, hstuck.1.1.1.2⟩
      · simp only [Bool.or_eq_true, decide_eq_true_eq]
        omega
    rw [encodeFrameLoop, hrun]
    dsimp only
    rw [hvalid]
    dsimp only
    by_cases hdone : s.status = .done
    · rw [if_pos hdone]
      obtain ⟨hnil, hfuture⟩ := hs.finished hdone
      have howed' : owed e' [] = [] := congrArg Prod.fst hfuture
      rw [List.append_nil] at hnil
      rw [hnil, howed', List.append_nil] at howed
      refine ⟨fun r hr => ?_, fun _ => rfl⟩
      cases hr
      rw [howed]
    · have hgo := hmoves hdone
      rw [if_neg hdone, if_neg hgo]
      obtain ⟨hall, hsome⟩ := encodeFrameLoop_owed rounds (acc ++ s.produced) hinv
      refine ⟨fun r hr => ?_, fun hlt => hsome ?_⟩
      · rw [hall r hr, howed, List.append_assoc]
      · rw [howed, List.length_append] at hlt
        rw [List.length_drop]
        omega

/-- **The encoder writes the frame of its input**, however it is driven, and so does
`encode_frame`. -/
theorem writes_frame {input : List Byte} {calls : ℕ → Call} (size : ℕ) (hlen : input.length ≤ u64Max)
    (hfair : Fair calls) :
    ∃ e, ZstdEncoder.withLimits size .unlimited = .ok e ∧
      (∃ n, drive (call ZstdEncoder.process) calls e input n = .done [] (frame input)) ∧
      (∃ rounds, encodeFrame size rounds input .unlimited = some (.ok (frame input))) ∧
      ∀ rounds r, encodeFrame size rounds input .unlimited = some r → r = .ok (frame input) := by
  have hinv := inv_start hlen
  have hall : ∀ rounds r, encodeFrame size rounds input .unlimited = some r → r = .ok (frame input) :=
    fun rounds r hr => by
      have := (encodeFrameLoop_owed rounds [] hinv).1 r hr
      rwa [List.nil_append, owed_start] at this
  refine ⟨_, rfl, ?_, ?_, hall⟩
  · obtain ⟨n, ⟨out, hd, hout⟩ | ⟨err, out, -, herr, -⟩⟩ := keeps_owed.outcome hfair hinv
    · refine ⟨n, ?_⟩
      rw [hd, ← owed_start, (Prod.mk.inj hout).1]
    · cases herr
  · obtain ⟨r, hr⟩ := Option.isSome_iff_exists.mp
      ((encodeFrameLoop_owed _ [] hinv).2 (Nat.lt_succ_self _))
    have hloop : ∀ rounds, encodeFrame size rounds input .unlimited =
        encodeFrameLoop rounds { limits := .unlimited } input [] := fun _ => rfl
    refine ⟨_, (hloop _).trans (hr.trans ?_)⟩
    rw [hall _ r ((hloop _).trans hr)]

theorem writes_frame_hello : ∃ e, ZstdEncoder.withLimits 1200 .unlimited = .ok e ∧
    (∃ n, drive (call ZstdEncoder.process) (fun _ => ⟨1, 1, true⟩) e (bstr "hello") n =
      .done [] (frame (bstr "hello"))) ∧
    (∃ rounds, encodeFrame 1200 rounds (bstr "hello") .unlimited =
      some (.ok (frame (bstr "hello")))) ∧
    ∀ rounds r, encodeFrame 1200 rounds (bstr "hello") .unlimited = some r →
      r = .ok (frame (bstr "hello")) :=
  writes_frame 1200 (by decide) (fair_constant (by decide) (by decide) rfl)

end LibarchiveOxide.Codecs.Frames
