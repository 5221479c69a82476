import LibarchiveOxide.Lib.Requests
import LibarchiveOxide.Lib.Result
import LibarchiveOxide.Stream.Event

/-! # Partitions of a UDF volume

A partition maps its logical blocks to places of the image in one of four ways. A byte range of it is
translated into extents of the image by a loop of its own for each of them, except that a physical
partition has just one extent. -/

namespace LibarchiveOxide.Udf.Partitions

open Core.Failure Lib.Requests Lib.Result Stream.Event Stream.Image

/-- `udf_error`. -/
def udfError (kind : ErrorKind) (context : String) : StreamError :=
  .archive (ArchiveError.inFormat "udf" kind context)

/-- `BLOCK_SIZE`. -/
def blockSize : ℕ := 2048

/-- `u32::MAX`. -/
def u32Max : ℕ := 2 ^ 32 - 1

/-- `u32::checked_add`. -/
def checkedAdd32 (a b : ℕ) : Option ℕ := if a + b ≤ u32Max then some (a + b) else none

/-- `u64::div_ceil(BLOCK_SIZE)`. -/
def blocksOf (length : ℕ) : ℕ := (length + (blockSize - 1)) / blockSize

/-- `UdfExtent`: a run of payload bytes, from the image or of zeros. -/
structure UdfExtent where
  sourceOffset : Option ℕ
  length : ℕ
  logicalBlock : ℕ
deriving DecidableEq

/-- `MetadataFileExtent`. -/
structure MetadataFileExtent where
  logicalOffset : ℕ
  length : ℕ
  sourceOffset : Option ℕ
deriving DecidableEq

/-- The extents follow one another from an offset on, and lie on block boundaries. -/
def Consecutive : ℕ → List MetadataFileExtent → Prop
  | _, [] => True
  | offset, e :: es => e.logicalOffset = offset ∧ blockSize ∣ e.length ∧
      (∀ source, e.sourceOffset = some source → blockSize ∣ source) ∧
      Consecutive (offset + e.length) es

/-- `MetadataFile`, whose extents cover it from its start. -/
structure MetadataFile where
  blocks : UInt32
  extents : List MetadataFileExtent
  consecutive : Consecutive 0 extents

/-- `MetadataPartition`. -/
structure MetadataPartition where
  primary : MetadataFile
  mirror : Option MetadataFile
  usingMirror : Bool

/-- `VirtualPartition`. -/
structure VirtualPartition where
  physicalStart : UInt32
  entries : List (Option UInt32)
deriving DecidableEq

/-- `SparablePartition`; the map of packets is the list of its pairs, and packets are not empty. -/
structure SparablePartition where
  physicalStart : UInt32
  packetBlocks : UInt32
  mappedPackets : List (UInt32 × UInt32)
  packetBlocks_pos : 0 < packetBlocks.toNat

/-- `PartitionMapping`. -/
inductive PartitionMapping where
  | physical (start : UInt32)
  | metadata (m : MetadataPartition)
  | sparable (s : SparablePartition)
  | virtual (v : VirtualPartition)

/-- `Partition`. -/
structure Partition where
  blocks : UInt32
  mapping : PartitionMapping

/-- `mapped_packets.get`. -/
def SparablePartition.mapped (s : SparablePartition) (packet : ℕ) : Option ℕ :=
  (s.mappedPackets.find? fun e => e.1.toNat == packet).map fun e => e.2.toNat

/-- `validate_partition_extent`. -/
def validatePartitionExtent (partition : Partition) (logicalBlock length : ℕ) :
    Except StreamError Unit :=
  match checkedAdd logicalBlock (blocksOf length) with
  | none => .error (udfError .malformed "UDF data extent is outside its partition")
  | some stop =>
    if partition.blocks.toNat < stop then
      .error (udfError .malformed "UDF data extent is outside its partition")
    else .ok ()

variable (imageLength : ℕ)

/-- `physical_partition_extent`. -/
def physicalPartitionExtent (start logicalBlock length : ℕ) :
    Except StreamError (List UdfExtent) := do
  let physicalBlock ← okOr (checkedAdd start logicalBlock)
    (udfError .malformed "UDF data block overflow")
  let offset ← okOr (checkedMul physicalBlock blockSize)
    (udfError .malformed "UDF data offset overflow")
  match checkedAdd offset length with
  | none => .error (udfError .malformed "UDF data extent is outside the image")
  | some stop =>
    if imageLength < stop then
      .error (udfError .malformed "UDF data extent is outside the image")
    else .ok [⟨some offset, length, logicalBlock⟩]

/-- The physical block of `current_block` in `sparable_partition_extents`. -/
def SparablePartition.physicalBlock (s : SparablePartition)
    (packetStart packetOffset currentBlock : ℕ) : Except StreamError ℕ :=
  match s.mapped packetStart with
  | some mapped => okOr (checkedAdd mapped packetOffset)
      (udfError .malformed "UDF sparable replacement block overflow")
  | none => okOr (checkedAdd s.physicalStart.toNat currentBlock)
      (udfError .malformed "UDF sparable physical block overflow")

/-- A round of the loop of `sparable_partition_extents`: an extent that stays in one packet, and the
block after it. -/
def sparableRound (s : SparablePartition) (currentBlock remaining : ℕ) :
    Except StreamError (UdfExtent × ℕ) := do
  let packetOffset := currentBlock % s.packetBlocks.toNat
  let packetStart := currentBlock - packetOffset
  let blocksLeft := s.packetBlocks.toNat - packetOffset
  let packetLength ← okOr (checkedMul blocksLeft blockSize)
    (udfError .malformed "UDF sparable packet length overflow")
  let count := min remaining packetLength
  let physicalBlock ← s.physicalBlock packetStart packetOffset currentBlock
  let sourceOffset ← okOr (checkedMul physicalBlock blockSize)
    (udfError .malformed "UDF sparable source offset overflow")
  let stop ← okOr (checkedAdd sourceOffset count)
    (udfError .malformed "UDF sparable mapping is outside the image")
  if imageLength < stop then
    throw (udfError .malformed "UDF sparable mapping is outside the image")
  let next ← okOr (checkedAdd32 currentBlock (blocksOf count))
    (udfError .malformed "UDF sparable block request overflows")
  .ok (⟨some sourceOffset, count, currentBlock⟩, next)

/-- A round of the loop of `virtual_partition_extents`: one block, and the block after it. -/
def virtualRound (v : VirtualPartition) (currentBlock remaining : ℕ) :
    Except StreamError (UdfExtent × ℕ) := do
  let mapped ← okOr (v.entries[currentBlock]?).join
    (udfError .malformed "referenced UDF virtual block is unallocated")
  let physicalBlock ← okOr (checkedAdd v.physicalStart.toNat mapped.toNat)
    (udfError .malformed "UDF virtual block mapping overflows")
  let sourceOffset ← okOr (checkedMul physicalBlock blockSize)
    (udfError .malformed "UDF virtual block offset overflows")
  let stop ← okOr (checkedAdd sourceOffset blockSize)
    (udfError .malformed "UDF virtual block mapping is outside the image")
  if imageLength < stop then
    throw (udfError .malformed "UDF virtual block mapping is outside the image")
  let next ← okOr (checkedAdd32 currentBlock 1)
    (udfError .malformed "UDF virtual block request overflows")
  .ok (⟨some sourceOffset, min remaining blockSize, currentBlock⟩, next)

/-- The file in use of a metadata partition. -/
def MetadataPartition.file (m : MetadataPartition) : Except StreamError MetadataFile :=
  if m.usingMirror then
    okOr m.mirror (udfError .malformed "UDF Metadata Partition mirror is unavailable")
  else .ok m.primary

/-- The extent holds the byte at `offset`; the end of the extent saturates. -/
def MetadataFileExtent.holds (e : MetadataFileExtent) (offset : ℕ) : Bool :=
  decide (e.logicalOffset ≤ offset ∧ offset < min (e.logicalOffset + e.length) u64Max)

/-- Where the byte at `within` of an extent of a metadata file is. -/
def MetadataFileExtent.sourceAt (e : MetadataFileExtent) (within : ℕ) :
    Except StreamError (Option ℕ) :=
  match e.sourceOffset with
  | none => .ok none
  | some source =>
    match checkedAdd source within with
    | none => .error (udfError .malformed "UDF Metadata Partition source offset overflow")
    | some offset => .ok (some offset)

/-- A round of the loop of `metadata_partition_extents`: the rest of an extent of the file, and the
offset after it. -/
def metadataRound (file : MetadataFile) (requestedOffset remaining : ℕ) :
    Except StreamError (UdfExtent × ℕ) := do
  let mapping ← okOr (file.extents.find? (·.holds requestedOffset))
    (udfError .malformed "UDF Metadata Partition block has no file allocation")
  let within := requestedOffset - mapping.logicalOffset
  let count := min remaining (mapping.length - within)
  let blockDelta := requestedOffset / blockSize
  if u32Max < blockDelta then
    throw (udfError .malformed "UDF Metadata Partition logical block exceeds address space")
  let sourceOffset ← mapping.sourceAt within
  let next ← okOr (checkedAdd requestedOffset count)
    (udfError .malformed "UDF Metadata Partition request overflow")
  .ok (⟨sourceOffset, count, blockDelta⟩, next)

/-- `metadata_partition_extents`. -/
def metadataPartitionExtents (fuel : ℕ) (m : MetadataPartition) (logicalBlock length : ℕ) :
    Option (Except StreamError (List UdfExtent)) :=
  match m.file with
  | .error e => some (.error e)
  | .ok file =>
    match checkedMul logicalBlock blockSize with
    | none => some (.error (udfError .malformed "UDF Metadata Partition offset overflow"))
    | some requestedOffset =>
      serve (metadataRound file) UdfExtent.length fuel requestedOffset length

/-- `partition_extents`, with the number of rounds its loops may take; `none` when they need more. -/
def partitionExtentsIn (fuel : ℕ) (partition : Partition) (logicalBlock length : ℕ) :
    Option (Except StreamError (List UdfExtent)) :=
  match validatePartitionExtent partition logicalBlock length with
  | .error e => some (.error e)
  | .ok () =>
    match partition.mapping with
    | .physical start => some (physicalPartitionExtent imageLength start.toNat logicalBlock length)
    | .metadata m => metadataPartitionExtents fuel m logicalBlock length
    | .sparable s => serve (sparableRound imageLength s) UdfExtent.length fuel logicalBlock length
    | .virtual v => serve (virtualRound imageLength v) UdfExtent.length fuel logicalBlock length

/-! ### The loops end -/

variable {x : UdfExtent × ℕ}

variable {imageLength} {partition : Partition} {logicalBlock length : ℕ}

theorem sparableRound_length {s : SparablePartition} {k n : ℕ}
    (h : sparableRound imageLength s k n = .ok x) :
    x.1.length = min n ((s.packetBlocks.toNat - k % s.packetBlocks.toNat) * blockSize) := by
  unfold sparableRound at h
  obtain ⟨packetLength, hpacket, h⟩ := bind_eq_ok.mp h
  obtain ⟨block, -, h⟩ := bind_eq_ok.mp h
  obtain ⟨offset, -, h⟩ := bind_eq_ok.mp h
  obtain ⟨stop, -, h⟩ := bind_eq_ok.mp h
  obtain ⟨-, h⟩ := guard_eq_ok.mp h
  obtain ⟨next, -, h⟩ := bind_eq_ok.mp h
  cases h
  obtain ⟨rfl, -⟩ := checkedMul_eq_some.mp (okOr_eq_ok.mp hpacket)
  rfl

theorem virtualRound_length {v : VirtualPartition} {k n : ℕ}
    (h : virtualRound imageLength v k n = .ok x) : x.1.length = min n blockSize := by
  unfold virtualRound at h
  obtain ⟨mapped, -, h⟩ := bind_eq_ok.mp h
  obtain ⟨block, -, h⟩ := bind_eq_ok.mp h
  obtain ⟨offset, -, h⟩ := bind_eq_ok.mp h
  obtain ⟨stop, -, h⟩ := bind_eq_ok.mp h
  obtain ⟨-, h⟩ := guard_eq_ok.mp h
  obtain ⟨next, -, h⟩ := bind_eq_ok.mp h
  cases h
  rfl

theorem metadataRound_length {file : MetadataFile} {offset n : ℕ}
    (h : metadataRound file offset n = .ok x) :
    ∃ e, file.extents.find? (·.holds offset) = some e ∧ e.holds offset = true ∧
      x.1.length = min n (e.length - (offset - e.logicalOffset)) := by
  unfold metadataRound at h
  obtain ⟨e, hfind, h⟩ := bind_eq_ok.mp h
  obtain ⟨-, h⟩ := guard_eq_ok.mp h
  obtain ⟨source, -, h⟩ := bind_eq_ok.mp h
  obtain ⟨next, -, h⟩ := bind_eq_ok.mp h
  cases h
  have hfind := okOr_eq_ok.mp hfind
  exact ⟨e, hfind, List.find?_some (p := fun e => MetadataFileExtent.holds e offset) hfind, rfl⟩

theorem sparableRound_pos {s : SparablePartition} (k n : ℕ) (x : UdfExtent × ℕ) (hn : 0 < n)
    (h : sparableRound imageLength s k n = .ok x) : 0 < x.1.length := by
  have hlt := Nat.mod_lt k s.packetBlocks_pos
  rw [sparableRound_length h]
  unfold blockSize
  omega

theorem virtualRound_pos {v : VirtualPartition} (k n : ℕ) (x : UdfExtent × ℕ) (hn : 0 < n)
    (h : virtualRound imageLength v k n = .ok x) : 0 < x.1.length := by
  rw [virtualRound_length h]
  unfold blockSize
  omega

theorem metadataRound_pos {file : MetadataFile} (offset n : ℕ) (x : UdfExtent × ℕ) (hn : 0 < n)
    (h : metadataRound file offset n = .ok x) : 0 < x.1.length := by
  obtain ⟨e, -, hholds, hlength⟩ := metadataRound_length h
  unfold MetadataFileExtent.holds at hholds
  rw [decide_eq_true_eq] at hholds
  omega

/-- **The loop of each kind of partition ends**, within as many rounds as bytes are asked for. -/
theorem partitionExtentsIn_isSome {fuel : ℕ} (h : length ≤ fuel) :
    (partitionExtentsIn imageLength fuel partition logicalBlock length).isSome := by
  unfold partitionExtentsIn
  cases validatePartitionExtent partition logicalBlock length with
  | error e => rfl
  | ok _ =>
    cases partition.mapping with
    | physical start => rfl
    | sparable s =>
      dsimp only
      exact serve_isSome sparableRound_pos h
    | virtual v =>
      dsimp only
      exact serve_isSome virtualRound_pos h
    | metadata m =>
      dsimp only
      unfold metadataPartitionExtents
      cases m.file with
      | error e => rfl
      | ok file =>
        cases checkedMul logicalBlock blockSize with
        | none => rfl
        | some offset => exact serve_isSome metadataRound_pos h

/-- `partition_extents`. -/
def partitionExtents (imageLength : ℕ) (partition : Partition) (logicalBlock length : ℕ) :
    Except StreamError (List UdfExtent) :=
  (partitionExtentsIn imageLength length partition logicalBlock length).get
    (partitionExtentsIn_isSome le_rfl)

/-- More rounds than bytes make no difference. -/
theorem partitionExtentsIn_eq {fuel : ℕ} (h : length ≤ fuel) :
    partitionExtentsIn imageLength fuel partition logicalBlock length =
      some (partitionExtents imageLength partition logicalBlock length) := by
  have hr : partitionExtentsIn imageLength length partition logicalBlock length =
      some (partitionExtents imageLength partition logicalBlock length) :=
    (Option.some_get _).symm
  generalize partitionExtents imageLength partition logicalBlock length = r at hr ⊢
  unfold partitionExtentsIn at hr ⊢
  cases hvalid : validatePartitionExtent partition logicalBlock length with
  | error e => rw [hvalid] at hr; exact hr
  | ok _ =>
    rw [hvalid] at hr
    cases hp : partition.mapping with
    | physical start => rw [hp] at hr; exact hr
    | sparable s => rw [hp] at hr; exact serve_mono hr h
    | virtual v => rw [hp] at hr; exact serve_mono hr h
    | metadata m =>
      rw [hp] at hr
      dsimp only at hr ⊢
      unfold metadataPartitionExtents at hr ⊢
      cases hfile : m.file with
      | error e => rw [hfile] at hr; exact hr
      | ok file =>
        rw [hfile] at hr
        cases hoffset : checkedMul logicalBlock blockSize with
        | none => rw [hoffset] at hr; exact hr
        | some offset => rw [hoffset] at hr; exact serve_mono hr h

/-- `UdfParser::partition`. -/
def partitionAt (partitions : List Partition) (reference : ℕ) : Except StreamError Partition :=
  okOr partitions[reference]?
    (udfError .malformed "UDF allocation descriptor references an unknown partition map")

/-- `read_partition_block`. -/
def readPartitionBlock (image : List Byte) (partitions : List Partition)
    (partitionRef logicalBlock : ℕ) : Except StreamError (List Byte) := do
  let partition ← partitionAt partitions partitionRef
  let extents ← partitionExtents image.length partition logicalBlock blockSize
  let extent ← okOr extents.head?
    (udfError .malformed "UDF partition block has no physical mapping")
  if extents.length ≠ 1 ∨ extent.length ≠ blockSize then
    throw (udfError .malformed "UDF partition block crosses an invalid mapping boundary")
  let offset ← okOr extent.sourceOffset
    (udfError .malformed "referenced UDF Metadata Partition block is unallocated")
  readExact image offset blockSize

end LibarchiveOxide.Udf.Partitions
