import LibarchiveOxide.Core.Failure
import LibarchiveOxide.Lib.Radix
import LibarchiveOxide.Udf.Exactness

/-! # Allocation descriptors

A file entry lists its extents by descriptors of one of three layouts. A list may go on in an
allocation extent descriptor of another block, which may go on in its turn. -/

namespace LibarchiveOxide.Udf.Descriptors

open Core.Failure Core.Budget Core.Metadata Lib.LittleEndian Stream.Event Udf.Partitions
open Udf.Translation

/-- A volume: its image, whose length is a `u64`, and partitions that are mapped to it. -/
structure Volume where
  image : List Byte
  partitions : List Partition
  length_le : image.length ≤ u64Max
  wellFormed : ∀ p ∈ partitions, WellFormed image.length p

/-- `le_u16`, `le_u32` and `le_u64` of a field that is there. -/
def le (bytes : List Byte) (offset n : ℕ) : ℕ := leValue ((bytes.drop offset).take n)

/-! ### Descriptor tags -/

/-- A bit of `crc16`. -/
def crcStep (crc : UInt16) : UInt16 :=
  if crc &&& 0x8000 ≠ 0 then (crc <<< 1) ^^^ 0x1021 else crc <<< 1

/-- A byte of `crc16`. -/
def crcByte (crc : UInt16) (byte : Byte) : UInt16 :=
  let mixed : UInt16 := crc ^^^ (byte.toUInt16 <<< (8 : UInt16))
  Nat.iterate crcStep 8 mixed

/-- `crc16`. -/
def crc16 (bytes : List Byte) : UInt16 := bytes.foldl crcByte 0

/-- `TAG_SIZE`. -/
def tagSize : ℕ := 16

/-- `TAG_ALLOCATION_EXTENT`. -/
def tagAllocationExtent : ℕ := 258

/-- `validate_descriptor_tag` without an expected tag. -/
def validateDescriptorTag (descriptor : List Byte) (expectedLocation : ℕ) :
    Except StreamError Unit := do
  if descriptor.length < tagSize then
    throw (udfError .malformed "UDF descriptor tag is truncated")
  if ¬ (le descriptor 2 2 = 2 ∨ le descriptor 2 2 = 3) then
    throw (udfError .unsupported "unsupported ECMA-167 descriptor version")
  let checksum := ((descriptor.take tagSize).eraseIdx 4).foldl (· + ·) 0
  if descriptor[4]? ≠ some checksum then
    throw (udfError .integrity "UDF descriptor tag checksum mismatch")
  if le descriptor 12 4 ≠ expectedLocation then
    throw (udfError .integrity "UDF descriptor tag location mismatch")
  let crcLength := le descriptor 10 2
  if descriptor.length < tagSize + crcLength then
    throw (udfError .malformed "UDF descriptor CRC range is truncated")
  if (crc16 ((descriptor.drop tagSize).take crcLength)).toNat ≠ le descriptor 8 2 then
    throw (udfError .integrity "UDF descriptor CRC16 mismatch")

/-- `IcbAddress`. -/
structure IcbAddress where
  partitionRef : ℕ
  logicalBlock : ℕ
  length : ℕ
deriving DecidableEq

variable (v : Volume)

/-- `validate_icb_address`. -/
def validateIcbAddress (address : IcbAddress) : Except StreamError Unit :=
  let recordedLength := address.length % 2 ^ 30
  if address.length / 2 ^ 30 ≠ 0 ∨ recordedLength = 0 then
    .error (udfError .malformed "UDF ICB extent is not recorded and allocated")
  else match v.partitions[address.partitionRef]? with
    | none => .error (udfError .malformed "UDF ICB references an unknown partition map")
    | some partition =>
      if partition.blocks.toNat < address.logicalBlock + blocksOf recordedLength then
        .error (udfError .malformed "UDF ICB is outside its partition")
      else .ok ()

/-- `read_icb_descriptor_any`. -/
def readIcbDescriptorAny (address : IcbAddress) : Except StreamError (List Byte) := do
  validateIcbAddress v address
  let descriptor ← readPartitionBlock v.image v.partitions address.partitionRef address.logicalBlock
  validateDescriptorTag descriptor address.logicalBlock
  if address.length % 2 ^ 30 < tagSize + le descriptor 10 2 then
    throw (udfError .malformed "UDF descriptor exceeds its declared ICB extent")
  .ok descriptor

/-- The descriptors of an allocation extent descriptor: `read_icb_descriptor`, and the range of it
that its checksum covers. -/
def readAllocationExtent (address : IcbAddress) : Except StreamError (List Byte) := do
  let chained ← readIcbDescriptorAny v address
  if le chained 0 2 ≠ tagAllocationExtent then
    throw (udfError .malformed "UDF ICB tag is not expected descriptor 258")
  let stop := 24 + le chained 20 4
  if tagSize + le chained 10 2 < stop then
    throw (udfError .malformed
      "UDF Allocation Extent Descriptor fields are outside the descriptor CRC")
  .ok ((chained.take stop).drop 24)

/-! ### The layouts -/

/-- The layouts of allocation descriptors. -/
inductive AllocationType where
  | short
  | long
  | extended
deriving DecidableEq

/-- The bytes of a descriptor. -/
def AllocationType.width : AllocationType → ℕ
  | .short => 8
  | .long => 16
  | .extended => 20

/-- `AllocationPartitionConstraint`. -/
inductive AllocationPartitionConstraint where
  | any
  | physical
deriving DecidableEq

/-- The fields of a descriptor. -/
structure AllocationDescriptor where
  extentType : ℕ
  extentLength : ℕ
  recordedLength : ℕ
  informationLength : ℕ
  logicalBlock : ℕ
  partitionRef : ℕ
deriving DecidableEq

/-- The fields of a descriptor of a layout; a short one names no partition. -/
def decodeDescriptor (t : AllocationType) (partitionRef : ℕ) (descriptor : List Byte) :
    Except StreamError AllocationDescriptor :=
  let extentType := le descriptor 0 4 / 2 ^ 30
  let extentLength := le descriptor 0 4 % 2 ^ 30
  match t with
  | .short => .ok ⟨extentType, extentLength, if extentType = 0 then extentLength else 0,
      extentLength, le descriptor 4 4, partitionRef⟩
  | .long => .ok ⟨extentType, extentLength, if extentType = 0 then extentLength else 0,
      extentLength, le descriptor 4 4, le descriptor 8 2⟩
  | .extended =>
    if 2 ^ 30 ≤ le descriptor 4 4 then
      .error (udfError .malformed
        "UDF extended allocation descriptor Recorded Length has reserved bits")
    else .ok ⟨extentType, extentLength, le descriptor 4 4, le descriptor 8 4,
      le descriptor 12 4, le descriptor 16 2⟩

/-- What a descriptor is for. -/
inductive Item where
  | terminator
  | continuation (address : IcbAddress)
  | extent (d : AllocationDescriptor)

/-- `self.partition(r)?.mapping` is a physical one. -/
def isPhysical (reference : ℕ) : Except StreamError Bool := do
  let partition ← partitionAt v.partitions reference
  match partition.mapping with
  | .physical _ => .ok true
  | _ => .ok false

variable (t : AllocationType) (constraint : AllocationPartitionConstraint)

/-- The checks of a descriptor before its extent is looked at; `rest` follows it. -/
def readItem (partitionRef : ℕ) (descriptor rest : List Byte) : Except StreamError Item := do
  let d ← decodeDescriptor t partitionRef descriptor
  if d.extentLength = 0 then
    if d.extentType ≠ 0 ∨ d.recordedLength ≠ 0 ∨ d.informationLength ≠ 0 ∨ d.logicalBlock ≠ 0 ∨
        (t ≠ .short ∧ d.partitionRef ≠ 0) then
      .error (udfError .malformed
        "zero-length UDF allocation descriptor has non-zero reserved fields")
    else if rest.any (· != 0) then
      .error (udfError .malformed "non-zero UDF allocation descriptor follows a terminator")
    else .ok .terminator
  else do
    if constraint = .physical then
      let physical ← isPhysical v d.partitionRef
      if !physical then
        throw (udfError .malformed
          "UDF Virtual Partition ICB allocation does not reference a physical partition map")
    if d.extentType = 3 then
      if rest.any (· != 0) then
        throw (udfError .malformed "UDF allocation descriptor follows a continuation")
      .ok (.continuation ⟨d.partitionRef, d.logicalBlock, d.extentLength⟩)
    else .ok (.extent d)

end LibarchiveOxide.Udf.Descriptors

/-! # The extents of a file

`parse_allocation_descriptors` walks the chain of descriptor lists and keeps the offset in the file
that the extents have reached. `meaning`: the extents that it returns have the first
`information_length` bytes of what the descriptors describe, one after another. -/

namespace LibarchiveOxide.Udf.Allocation

open Core.Failure Core.Budget Core.Metadata Lib.Requests Lib.Result Stream.Event Udf.Partitions
open Udf.Translation Udf.Exactness Udf.Descriptors

/-- The variables of `parse_allocation_descriptors`. -/
structure Body where
  extents : List UdfExtent := []
  sparse : List SparseExtent := []
  logicalOffset : ℕ := 0
  recordedBlocks : ℕ := 0

variable (v : Volume) (t : AllocationType) (constraint : AllocationPartitionConstraint)
  (informationLength : ℕ)

/-- The length of an extent in the file: its `logical_length`. -/
def logicalLength (d : AllocationDescriptor) : ℕ :=
  match t with
  | .extended => d.informationLength
  | .short | .long => d.extentLength

/-- `BLOCK_SIZE_U32` divides the length of the extent. -/
def isAligned (d : AllocationDescriptor) : Bool := d.extentLength % blockSize == 0

/-- The checks of an extended descriptor. -/
def checkExtended (d : AllocationDescriptor) : Except StreamError Unit :=
  if t ≠ .extended then .ok ()
  else if d.extentLength < d.recordedLength then
    .error (udfError .malformed
      "UDF extended allocation descriptor records more bytes than its extent")
  else if d.extentType = 0 ∧ d.recordedLength ≠ d.informationLength then
    .error (udfError .unsupported "transformed UDF extended allocation extent is not supported")
  else if (d.extentType = 1 ∨ d.extentType = 2) ∧ d.recordedLength ≠ 0 then
    .error (udfError .malformed
      "unrecorded UDF extended allocation extent has a Recorded Length")
  else .ok ()

/-- The extents of the image that a descriptor maps to. -/
def mappedExtents (partition : Partition) (d : AllocationDescriptor) :
    Except StreamError (List UdfExtent) :=
  let hole : UdfExtent := ⟨none, logicalLength t d, d.logicalBlock⟩
  match d.extentType with
  | 0 => partitionExtents v.image.length partition d.logicalBlock (logicalLength t d)
  | 1 => do
    validatePartitionExtent partition d.logicalBlock d.extentLength
    .ok [hole]
  | 2 =>
    if d.logicalBlock = 0 ∧ (t = .short ∨ d.partitionRef = 0) then .ok [hole]
    else .error (udfError .malformed "unallocated UDF extent has a non-zero location")
  | _ => .error (udfError .malformed "invalid UDF allocation extent type")

/-- The check of an extent past the information length. -/
def checkTail (d : AllocationDescriptor) : Except StreamError Unit :=
  if d.extentType ≠ 1 ∨ isAligned d = false ∨ (t = .extended ∧ logicalLength t d ≠ 0) then
    .error (udfError .malformed "UDF File Tail extent is not block-aligned unrecorded allocation")
  else .ok ()

/-- The rest of the loop body over the descriptors: an extent of the file or of its tail. -/
def bodyExtent (b : Body) (d : AllocationDescriptor) : Except StreamError Body := do
  let partition ← partitionAt v.partitions d.partitionRef
  checkExtended t d
  let mapped ← mappedExtents v t partition d
  let next ← okOr (checkedAdd b.logicalOffset (logicalLength t d))
    (udfError .limit "UDF allocation length overflow")
  if informationLength ≤ b.logicalOffset then do
    checkTail t d
    .ok b
  else if informationLength < next then
    .error (udfError .malformed "UDF file-body extent exceeds information length")
  else if next < informationLength ∧ isAligned d = false then
    .error (udfError .malformed "non-final UDF file-body extent is not block-aligned")
  else if d.extentType ≠ 0 then do
    let hole ← (SparseExtent.new b.logicalOffset
      (min (logicalLength t d) (informationLength - b.logicalOffset))).mapError .archive
    .ok ⟨b.extents ++ mapped, b.sparse ++ [hole], next, b.recordedBlocks⟩
  else do
    let recorded ← okOr (checkedAdd b.recordedBlocks (blocksOf d.recordedLength))
      (udfError .limit "UDF recorded-block count overflow")
    .ok ⟨b.extents ++ mapped, b.sparse, next, recorded⟩

/-- The loop over `n` descriptors: the state after them, and where the list goes on. -/
def descriptorLoop (partitionRef : ℕ) :
    ℕ → List Byte → Body → Except StreamError (Body × Option IcbAddress)
  | 0, _, b => .ok (b, none)
  | n + 1, bytes, b =>
    match readItem v t constraint partitionRef (bytes.take t.width) (bytes.drop t.width) with
    | .error e => .error e
    | .ok .terminator => .ok (b, none)
    | .ok (.continuation address) => .ok (b, some address)
    | .ok (.extent d) =>
      match bodyExtent v t informationLength b d with
      | .error e => .error e
      | .ok b => descriptorLoop partitionRef n (bytes.drop t.width) b

local instance lawful_address : LawfulBEq (ℕ × ℕ) := inferInstance

/-- The bytes of a list of descriptors, and what of them goes on elsewhere; `none` while the loop is
still running when the fuel is spent. `metadata_used` is returned with the rest. -/
def allocationLoop (maximum : Option ℕ) :
    ℕ → List Byte → ℕ → List (ℕ × ℕ) → ℕ → Body → Option (Except StreamError (Body × ℕ))
  | 0, _, _, _, _, _ => none
  | fuel + 1, descriptors, partitionRef, chains, metadataUsed, b =>
    if descriptors.length % t.width ≠ 0 then
      some (.error (udfError .malformed "UDF allocation descriptor array is truncated"))
    else
      match descriptorLoop v t constraint informationLength partitionRef
          (descriptors.length / t.width) descriptors b with
      | .error e => some (.error e)
      | .ok (b, none) => some (.ok (b, metadataUsed))
      | .ok (b, some address) =>
        if (address.partitionRef, address.logicalBlock) ∈ chains then
          some (.error (udfError .malformed "cycle in UDF allocation-extent chain"))
        else
          match readAllocationExtent v address with
          | .error e => some (.error e)
          | .ok values =>
            if u64Max < metadataUsed + values.length then
              some (.error (udfError .limit "UDF metadata accounting overflow"))
            else if exceeds (metadataUsed + values.length) maximum then
              some (.error (udfError .limit "UDF metadata exceeds configured limit"))
            else
              allocationLoop maximum fuel values address.partitionRef
                ((address.partitionRef, address.logicalBlock) :: chains)
                (metadataUsed + values.length) b

/-- The end of `parse_allocation_descriptors`. -/
def finish (b : Body) : Except StreamError (List UdfExtent × List SparseExtent × ℕ) :=
  if b.logicalOffset < informationLength then
    .error (udfError .malformed "UDF allocation descriptors do not cover information length")
  else .ok (b.extents, b.sparse, b.recordedBlocks)

/-- `parse_allocation_descriptors` with the number of lists it may visit: the extents of the payload,
the holes, the recorded blocks and the metadata in use. -/
def parseAllocationDescriptorsIn (maximum : Option ℕ) (fuel : ℕ) (allocation : List Byte)
    (defaultPartition metadataUsed : ℕ) :
    Option (Except StreamError ((List UdfExtent × List SparseExtent × ℕ) × ℕ)) :=
  (allocationLoop v t constraint informationLength maximum fuel allocation defaultPartition []
    metadataUsed {}).map fun r => r.bind fun x =>
      (finish informationLength x.1).map fun result => (result, x.2)

/-! ### What the descriptors describe -/

variable {d : AllocationDescriptor}

/-- Where the bytes of the extent of a descriptor come from: the partition if it is recorded, else
they are zeros. -/
def describes (d : AllocationDescriptor) : List (Option ℕ) :=
  match d.extentType, v.partitions[d.partitionRef]? with
  | 0, some p => span (byteOf (phys p)) (d.logicalBlock * blockSize) (logicalLength t d)
  | _, _ => List.replicate (logicalLength t d) none

theorem length_describes (d : AllocationDescriptor) :
    (describes v t d).length = logicalLength t d := by
  unfold describes
  split
  · exact length_span ..
  · exact List.length_replicate ..

/-- The extents that a descriptor maps to have the bytes that it describes. -/
structure Maps (d : AllocationDescriptor) (mapped : List UdfExtent) : Prop where
  bytes : mapped.flatMap sources = describes v t d
  length : (mapped.map UdfExtent.length).sum = logicalLength t d
  inside : ∀ e ∈ mapped, Inside v.image.length e

variable {v t informationLength}

theorem mappedExtents_maps {partition : Partition} {mapped : List UdfExtent}
    (hp : v.partitions[d.partitionRef]? = some partition)
    (h : mappedExtents v t partition d = .ok mapped) : Maps v t d mapped := by
  have hole : ∀ n, d.extentType = n + 1 →
      Maps v t d [⟨none, logicalLength t d, d.logicalBlock⟩] := fun n hn => by
    refine ⟨?_, by simp, ?_⟩
    · unfold describes
      rw [hn, List.flatMap_cons, List.flatMap_nil, List.append_nil]
      unfold sources span
      simp
    · rintro e (_ | ⟨_, ⟨⟩⟩) offset ⟨⟩
  unfold mappedExtents at h
  match htype : d.extentType with
  | 0 =>
    rw [htype] at h
    have htranslated : Translated v.image.length partition d.logicalBlock (logicalLength t d) _ :=
      partitionExtents_translated (v.wellFormed partition (List.mem_of_getElem? hp))
    change partitionExtents v.image.length partition d.logicalBlock (logicalLength t d) =
      .ok mapped at h
    rw [h] at htranslated
    refine ⟨?_, htranslated.2.1, htranslated.2.2.1⟩
    unfold describes
    rw [htype, hp]
    exact htranslated.1
  | 1 =>
    rw [htype] at h
    obtain ⟨-, -, h⟩ := bind_eq_ok.mp h
    cases h
    exact hole 0 htype
  | 2 =>
    rw [htype] at h
    dsimp only at h
    split_ifs at h
    cases h
    exact hole 1 htype
  | n + 3 =>
    rw [htype] at h
    cases h

/-- **What one extent does**: nothing past the information length, and before it the extents that it
maps to are added. -/
theorem bodyExtent_cases {b b' : Body} (h : bodyExtent v t informationLength b d = .ok b') :
    (informationLength ≤ b.logicalOffset ∧ b' = b) ∨
    ∃ mapped, Maps v t d mapped ∧ b'.extents = b.extents ++ mapped ∧
      b.logicalOffset < informationLength ∧
      b'.logicalOffset = b.logicalOffset + logicalLength t d ∧
      b'.logicalOffset ≤ informationLength := by
  unfold bodyExtent at h
  obtain ⟨partition, hp, h⟩ := bind_eq_ok.mp h
  obtain ⟨-, -, h⟩ := bind_eq_ok.mp h
  obtain ⟨mapped, hmapped, h⟩ := bind_eq_ok.mp h
  obtain ⟨next, hnext, h⟩ := bind_eq_ok.mp h
  obtain ⟨rfl, -⟩ := checkedAdd_eq_some.mp (okOr_eq_ok.mp hnext)
  have hmaps := mappedExtents_maps (okOr_eq_ok.mp hp) hmapped
  by_cases htail : informationLength ≤ b.logicalOffset
  · rw [if_pos htail] at h
    obtain ⟨-, -, h⟩ := bind_eq_ok.mp h
    cases h
    exact .inl ⟨htail, rfl⟩
  · rw [if_neg htail] at h
    split_ifs at h with hlong halign htype
    · obtain ⟨hole, -, h⟩ := bind_eq_ok.mp h
      cases h
      exact .inr ⟨mapped, hmaps, rfl, not_le.mp htail, rfl, not_lt.mp hlong⟩
    · obtain ⟨recorded, -, h⟩ := bind_eq_ok.mp h
      cases h
      exact .inr ⟨mapped, hmaps, rfl, not_le.mp htail, rfl, not_lt.mp hlong⟩

variable (v t informationLength)

/-- The extents so far are those of the descriptors so far, up to the information length. -/
structure Follows (done : List AllocationDescriptor) (b : Body) : Prop where
  bytes : b.extents.flatMap sources = (done.flatMap (describes v t)).take informationLength
  length : (b.extents.map UdfExtent.length).sum = b.logicalOffset
  offset : b.logicalOffset = min (done.flatMap (describes v t)).length informationLength
  inside : ∀ e ∈ b.extents, Inside v.image.length e

variable {v t informationLength}

theorem follows_nil : Follows v t informationLength [] {} :=
  ⟨by simp, rfl, by simp, by simp⟩

/-- One extent keeps the extents and the descriptors in step. -/
theorem Follows.bodyExtent {done : List AllocationDescriptor} {b b' : Body}
    (hb : Follows v t informationLength done b)
    (h : Allocation.bodyExtent v t informationLength b d = .ok b') :
    Follows v t informationLength (done ++ [d]) b' := by
  obtain ⟨hbytes, hlength, hoffset, hinside⟩ := hb
  have hdone : (done ++ [d]).flatMap (describes v t) =
      done.flatMap (describes v t) ++ describes v t d := by
    rw [List.flatMap_append, List.flatMap_cons, List.flatMap_nil, List.append_nil]
  rcases bodyExtent_cases h with ⟨htail, rfl⟩ | ⟨mapped, hmaps, hextents, hlt, hnext, hle⟩
  · have hfull : informationLength ≤ (done.flatMap (describes v t)).length := by omega
    refine ⟨?_, hlength, ?_, hinside⟩
    · rw [hdone, List.take_append_of_le_length hfull]
      exact hbytes
    · rw [hdone, List.length_append]
      omega
  · have hall : (done ++ [d]).flatMap (describes v t) =
        ((done ++ [d]).flatMap (describes v t)).take informationLength := by
      refine (List.take_of_length_le ?_).symm
      rw [hdone, List.length_append, length_describes]
      omega
    have hbefore : (done.flatMap (describes v t)).take informationLength =
        done.flatMap (describes v t) := by
      refine List.take_of_length_le ?_
      omega
    refine ⟨?_, ?_, ?_, ?_⟩
    · rw [← hall, hdone, hextents, List.flatMap_append, hbytes, hbefore, hmaps.bytes]
    · rw [hextents, List.map_append, List.sum_append, hlength, hmaps.length, hnext]
    · rw [hdone, List.length_append, length_describes]
      omega
    · intro e he
      rw [hextents, List.mem_append] at he
      rcases he with he | he
      · exact hinside e he
      · exact hmaps.inside e he

variable (v t informationLength)

/-- The extents of a list of descriptors, one after another. -/
def bodyExtents (b : Body) (ds : List AllocationDescriptor) : Except StreamError Body :=
  ds.foldlM (bodyExtent v t informationLength) b

variable {v t informationLength}

theorem Follows.bodyExtents : ∀ {ds done : List AllocationDescriptor} {b b' : Body},
    Follows v t informationLength done b →
    Allocation.bodyExtents v t informationLength b ds = .ok b' →
    Follows v t informationLength (done ++ ds) b'
  | [], done, b, b', hb, h => by
    unfold Allocation.bodyExtents at h
    rw [List.foldlM_nil] at h
    cases h
    rwa [List.append_nil]
  | d :: ds, done, b, b', hb, h => by
    unfold Allocation.bodyExtents at h
    rw [List.foldlM_cons] at h
    obtain ⟨b₁, hd, h⟩ := bind_eq_ok.mp h
    have hfollows : Follows v t informationLength ((done ++ [d]) ++ ds) b' :=
      (hb.bodyExtent hd).bodyExtents h
    rwa [List.append_assoc, List.singleton_append] at hfollows

/-- **The payload has the bytes that the descriptors describe**, up to the information length. -/
theorem meaning {ds : List AllocationDescriptor} {b : Body}
    {r : List UdfExtent × List SparseExtent × ℕ}
    (h : bodyExtents v t informationLength {} ds = .ok b)
    (hfinish : finish informationLength b = .ok r) :
    r.1.flatMap sources = (ds.flatMap (describes v t)).take informationLength ∧
    (r.1.map UdfExtent.length).sum = informationLength ∧
    ∀ e ∈ r.1, Inside v.image.length e := by
  have hfollows := follows_nil.bodyExtents h
  rw [List.nil_append] at hfollows
  unfold finish at hfinish
  split_ifs at hfinish with hcover
  cases hfinish
  have hoffset := hfollows.offset
  exact ⟨hfollows.bytes, hfollows.length.trans (by omega), hfollows.inside⟩

end LibarchiveOxide.Udf.Allocation
