import LibarchiveOxide.Lib.Result
import LibarchiveOxide.Udf.Partitions

/-! # What the translation of a partition means

`phys` says where one logical block lies. A byte of a request comes from its place in the
block it falls in: `serves` is this fact for each of the loops, and whether a request is accepted
depends on its bytes one by one. So a request may be cut at block boundaries. -/

namespace LibarchiveOxide.Udf.Translation

open Core.Failure Lib.Requests Lib.Result Stream.Event Stream.Image Udf.Partitions

/-! ### One block at a time -/

/-- The image blocks of an extent of a metadata file, one after another. -/
def extentBlocks (e : MetadataFileExtent) : List (Option ℕ) :=
  span (fun j => e.sourceOffset.map fun source => source / blockSize + j) 0 (e.length / blockSize)

/-- The image blocks of a metadata file. -/
def fileBlocks (file : MetadataFile) : List (Option ℕ) := file.extents.flatMap extentBlocks

/-- The image block of a block of a sparable partition: in the replacement of its packet, if it has
one. -/
def sparableBlock (s : SparablePartition) (k : ℕ) : ℕ :=
  match s.mapped (k - k % s.packetBlocks.toNat) with
  | some mapped => mapped + k % s.packetBlocks.toNat
  | none => s.physicalStart.toNat + k

/-- The image block of a block of a virtual partition. -/
def virtualBlock (v : VirtualPartition) (k : ℕ) : Option ℕ :=
  (v.entries[k]?).join.map fun mapped => v.physicalStart.toNat + mapped.toNat

/-- **The image block of a logical block**; none for an unallocated one. -/
def phys (p : Partition) (k : ℕ) : Option ℕ :=
  match p.mapping with
  | .physical start => some (start.toNat + k)
  | .metadata m =>
    match m.file with
    | .error _ => none
    | .ok file => ((fileBlocks file)[k]?).join
  | .sparable s => some (sparableBlock s k)
  | .virtual v => virtualBlock v k

/-- Where the byte of a partition at a position is. -/
def byteOf (phys : ℕ → Option ℕ) (position : ℕ) : Option ℕ :=
  (phys (position / blockSize)).map fun block => block * blockSize + position % blockSize

/-- Where the bytes of an extent come from. -/
def sources (e : UdfExtent) : List (Option ℕ) :=
  span (fun i => e.sourceOffset.map (· + i)) 0 e.length

/-- The extent lies in the image. -/
def Inside (imageLength : ℕ) (e : UdfExtent) : Prop :=
  ∀ offset, e.sourceOffset = some offset → offset + e.length ≤ imageLength

/-- The mapping is one of an image of this length. -/
def WellFormed (imageLength : ℕ) (p : Partition) : Prop :=
  match p.mapping with
  | .physical start => (start.toNat + p.blocks.toNat) * blockSize ≤ imageLength
  | .metadata m => imageLength ≤ u64Max ∧ ∀ file, m.file = .ok file → ∀ e ∈ file.extents,
      ∀ source, e.sourceOffset = some source → source + e.length ≤ imageLength
  | _ => True

/-! ### Arithmetic of blocks -/

variable {n : ℕ}

theorem blocksOf_add_mul (k n : ℕ) : blocksOf (k * blockSize + n) = k + blocksOf n := by
  unfold blocksOf blockSize
  omega

theorem blocksOf_mono {m : ℕ} (h : m ≤ n) : blocksOf m ≤ blocksOf n := by
  unfold blocksOf blockSize
  omega

theorem sources_eq_span {e : UdfExtent} {f : ℕ → Option ℕ} {p : ℕ}
    (h : ∀ i < e.length, f (p + i) = e.sourceOffset.map (· + i)) :
    sources e = span f p e.length :=
  span_congr fun i hi => by rw [Nat.zero_add, h i hi]

@[simp] theorem length_sources (e : UdfExtent) : (sources e).length = e.length := length_span ..

theorem toNat_lt (x : UInt32) : x.toNat ≤ u32Max := by
  have := x.toNat_lt
  unfold u32Max
  omega

theorem checkedAdd32_of_le {a b : ℕ} (h : a + b ≤ u32Max) : checkedAdd32 a b = some (a + b) :=
  if_pos h

/-! ### Sparable partitions -/

section Sparable
variable (s : SparablePartition) (imageLength : ℕ)

theorem mapped_le {packet mapped : ℕ} (h : s.mapped packet = some mapped) : mapped ≤ u32Max := by
  unfold SparablePartition.mapped at h
  obtain ⟨e, -, rfl⟩ := Option.map_eq_some_iff.mp h
  exact toNat_lt e.2

variable {k : ℕ}

/-- The block of a packet that is `j` blocks on. -/
theorem sparableBlock_add {j : ℕ} (h : j < s.packetBlocks.toNat - k % s.packetBlocks.toNat) :
    sparableBlock s (k + j) = sparableBlock s k + j := by
  have hmod : (k + j) % s.packetBlocks.toNat = k % s.packetBlocks.toNat + j := by
    rw [Nat.add_mod, Nat.mod_eq_of_lt (a := j) (by omega), Nat.mod_eq_of_lt (by omega)]
  have hle : k % s.packetBlocks.toNat ≤ k := Nat.mod_le ..
  have hstart : k + j - (k + j) % s.packetBlocks.toNat = k - k % s.packetBlocks.toNat := by
    omega
  unfold sparableBlock
  rw [hstart, hmod]
  cases s.mapped (k - k % s.packetBlocks.toNat) with
  | none => exact (Nat.add_assoc ..).symm
  | some mapped => exact (Nat.add_assoc ..).symm

theorem sparableBlock_le (h : k ≤ u32Max) : sparableBlock s k ≤ 2 * u32Max := by
  have hoffset : k % s.packetBlocks.toNat ≤ k := Nat.mod_le ..
  have hstart := toNat_lt s.physicalStart
  unfold sparableBlock
  cases hm : s.mapped (k - k % s.packetBlocks.toNat) with
  | none => simp only; omega
  | some mapped =>
    have := mapped_le s hm
    simp only
    omega

theorem physicalBlock_eq (h : k ≤ u32Max) :
    s.physicalBlock (k - k % s.packetBlocks.toNat) (k % s.packetBlocks.toNat) k =
      .ok (sparableBlock s k) := by
  have hle := sparableBlock_le s h
  unfold SparablePartition.physicalBlock sparableBlock at *
  cases hm : s.mapped (k - k % s.packetBlocks.toNat) with
  | none =>
    rw [hm] at hle
    simp only at hle ⊢
    rw [checkedAdd_of_le (by unfold u64Max u32Max at *; omega), okOr_some]
  | some mapped =>
    rw [hm] at hle
    simp only at hle ⊢
    rw [checkedAdd_of_le (by unfold u64Max u32Max at *; omega), okOr_some]

/-- The bytes of a round: to the end of the packet, if so many are missing. -/
def packetCount (k remaining : ℕ) : ℕ :=
  min remaining ((s.packetBlocks.toNat - k % s.packetBlocks.toNat) * blockSize)

/-- A round fails only at the end of the image. -/
theorem sparableRound_eq (h : k + blocksOf n ≤ u32Max) :
    sparableRound imageLength s k n =
      if imageLength < sparableBlock s k * blockSize + packetCount s k n then
        .error (udfError .malformed "UDF sparable mapping is outside the image")
      else .ok (⟨some (sparableBlock s k * blockSize), packetCount s k n, k⟩,
        k + blocksOf (packetCount s k n)) := by
  have hblock := sparableBlock_le s (k := k) (by omega)
  have hpacket := toNat_lt s.packetBlocks
  have hcount : packetCount s k n ≤ n := min_le_left ..
  have hblocks := blocksOf_mono hcount
  have hn : n ≤ u32Max * blockSize := by unfold blocksOf blockSize at *; omega
  have hlength := checkedMul_of_le (a := s.packetBlocks.toNat - k % s.packetBlocks.toNat)
    (b := blockSize) (by unfold u64Max u32Max blockSize at *; omega)
  have hoffset := checkedMul_of_le (a := sparableBlock s k) (b := blockSize)
    (by unfold u64Max u32Max blockSize at *; omega)
  have hstop := checkedAdd_of_le (a := sparableBlock s k * blockSize) (b := packetCount s k n)
    (by unfold u64Max u32Max blockSize at *; omega)
  have hnext := checkedAdd32_of_le (a := k) (b := blocksOf (packetCount s k n)) (by omega)
  unfold packetCount at hstop hnext ⊢
  unfold sparableRound
  simp only [hlength, physicalBlock_eq s (show k ≤ u32Max by omega), hoffset, hstop, hnext,
    okOr_some, ok_bind, throw_eq_error, error_bind]

theorem packetCount_pos (hn : 0 < n) : 0 < packetCount s k n := by
  have := Nat.mod_lt k s.packetBlocks_pos
  unfold packetCount blockSize
  omega

theorem byteOf_sparable {i : ℕ} (h : i < packetCount s k n) :
    byteOf (fun k => some (sparableBlock s k)) (k * blockSize + i) =
      some (sparableBlock s k * blockSize + i) := by
  have hlt : i < (s.packetBlocks.toNat - k % s.packetBlocks.toNat) * blockSize :=
    h.trans_le (min_le_right ..)
  have hdiv : (k * blockSize + i) / blockSize = k + i / blockSize := by unfold blockSize; omega
  have hmod : (k * blockSize + i) % blockSize = i % blockSize := by unfold blockSize; omega
  unfold byteOf
  simp only [hdiv, hmod, Option.map_some]
  rw [sparableBlock_add s (by unfold blockSize at *; omega), Option.some.injEq]
  unfold blockSize
  omega

/-- The loop serves the bytes of the partition that lie in the image. -/
theorem serves_sparable : Serves (sparableRound imageLength s) UdfExtent.length sources
    (byteOf fun k => some (sparableBlock s k)) (· * blockSize) (fun k n => k + blocksOf n ≤ u32Max)
    (fun position => ∃ offset, byteOf (fun k => some (sparableBlock s k)) position = some offset ∧
      offset < imageLength) (Inside imageLength) := by
  constructor
  · intro k n e k' hinv hn hround
    rw [sparableRound_eq s imageLength hinv] at hround
    split_ifs at hround with himage
    obtain ⟨rfl, rfl⟩ := Prod.mk.inj (Except.ok.inj hround)
    refine ⟨⟨packetCount_pos s hn, min_le_left ..⟩, sources_eq_span fun i hi => ?_,
      fun i hi => ?_, ?_, ?_⟩
    · exact byteOf_sparable s hi
    · exact ⟨_, byteOf_sparable s hi, by simp only at hi; omega⟩
    · rintro offset ⟨⟩
      simp only
      omega
    · intro hlt
      simp only at hlt ⊢
      have hcount : packetCount s k n =
          (s.packetBlocks.toNat - k % s.packetBlocks.toNat) * blockSize := by
        unfold packetCount at *
        omega
      generalize s.packetBlocks.toNat - k % s.packetBlocks.toNat = left at hcount
      rw [hcount] at hlt ⊢
      unfold blocksOf blockSize at *
      constructor <;> omega
  · intro k n e hinv hn hround
    have hpos := packetCount_pos s (k := k) hn
    rw [sparableRound_eq s imageLength hinv] at hround
    split_ifs at hround with himage
    have hle : packetCount s k n ≤ n := min_le_left ..
    refine ⟨packetCount s k n - 1, by omega, ?_⟩
    rintro ⟨offset, hoffset, hlt⟩
    rw [byteOf_sparable s (n := n) (by omega)] at hoffset
    cases hoffset
    omega

end Sparable

/-! ### Virtual partitions -/

section Virtual
variable (v : VirtualPartition) (imageLength : ℕ)

theorem virtualBlock_le {k block : ℕ} (h : virtualBlock v k = some block) :
    block ≤ 2 * u32Max := by
  obtain ⟨mapped, -, rfl⟩ := Option.map_eq_some_iff.mp h
  have := toNat_lt mapped
  have := toNat_lt v.physicalStart
  omega

/-- A round takes the block of the table, if that lies in the image. -/
theorem virtualRound_eq {k : ℕ} (h : k + blocksOf n ≤ u32Max) (hn : 0 < n) :
    virtualRound imageLength v k n =
      match virtualBlock v k with
      | none => .error (udfError .malformed "referenced UDF virtual block is unallocated")
      | some block =>
        if imageLength < block * blockSize + blockSize then
          .error (udfError .malformed "UDF virtual block mapping is outside the image")
        else .ok (⟨some (block * blockSize), min n blockSize, k⟩, k + 1) := by
  have hle : ∀ block, virtualBlock v k = some block → block ≤ 2 * u32Max := fun block =>
    virtualBlock_le v
  have hnext := checkedAdd32_of_le (a := k) (b := 1) (by unfold blocksOf blockSize at h; omega)
  unfold virtualRound
  unfold virtualBlock at hle ⊢
  cases hentry : (v.entries[k]?).join with
  | none => rfl
  | some mapped =>
    have hblock := hle _ (by rw [hentry, Option.map_some])
    have hadd := checkedAdd_of_le (a := v.physicalStart.toNat) (b := mapped.toNat)
      (by unfold u64Max u32Max at *; omega)
    have hmul := checkedMul_of_le (a := v.physicalStart.toNat + mapped.toNat) (b := blockSize)
      (by unfold u64Max u32Max blockSize at *; omega)
    have hstop := checkedAdd_of_le (a := (v.physicalStart.toNat + mapped.toNat) * blockSize)
      (b := blockSize) (by unfold u64Max u32Max blockSize at *; omega)
    simp only [Option.map_some, hadd, hmul, hstop, hnext, okOr_some, ok_bind, throw_eq_error,
      error_bind]

theorem byteOf_virtual {k block i : ℕ} (h : virtualBlock v k = some block) (hi : i < blockSize) :
    byteOf (virtualBlock v) (k * blockSize + i) = some (block * blockSize + i) := by
  have hdiv : (k * blockSize + i) / blockSize = k := by unfold blockSize at *; omega
  have hmod : (k * blockSize + i) % blockSize = i := by unfold blockSize at *; omega
  unfold byteOf
  rw [hdiv, hmod, h, Option.map_some]

/-- The loop serves the bytes of the blocks that have an entry and lie in the image. -/
theorem serves_virtual : Serves (virtualRound imageLength v) UdfExtent.length sources
    (byteOf (virtualBlock v)) (· * blockSize) (fun k n => k + blocksOf n ≤ u32Max)
    (fun position => ∃ block, virtualBlock v (position / blockSize) = some block ∧
      block * blockSize + blockSize ≤ imageLength) (Inside imageLength) := by
  have hblock : ∀ {k i : ℕ}, i < blockSize → (k * blockSize + i) / blockSize = k := by
    intro k i hi
    unfold blockSize at *
    omega
  constructor
  · intro k n e k' hinv hn hround
    rw [virtualRound_eq v imageLength hinv hn] at hround
    cases hentry : virtualBlock v k with
    | none => rw [hentry] at hround; cases hround
    | some block =>
      simp only [hentry] at hround
      split_ifs at hround with himage
      obtain ⟨rfl, rfl⟩ := Prod.mk.inj (Except.ok.inj hround)
      refine ⟨⟨by unfold blockSize; simp only; omega, min_le_left ..⟩,
        sources_eq_span fun i hi => ?_, fun i hi => ⟨block, ?_, by omega⟩, ?_, ?_⟩
      · exact byteOf_virtual v hentry (hi.trans_le (min_le_right ..))
      · rw [hblock (hi.trans_le (min_le_right ..)), hentry]
      · rintro offset ⟨⟩
        simp only
        omega
      · intro hlt
        simp only at hlt ⊢
        have hcount : min n blockSize = blockSize := by omega
        rw [hcount] at hlt ⊢
        unfold blocksOf blockSize at *
        constructor <;> omega
  · intro k n e hinv hn hround
    rw [virtualRound_eq v imageLength hinv hn] at hround
    refine ⟨0, hn, ?_⟩
    rintro ⟨block, hentry, hle⟩
    rw [hblock (by decide)] at hentry
    simp only [hentry] at hround
    rw [if_neg (by omega)] at hround
    cases hround

end Virtual

end LibarchiveOxide.Udf.Translation

/-! # Metadata partitions

The extents of a metadata file follow one another from its start and lie on block boundaries. So the
search by offsets finds the extent that the block at an index belongs to. -/

namespace LibarchiveOxide.Udf.MetadataFiles

open Core.Failure Lib.Requests Lib.Result Stream.Event Udf.Partitions Udf.Translation

@[simp] theorem length_extentBlocks (e : MetadataFileExtent) :
    (extentBlocks e).length = e.length / blockSize := length_span ..

/-! ### The search -/

variable {e : MetadataFileExtent} {offset : ℕ}

theorem holds_iff (h : offset < u64Max) :
    e.holds offset = true ↔ e.logicalOffset ≤ offset ∧ offset < e.logicalOffset + e.length := by
  unfold MetadataFileExtent.holds
  rw [decide_eq_true_eq]
  omega

/-- The extent found for an offset holds its block, and those up to its end. -/
theorem find_blocks : ∀ {es : List MetadataFileExtent} {start offset : ℕ} {e : MetadataFileExtent},
    Consecutive start es → blockSize ∣ start → start ≤ offset → offset < u64Max →
    es.find? (·.holds offset) = some e →
    (e.logicalOffset ≤ offset ∧ offset < e.logicalOffset + e.length) ∧
    blockSize ∣ e.logicalOffset ∧ blockSize ∣ e.length ∧
    (∀ source, e.sourceOffset = some source → blockSize ∣ source) ∧
    ∀ i, offset + i < e.logicalOffset + e.length →
      (es.flatMap extentBlocks)[(offset + i - start) / blockSize]? =
        some (e.sourceOffset.map fun source =>
          source / blockSize + (offset + i - e.logicalOffset) / blockSize)
  | [], _, _, _, _, _, _, _, h => by cases h
  | x :: es, start, offset, e, hcons, hstart, hle, hmax, h => by
    obtain ⟨hoffset, hlength, hsource, hrest⟩ := hcons
    rw [List.find?_cons] at h
    by_cases hx : x.holds offset = true
    · rw [hx] at h
      cases h
      obtain ⟨hlo, hhi⟩ := (holds_iff hmax).mp hx
      refine ⟨⟨hlo, hhi⟩, by rwa [hoffset], hlength, hsource, fun i hi => ?_⟩
      have hindex : (offset + i - start) / blockSize < x.length / blockSize := by
        unfold blockSize at *
        omega
      rw [List.flatMap_cons, List.getElem?_append_left (by rwa [length_extentBlocks])]
      unfold extentBlocks
      rw [getElem?_span, if_pos hindex, Nat.zero_add, hoffset]
    · rw [Bool.not_eq_true] at hx
      rw [hx] at h
      have hpast : x.logicalOffset + x.length ≤ offset := by
        by_contra hc
        rw [(holds_iff hmax).mpr ⟨by omega, by omega⟩] at hx
        cases hx
      obtain ⟨hin, hlo, hlen, hsrc, hblocks⟩ := find_blocks hrest (Nat.dvd_add hstart hlength)
        (by omega) hmax h
      refine ⟨hin, hlo, hlen, hsrc, fun i hi => ?_⟩
      have hindex : (offset + i - start) / blockSize = x.length / blockSize +
          (offset + i - (start + x.length)) / blockSize := by
        unfold blockSize at *
        omega
      rw [List.flatMap_cons, List.getElem?_append_right
          (by rw [length_extentBlocks, hindex]; exact Nat.le_add_right ..),
        length_extentBlocks, hindex, Nat.add_sub_cancel_left]
      exact hblocks i hi

/-- No extent is found only past the last block. -/
theorem find_none : ∀ {es : List MetadataFileExtent} {start offset : ℕ},
    Consecutive start es → blockSize ∣ start → start ≤ offset → offset < u64Max →
    es.find? (·.holds offset) = none →
    (es.flatMap extentBlocks).length ≤ (offset - start) / blockSize
  | [], _, _, _, _, _, _, _ => Nat.zero_le _
  | x :: es, start, offset, hcons, hstart, hle, hmax, h => by
    obtain ⟨hoffset, hlength, -, hrest⟩ := hcons
    rw [List.find?_cons] at h
    by_cases hx : x.holds offset = true
    · rw [hx] at h
      cases h
    · rw [Bool.not_eq_true] at hx
      rw [hx] at h
      have hpast : x.logicalOffset + x.length ≤ offset := by
        by_contra hc
        rw [(holds_iff hmax).mpr ⟨by omega, by omega⟩] at hx
        cases hx
      have ih := find_none hrest (Nat.dvd_add hstart hlength) (by omega) hmax h
      rw [List.flatMap_cons, List.length_append, length_extentBlocks]
      unfold blockSize at *
      omega

/-! ### The loop -/

section Loop
variable (file : MetadataFile) (imageLength : ℕ)

/-- The image block of a block of a metadata file. -/
def fileBlock (k : ℕ) : Option ℕ := ((fileBlocks file)[k]?).join

/-- Every extent lies in an image. -/
def Placed : Prop :=
  imageLength ≤ u64Max ∧ ∀ e ∈ file.extents, ∀ source, e.sourceOffset = some source →
    source + e.length ≤ imageLength

variable {file imageLength} (hplaced : Placed file imageLength)

include hplaced in
/-- A round takes the rest of the extent that holds the offset. -/
theorem metadataRound_eq {n : ℕ} (h : offset + n ≤ u32Max * blockSize) (hn : 0 < n) :
    metadataRound file offset n =
      match file.extents.find? (·.holds offset) with
      | none => .error (udfError .malformed "UDF Metadata Partition block has no file allocation")
      | some e =>
        let within := offset - e.logicalOffset
        let count := min n (e.length - within)
        .ok (⟨e.sourceOffset.map (· + within), count, offset / blockSize⟩, offset + count) := by
  unfold metadataRound
  cases hfind : file.extents.find? (·.holds offset) with
  | none => rfl
  | some e =>
    have hmem := List.mem_of_find?_eq_some hfind
    have hmax : offset < u64Max := by unfold u64Max u32Max blockSize at *; omega
    have hholds := (holds_iff hmax).mp
      (List.find?_some (p := fun e => MetadataFileExtent.holds e offset) hfind)
    have hnext := checkedAdd_of_le (a := offset)
      (b := min n (e.length - (offset - e.logicalOffset)))
      (by unfold u64Max u32Max blockSize at *; omega)
    have hdelta : ¬ u32Max < offset / blockSize := by unfold u32Max blockSize at *; omega
    have hsource : e.sourceAt (offset - e.logicalOffset) =
        .ok (e.sourceOffset.map (· + (offset - e.logicalOffset))) := by
      unfold MetadataFileExtent.sourceAt
      cases hs : e.sourceOffset with
      | none => rfl
      | some source =>
        have hin := hplaced.2 e hmem source hs
        have hmaximum := hplaced.1
        dsimp only
        rw [checkedAdd_of_le (by omega)]
        rfl
    simp only [okOr_some, ok_bind, hnext, hdelta, hsource, if_false]

theorem byteOf_metadata {i : ℕ} (hmax : offset < u64Max)
    (hfind : file.extents.find? (·.holds offset) = some e)
    (hi : offset + i < e.logicalOffset + e.length) :
    byteOf (fileBlock file) (offset + i) =
      e.sourceOffset.map fun source => source + (offset + i - e.logicalOffset) := by
  obtain ⟨⟨hlo, -⟩, halign, -, hsource, hblocks⟩ :=
    find_blocks file.consecutive (Nat.dvd_zero _) (Nat.zero_le _) hmax hfind
  have hblock := hblocks i hi
  rw [Nat.sub_zero] at hblock
  unfold byteOf fileBlock fileBlocks
  rw [hblock, Option.join_some, Option.map_map]
  cases hs : e.sourceOffset with
  | none => rfl
  | some source =>
    have := hsource source hs
    rw [Option.map_some, Option.map_some, Option.some.injEq, Function.comp_apply]
    unfold blockSize at *
    omega

theorem fileBlocks_of_find {i : ℕ} (hmax : offset < u64Max)
    (hfind : file.extents.find? (·.holds offset) = some e)
    (hi : offset + i < e.logicalOffset + e.length) :
    (offset + i) / blockSize < (fileBlocks file).length := by
  obtain ⟨-, -, -, -, hblocks⟩ :=
    find_blocks file.consecutive (Nat.dvd_zero _) (Nat.zero_le _) hmax hfind
  have hblock := hblocks i hi
  rw [Nat.sub_zero] at hblock
  exact (List.getElem?_eq_some_iff.mp hblock).1

include hplaced in
/-- The loop serves the bytes of the blocks that the file has. -/
theorem serves_metadata : Serves (metadataRound file) UdfExtent.length sources
    (byteOf (fileBlock file)) id (fun offset n => offset + n ≤ u32Max * blockSize)
    (fun position => position / blockSize < (fileBlocks file).length) (Inside imageLength) := by
  constructor
  · intro offset n x offset' hinv hn hround
    have hmax : offset < u64Max := by unfold u64Max u32Max blockSize at *; omega
    rw [metadataRound_eq hplaced hinv hn] at hround
    cases hfind : file.extents.find? (·.holds offset) with
    | none => rw [hfind] at hround; cases hround
    | some e =>
      simp only [hfind] at hround
      obtain ⟨rfl, rfl⟩ := Prod.mk.inj (Except.ok.inj hround)
      obtain ⟨hlo, hhi⟩ := (holds_iff hmax).mp
        (List.find?_some (p := fun e => MetadataFileExtent.holds e offset) hfind)
      refine ⟨⟨by simp only; omega, min_le_left ..⟩, sources_eq_span fun i hi => ?_,
        fun i hi => ?_, ?_, fun _ => ⟨rfl, by simp only; omega⟩⟩
      · simp only [id] at hi ⊢
        rw [byteOf_metadata hmax hfind (by omega), Option.map_map]
        congr 1
        funext source
        rw [Function.comp_apply]
        omega
      · simp only [id] at hi ⊢
        exact fileBlocks_of_find hmax hfind (by omega)
      · intro source hsource
        obtain ⟨s, hs, rfl⟩ := Option.map_eq_some_iff.mp hsource
        have := hplaced.2 e (List.mem_of_find?_eq_some hfind) s hs
        simp only
        omega
  · intro offset n x hinv hn hround
    have hmax : offset < u64Max := by unfold u64Max u32Max blockSize at *; omega
    rw [metadataRound_eq hplaced hinv hn] at hround
    cases hfind : file.extents.find? (·.holds offset) with
    | some e => simp only [hfind] at hround; cases hround
    | none =>
      have hlast := find_none file.consecutive (Nat.dvd_zero _) (Nat.zero_le _) hmax hfind
      rw [Nat.sub_zero] at hlast
      exact ⟨0, hn, by simp only [id, Nat.add_zero]; exact hlast.not_gt⟩

end Loop

end LibarchiveOxide.Udf.MetadataFiles
