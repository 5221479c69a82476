import LibarchiveOxide.Udf.Translation

/-! # Requests to a partition

`exact_translation`: for each kind of partition the translation ends, gives the bytes that the blocks
of the request have one by one, and does not depend on how the request is cut at block boundaries.
A request is accepted if it lies in the partition and each of its bytes can be had. -/

namespace LibarchiveOxide.Udf.Exactness

open Core.Failure Lib.Requests Lib.Result Stream.Event Stream.Image Udf.Partitions Udf.Translation
open Udf.MetadataFiles

/-- The partition has the byte at a position, in an image of this length. -/
def Has (imageLength : ℕ) (p : Partition) (position : ℕ) : Prop :=
  match p.mapping with
  | .metadata m => ∃ file, m.file = .ok file ∧ position / blockSize < (fileBlocks file).length
  | .virtual v => ∃ block, virtualBlock v (position / blockSize) = some block ∧
      block * blockSize + blockSize ≤ imageLength
  | .physical _ | .sparable _ => ∃ offset, byteOf (phys p) position = some offset ∧
      offset < imageLength

/-- **A request that can be served**: inside the partition, whose file is there if it has one, and all
of whose bytes are. -/
structure Accepts (imageLength : ℕ) (p : Partition) (logicalBlock length : ℕ) : Prop where
  range : logicalBlock + blocksOf length ≤ p.blocks.toNat
  file : ∀ m, p.mapping = .metadata m → ∃ file, m.file = .ok file
  has : ∀ i < length, Has imageLength p (logicalBlock * blockSize + i)

theorem validatePartitionExtent_eq (p : Partition) (logicalBlock length : ℕ) :
    validatePartitionExtent p logicalBlock length =
      if logicalBlock + blocksOf length ≤ p.blocks.toNat then .ok ()
      else .error (udfError .malformed "UDF data extent is outside its partition") := by
  have hblocks := toNat_lt p.blocks
  unfold validatePartitionExtent
  by_cases h : logicalBlock + blocksOf length ≤ p.blocks.toNat
  · rw [checkedAdd_of_le (by unfold u64Max u32Max at *; omega), if_pos h]
    exact if_neg (by omega)
  · rw [if_neg h]
    cases hadd : checkedAdd logicalBlock (blocksOf length) with
    | none => rfl
    | some stop =>
      obtain ⟨rfl, -⟩ := checkedAdd_eq_some.mp hadd
      exact if_pos (by omega)

theorem byteOf_physical (start k i : ℕ) :
    byteOf (fun k => some (start + k)) (k * blockSize + i) = some ((start + k) * blockSize + i) := by
  unfold byteOf
  rw [Option.map_some, Option.some.injEq]
  unfold blockSize
  omega

/-- What a translation has to give. -/
def Translated (imageLength : ℕ) (p : Partition) (logicalBlock length : ℕ)
    (r : Except StreamError (List UdfExtent)) : Prop :=
  match r with
  | .ok extents => extents.flatMap sources = span (byteOf (phys p)) (logicalBlock * blockSize) length ∧
      (extents.map UdfExtent.length).sum = length ∧ (∀ e ∈ extents, Inside imageLength e) ∧
      Accepts imageLength p logicalBlock length
  | .error _ => ¬ Accepts imageLength p logicalBlock length

section
variable {imageLength : ℕ} {p : Partition} {logicalBlock length : ℕ}

theorem physical_translated {start : UInt32} (hp : p.mapping = .physical start)
    (wf : WellFormed imageLength p)
    (hrange : logicalBlock + blocksOf length ≤ p.blocks.toNat) :
    Translated imageLength p logicalBlock length
      (physicalPartitionExtent imageLength start.toNat logicalBlock length) := by
  have hblocks := toNat_lt p.blocks
  have hstart := toNat_lt start
  have hend : (start.toNat + p.blocks.toNat) * blockSize ≤ imageLength := by
    unfold WellFormed at wf
    rwa [hp] at wf
  have hphys : phys p = fun k => some (start.toNat + k) := by
    funext k
    unfold phys
    rw [hp]
  have hspan : logicalBlock * blockSize + length ≤ p.blocks.toNat * blockSize := by
    unfold blocksOf at hrange
    unfold blockSize at hrange ⊢
    omega
  have hle : (start.toNat + logicalBlock) * blockSize + length ≤ imageLength := by
    rw [Nat.add_mul] at hend ⊢
    omega
  have hmax : (start.toNat + logicalBlock) * blockSize + length ≤ u64Max := by
    unfold blocksOf at hrange
    unfold blockSize at hrange ⊢
    unfold u32Max at hblocks hstart
    unfold u64Max
    omega
  have hadd := checkedAdd_of_le (a := start.toNat) (b := logicalBlock)
    (by unfold blockSize at hmax; omega)
  unfold physicalPartitionExtent
  rw [hadd, okOr_some, ok_bind, checkedMul_of_le (by omega), okOr_some, ok_bind,
    checkedAdd_of_le hmax]
  simp only [if_neg (show ¬ imageLength < (start.toNat + logicalBlock) * blockSize + length by omega)]
  refine ⟨?_, by simp, ?_, hrange, ?_, fun i hi => ?_⟩
  · rw [List.flatMap_cons, List.flatMap_nil, List.append_nil, hphys]
    exact sources_eq_span fun i _ => byteOf_physical ..
  · rintro e (_ | ⟨_, ⟨⟩⟩) offset ⟨⟩
    exact hle
  · rw [hp]
    nofun
  · unfold Has
    rw [hp, hphys]
    exact ⟨_, byteOf_physical .., by omega⟩

/-- A loop that serves the bytes of a partition translates the request. -/
theorem serve_translated {σ : Type} {round : σ → ℕ → Except StreamError (UdfExtent × σ)}
    (pos : σ → ℕ) (Inv : σ → ℕ → Prop) {s : σ} {fuel : ℕ}
    (h : Serves round UdfExtent.length sources (byteOf (phys p)) pos Inv
      (Has imageLength p) (Inside imageLength))
    (hrange : logicalBlock + blocksOf length ≤ p.blocks.toNat)
    (hfile : ∀ m, p.mapping = .metadata m → ∃ file, m.file = .ok file)
    (hpos : pos s = logicalBlock * blockSize) (hinv : Inv s length) (hfuel : length ≤ fuel) :
    ∃ r, serve round UdfExtent.length fuel s length = some r ∧
      Translated imageLength p logicalBlock length r := by
  rcases h.serve (s := s) hfuel (fun _ => hinv) with
    ⟨extents, hserve, hspan, hsum, hall, hhas⟩ | ⟨e, hserve, i, hi, hbad⟩
  · rw [hpos] at hspan hhas
    exact ⟨_, hserve, hspan, hsum, hall, hrange, hfile, hhas⟩
  · rw [hpos] at hbad
    exact ⟨_, hserve, fun haccept => hbad (haccept.has i hi)⟩

/-- Every translation ends, and gives what it has to. -/
theorem partitionExtentsIn_translated (wf : WellFormed imageLength p) {fuel : ℕ}
    (hfuel : length ≤ fuel) :
    ∃ r, partitionExtentsIn imageLength fuel p logicalBlock length = some r ∧
      Translated imageLength p logicalBlock length r := by
  have hblocks := toNat_lt p.blocks
  unfold partitionExtentsIn
  rw [validatePartitionExtent_eq]
  by_cases hrange : logicalBlock + blocksOf length ≤ p.blocks.toNat
  · rw [if_pos hrange]
    cases hp : p.mapping with
    | physical start => exact ⟨_, rfl, physical_translated hp wf hrange⟩
    | sparable s =>
      have hphys : phys p = fun k => some (sparableBlock s k) := by
        funext k
        unfold phys
        rw [hp]
      refine serve_translated (· * blockSize)
        (fun k n => k + blocksOf n ≤ u32Max) ?_ hrange (by rw [hp]; nofun) rfl
        (hrange.trans hblocks) hfuel
      rw [hphys]
      have hhas : Has imageLength p = fun position =>
          ∃ offset, byteOf (fun k => some (sparableBlock s k)) position = some offset ∧
            offset < imageLength := by
        funext position
        unfold Has
        rw [hp, hphys]
      rw [hhas]
      exact serves_sparable s imageLength
    | virtual v =>
      have hphys : phys p = virtualBlock v := by
        funext k
        unfold phys
        rw [hp]
      refine serve_translated (· * blockSize)
        (fun k n => k + blocksOf n ≤ u32Max) ?_ hrange (by rw [hp]; nofun) rfl
        (hrange.trans hblocks) hfuel
      rw [hphys]
      have hhas : Has imageLength p = fun position =>
          ∃ block, virtualBlock v (position / blockSize) = some block ∧
            block * blockSize + blockSize ≤ imageLength := by
        funext position
        unfold Has
        rw [hp]
      rw [hhas]
      exact serves_virtual v imageLength
    | metadata m =>
      have hmul := checkedMul_of_le (a := logicalBlock) (b := blockSize)
        (by unfold u64Max u32Max blockSize at *; omega)
      dsimp only
      unfold metadataPartitionExtents
      cases hfile : m.file with
      | error e =>
        refine ⟨_, rfl, fun haccept => ?_⟩
        obtain ⟨file, hf⟩ := haccept.file m hp
        rw [hfile] at hf
        cases hf
      | ok file =>
        have hphys : phys p = fileBlock file := by
          funext k
          unfold phys
          rw [hp]
          simp only [hfile]
          rfl
        have hplaced : Placed file imageLength := by
          unfold WellFormed at wf
          rw [hp] at wf
          exact ⟨wf.1, wf.2 file hfile⟩
        have hhas : Has imageLength p = fun position =>
            position / blockSize < (fileBlocks file).length := by
          funext position
          unfold Has
          rw [hp]
          simp only [hfile, Except.ok.injEq, exists_eq_left']
        simp only [hmul]
        refine serve_translated id
          (fun offset n => offset + n ≤ u32Max * blockSize) ?_ hrange ?_ rfl ?_ hfuel
        · rw [hphys, hhas]
          exact serves_metadata hplaced
        · rintro m' hm'
          rw [hp] at hm'
          cases hm'
          exact ⟨file, hfile⟩
        · unfold blocksOf u32Max blockSize at *
          omega
  · rw [if_neg hrange]
    exact ⟨_, rfl, fun haccept => hrange haccept.range⟩

theorem partitionExtents_translated (wf : WellFormed imageLength p) :
    Translated imageLength p logicalBlock length
      (partitionExtents imageLength p logicalBlock length) := by
  obtain ⟨r, hr, htranslated⟩ : ∃ r, partitionExtentsIn imageLength length p logicalBlock length =
      some r ∧ Translated imageLength p logicalBlock length r :=
    partitionExtentsIn_translated wf le_rfl
  rw [partitionExtentsIn_eq le_rfl] at hr
  cases hr
  exact htranslated

/-- A request is accepted exactly if it can be served. -/
theorem accepts_iff (wf : WellFormed imageLength p) :
    (∃ extents, partitionExtents imageLength p logicalBlock length = .ok extents) ↔
      Accepts imageLength p logicalBlock length := by
  have h : Translated imageLength p logicalBlock length _ := partitionExtents_translated wf
  cases hr : partitionExtents imageLength p logicalBlock length with
  | ok extents =>
    rw [hr] at h
    exact ⟨fun _ => h.2.2.2, fun _ => ⟨extents, rfl⟩⟩
  | error e =>
    rw [hr] at h
    exact ⟨nofun, fun haccept => absurd haccept h⟩

/-- **Cutting at a block boundary**: the whole can be served if and only if the parts can. -/
theorem accepts_cut {k : ℕ} (hk : k * blockSize ≤ length) :
    Accepts imageLength p logicalBlock length ↔
      Accepts imageLength p logicalBlock (k * blockSize) ∧
        Accepts imageLength p (logicalBlock + k) (length - k * blockSize) := by
  have hblocks : blocksOf length = k + blocksOf (length - k * blockSize) := by
    rw [← blocksOf_add_mul, Nat.add_sub_cancel' hk]
  have hfront : blocksOf (k * blockSize) = k := by
    unfold blocksOf blockSize
    omega
  constructor
  · rintro ⟨hrange, hfile, hhas⟩
    refine ⟨⟨by omega, hfile, fun i hi => hhas i (by omega)⟩, by omega, hfile, fun i hi => ?_⟩
    rw [Nat.add_mul, Nat.add_assoc]
    exact hhas _ (by omega)
  · rintro ⟨⟨-, hfile, hfront⟩, hrange, -, hback⟩
    refine ⟨by omega, hfile, fun i hi => ?_⟩
    by_cases hlt : i < k * blockSize
    · exact hfront i hlt
    · have := hback (i - k * blockSize) (by omega)
      rwa [Nat.add_mul, Nat.add_assoc, Nat.add_sub_cancel' (by omega)] at this

/-! ### One block -/

/-- A request for one block that is accepted gives one extent. -/
theorem one_block {extents : List UdfExtent}
    (h : partitionExtents imageLength p logicalBlock blockSize = .ok extents) :
    ∃ e, extents = [e] ∧ e.length = blockSize := by
  have hin : partitionExtentsIn imageLength blockSize p logicalBlock blockSize = some _ :=
    partitionExtentsIn_eq (le_refl blockSize)
  rw [h] at hin
  unfold partitionExtentsIn at hin
  cases hvalid : validatePartitionExtent p logicalBlock blockSize with
  | error e => rw [hvalid] at hin; cases hin
  | ok _ =>
    rw [hvalid] at hin
    cases hp : p.mapping with
    | physical start =>
      rw [hp] at hin
      dsimp only at hin
      unfold physicalPartitionExtent at hin
      obtain ⟨block, -, hin⟩ := bind_eq_ok.mp (Option.some.inj hin)
      obtain ⟨offset, -, hin⟩ := bind_eq_ok.mp hin
      cases hstop : checkedAdd offset blockSize with
      | none => simp only [hstop] at hin; cases hin
      | some stop =>
        simp only [hstop] at hin
        split_ifs at hin
        cases hin
        exact ⟨_, rfl, rfl⟩
    | sparable s =>
      rw [hp] at hin
      refine serve_one (by decide) (fun e next hround => ?_) hin
      have hlt := Nat.mod_lt logicalBlock s.packetBlocks_pos
      rw [sparableRound_length hround]
      unfold blockSize
      omega
    | virtual v =>
      rw [hp] at hin
      refine serve_one (by decide) (fun e next hround => ?_) hin
      rw [virtualRound_length hround, min_self]
    | metadata m =>
      rw [hp] at hin
      dsimp only at hin
      unfold metadataPartitionExtents at hin
      cases hfile : m.file with
      | error e => rw [hfile] at hin; cases hin
      | ok file =>
        rw [hfile] at hin
        cases hoffset : checkedMul logicalBlock blockSize with
        | none => rw [hoffset] at hin; cases hin
        | some offset =>
          rw [hoffset] at hin
          obtain ⟨rfl, -⟩ := checkedMul_eq_some.mp hoffset
          refine serve_one (by decide) (fun e next hround => ?_) hin
          obtain ⟨x, hfind, hholds, hlength⟩ := metadataRound_length hround
          rw [hlength]
          unfold MetadataFileExtent.holds at hholds
          rw [decide_eq_true_eq] at hholds
          obtain ⟨hin, hlo, hlen, -, -⟩ := find_blocks file.consecutive (Nat.dvd_zero _)
            (Nat.zero_le _) (by omega) hfind
          unfold blockSize at *
          omega

end

/-! ### The results together -/

/-- **An exact translation** of the request for `length` bytes from a logical block on. -/
structure Exact (image : List Byte) (p : Partition) (logicalBlock length : ℕ) : Prop where
  /-- The loop ends, and more rounds change nothing. -/
  ends : ∀ fuel, length ≤ fuel → partitionExtentsIn image.length fuel p logicalBlock length =
    some (partitionExtents image.length p logicalBlock length)
  /-- The lengths sum up to the request, no extent leaves the image, and each byte is where its
  block is. -/
  bytes : ∀ extents, partitionExtents image.length p logicalBlock length = .ok extents →
    (extents.map UdfExtent.length).sum = length ∧
    (∀ e ∈ extents, ∀ offset, e.sourceOffset = some offset → offset + e.length ≤ image.length) ∧
    extents.flatMap sources = (List.range length).map fun i =>
      (phys p (logicalBlock + i / 2048)).map fun block => block * 2048 + i % 2048
  /-- Cut at any block boundary, the request gives the same bytes. -/
  cut : ∀ k, k * 2048 ≤ length →
    ((∃ whole, partitionExtents image.length p logicalBlock length = .ok whole) ↔
      (∃ front, partitionExtents image.length p logicalBlock (k * 2048) = .ok front) ∧
      ∃ back, partitionExtents image.length p (logicalBlock + k) (length - k * 2048) = .ok back) ∧
    ∀ whole front back, partitionExtents image.length p logicalBlock length = .ok whole →
      partitionExtents image.length p logicalBlock (k * 2048) = .ok front →
      partitionExtents image.length p (logicalBlock + k) (length - k * 2048) = .ok back →
      whole.flatMap sources = front.flatMap sources ++ back.flatMap sources
  /-- The block that is read is the one that is mapped: nothing crosses a mapping boundary. -/
  block : ∀ (partitions : List Partition) reference, partitions[reference]? = some p →
    readPartitionBlock image partitions reference logicalBlock =
      match partitionExtents image.length p logicalBlock 2048, phys p logicalBlock with
      | .error e, _ => .error e
      | .ok _, none => .error
          (udfError .malformed "referenced UDF Metadata Partition block is unallocated")
      | .ok _, some block => .ok ((image.drop (block * 2048)).take 2048)

theorem byteOf_add (phys : ℕ → Option ℕ) (logicalBlock length : ℕ) :
    span (byteOf phys) (logicalBlock * blockSize) length = (List.range length).map fun i =>
      (phys (logicalBlock + i / 2048)).map fun block => block * 2048 + i % 2048 := by
  refine List.map_congr_left fun i _ => ?_
  have hdiv : (logicalBlock * blockSize + i) / blockSize = logicalBlock + i / 2048 := by
    unfold blockSize
    omega
  have hmod : (logicalBlock * blockSize + i) % blockSize = i % 2048 := by
    unfold blockSize
    omega
  unfold byteOf
  rw [hdiv, hmod]
  rfl

/-- **The translation is exact** for each kind of partition. -/
theorem exact_translation (image : List Byte) (p : Partition) (wf : WellFormed image.length p)
    (logicalBlock length : ℕ) : Exact image p logicalBlock length := by
  have hspec : ∀ {b n : ℕ} {extents : List UdfExtent},
      partitionExtents image.length p b n = .ok extents →
      extents.flatMap sources = span (byteOf (phys p)) (b * blockSize) n ∧
      (extents.map UdfExtent.length).sum = n ∧ (∀ e ∈ extents, Inside image.length e) ∧
      Accepts image.length p b n := by
    intro b n extents h
    have htranslated : Translated image.length p b n _ := partitionExtents_translated wf
    rw [h] at htranslated
    exact htranslated
  refine ⟨fun fuel h => partitionExtentsIn_eq h, fun extents h => ?_, fun k hk => ⟨?_, ?_⟩, ?_⟩
  · obtain ⟨hspan, hsum, hinside, -⟩ := hspec h
    exact ⟨hsum, hinside, hspan.trans (byteOf_add ..)⟩
  · rw [accepts_iff wf, accepts_iff wf, accepts_iff wf]
    exact accepts_cut hk
  · intro whole front back hwhole hfront hback
    rw [(hspec hwhole).1, (hspec hfront).1, (hspec hback).1]
    obtain ⟨rest, rfl⟩ := Nat.exists_eq_add_of_le hk
    rw [Nat.add_sub_cancel_left, Nat.add_mul]
    exact span_add ..
  · intro partitions reference hp
    unfold readPartitionBlock partitionAt
    rw [hp, okOr_some, ok_bind]
    change (partitionExtents image.length p logicalBlock 2048 >>= _) = _
    cases h : partitionExtents image.length p logicalBlock 2048 with
    | error e => rfl
    | ok extents =>
      obtain ⟨e, rfl, hlength⟩ := one_block h
      obtain ⟨hspan, -, hinside, -⟩ := hspec h
      have hsource : e.sourceOffset = (phys p logicalBlock).map (· * blockSize) := by
        have hhead := congrArg (·[0]?) hspan
        rw [List.flatMap_cons, List.flatMap_nil, List.append_nil] at hhead
        simp only [sources, getElem?_span, hlength] at hhead
        rw [if_pos (by decide), if_pos (by decide), Option.some.injEq] at hhead
        simpa [byteOf, blockSize] using hhead
      rw [ok_bind, List.head?_cons, okOr_some, ok_bind, if_neg (by simp [hlength])]
      cases hphys : phys p logicalBlock with
      | none =>
        rw [hsource, hphys]
        rfl
      | some block =>
        rw [hphys] at hsource
        have hle := hinside e (List.mem_cons_self ..) _ hsource
        rw [hsource, Option.map_some, okOr_some]
        rw [hlength] at hle
        exact if_pos hle

theorem exact_translation_physical :
    Exact (List.replicate 4096 7) ⟨1, .physical 1⟩ 0 2048 :=
  exact_translation _ _ (by
    rw [List.length_replicate]
    change (1 + 1) * 2048 ≤ 4096
    decide) 0 2048

end LibarchiveOxide.Udf.Exactness
