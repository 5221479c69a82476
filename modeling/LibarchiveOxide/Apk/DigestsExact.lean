import LibarchiveOxide.Apk.Coverage
import LibarchiveOxide.Apk.Digests

/-! # The chunked digests are exact

Every section feeds the digests of its chunks (`fed`), whatever the size of the read buffer, and their
number agrees with the one that was hashed first. -/

namespace LibarchiveOxide.Apk.DigestsExact

open Core.Failure Core.Budget Lib.Result Lib.LittleEndian Lib.Chunks Lib.Slice Apk.Cursor
open Apk.Digests Apk.Signing Apk.Schemes Apk.Rotation Apk.Coverage

/-! ### What the digests are -/

/-- The digest of a chunk. -/
def chunkDigest (hash : List Byte → List Byte) (chunk : List Byte) : List Byte :=
  hash (0xa5 :: leBytes 4 chunk.length ++ chunk)

/-- The digest over chunks. -/
def contentDigest (hash : List Byte → List Byte) (cs : List (List Byte)) : List Byte :=
  hash (0x5a :: leBytes 4 cs.length ++ (cs.map (chunkDigest hash)).flatten)

/-- The end record that is hashed. -/
def endRecord (layout : ApkLayout) : List Byte :=
  splice layout.eocd 16 (leBytes 4 layout.blockStart)

/-- The chunks of the three sections. -/
def contentChunks (file : List Byte) (layout : ApkLayout) : List (List Byte) :=
  chunks CHUNK_SIZE (window file 0 layout.blockStart) ++
    chunks CHUNK_SIZE (window file layout.centralOffset layout.eocdOffset) ++
    chunks CHUNK_SIZE (endRecord layout)

/-- **A layout that can be hashed**: its sections lie in the file, the sizes are those of a ZIP without
extensions, and the budget allows for them. -/
structure Coverable (file : List Byte) (layout : ApkLayout) (limits : Limits) : Prop where
  ordered : layout.centralOffset ≤ layout.eocdOffset
  entries : layout.blockStart ≤ file.length
  central : layout.centralOffset = layout.eocdOffset ∨ layout.eocdOffset ≤ file.length
  budget : exceeds (layout.blockStart + (layout.eocdOffset - layout.centralOffset) +
    layout.eocd.length) limits.decodedTotal = false
  count : (contentChunks file layout).length ≤ u32Max
  buffer : limits.inFlightBytes ≠ some 0
  zip32 : layout.blockStart ≤ u32Max
  record : 20 ≤ layout.eocd.length

/-! ### Hashers -/

variable (x : Hashes)

/-- The hashers after the digests of some chunks. -/
def fed (top : Hashers) (cs : List (List Byte)) : Hashers :=
  ⟨top.sha256.map (· ++ (cs.map (chunkDigest x.sha256)).flatten),
    top.sha512.map (· ++ (cs.map (chunkDigest x.sha512)).flatten)⟩

theorem fed_nil (top : Hashers) : fed x top [] = top := by
  unfold fed
  simp

theorem finishOne_chunk (hash : List Byte → List Byte) (top : Option (List Byte)) (c : List Byte) :
    finishOne hash ((((top.map fun _ => []).map (· ++ [0xa5])).map (· ++ leBytes 4 c.length)).map
      (· ++ c)) top = top.map (· ++ chunkDigest hash c) := by
  cases top with
  | none => rfl
  | some top => rfl

theorem fed_cons (top : Hashers) (c : List Byte) (cs : List (List Byte)) :
    fed x (finishChunk x ((updateChunkHeader top.chunk c.length).update c) top) cs =
      fed x top (c :: cs) := by
  unfold fed finishChunk updateChunkHeader Hashers.update Hashers.chunk
  dsimp only
  rw [finishOne_chunk, finishOne_chunk, Option.map_map, Option.map_map]
  congr 1
  · cases top.sha256 with
    | none => rfl
    | some b => simp
  · cases top.sha512 with
    | none => rfl
    | some b => simp

theorem fed_append (top : Hashers) (cs cs' : List (List Byte)) :
    fed x (fed x top cs) cs' = fed x top (cs ++ cs') := by
  unfold fed
  dsimp only
  rw [Option.map_map, Option.map_map]
  congr 1
  · cases top.sha256 with
    | none => rfl
    | some b => simp
  · cases top.sha512 with
    | none => rfl
    | some b => simp

variable {x}

theorem update_update (h : Hashers) (a b : List Byte) : (h.update a).update b = h.update (a ++ b) := by
  unfold Hashers.update
  dsimp only
  rw [Option.map_map, Option.map_map]
  congr 1
  · cases h.sha256 with
    | none => rfl
    | some c => simp
  · cases h.sha512 with
    | none => rfl
    | some c => simp

theorem update_nil (h : Hashers) : h.update [] = h := by
  unfold Hashers.update
  simp

/-! ### Sections of the file -/

variable {file : List Byte} {offset length : ℕ}

/-- **A chunk is read whole**, in pieces of any size, or the file is too short for it. -/
theorem readChunk_spec (bufferSize : ℕ+) : ∀ {fuel n : ℕ} {chunk : Hashers} {input : List Byte},
    n ≤ fuel →
    (n ≤ input.length →
      readChunk bufferSize fuel chunk input n = some (.ok (chunk.update (input.take n), input.drop n))) ∧
    (input.length < n → ∃ e, readChunk bufferSize fuel chunk input n = some (.error e))
  | _, 0, chunk, input, _ => by
    refine ⟨fun _ => ?_, fun h => nomatch h⟩
    rw [readChunk, List.take_zero, update_nil, List.drop_zero]
  | 0, _ + 1, _, _, h => nomatch h
  | fuel + 1, n + 1, chunk, input, hfuel => by
    have hpos := bufferSize.pos
    rw [readChunk]
    generalize htake : min (n + 1) (bufferSize : ℕ) = take
    obtain ⟨hfits, hshort⟩ := @readChunk_spec bufferSize fuel (n + 1 - take)
      (chunk.update (input.take take)) (input.drop take) (by omega)
    rw [List.length_drop] at hfits hshort
    constructor
    · intro hle
      rw [if_neg (by omega), hfits (by omega), update_update, List.drop_drop, ← List.take_add]
      have hsum : take + (n + 1 - take) = n + 1 := by omega
      rw [hsum]
    · intro hlt
      by_cases hnow : input.length < take
      · rw [if_pos hnow]
        exact ⟨_, rfl⟩
      · rw [if_neg hnow]
        exact hshort (by omega)

theorem readWhole_spec (bufferSize : ℕ+) {n : ℕ} {chunk : Hashers} {input : List Byte} :
    (n ≤ input.length →
      readWhole bufferSize chunk input n = .ok (chunk.update (input.take n), input.drop n)) ∧
    (input.length < n → ∃ e, readWhole bufferSize chunk input n = .error e) := by
  obtain ⟨hfits, hshort⟩ := @readChunk_spec bufferSize n n chunk input le_rfl
  unfold readWhole
  constructor
  · intro hle
    simp only [hfits hle, Option.get_some]
  · intro hlt
    obtain ⟨e, he⟩ := hshort hlt
    simp only [he, Option.get_some]
    exact ⟨e, rfl⟩

theorem chunkSize_le : 0 < CHUNK_SIZE ∧ CHUNK_SIZE ≤ u32Max := by decide

/-- **A section feeds the digests of its chunks**, or the file is too short for it. -/
theorem sectionLoop_spec (bufferSize : ℕ+) : ∀ {fuel n : ℕ} {top : Hashers} {input : List Byte},
    n ≤ fuel →
    (n ≤ input.length → sectionLoop x bufferSize fuel top input n =
      some (.ok (fed x top (chunks CHUNK_SIZE (input.take n))))) ∧
    (input.length < n → ∃ e, sectionLoop x bufferSize fuel top input n = some (.error e))
  | _, 0, top, input, _ => by
    refine ⟨fun _ => ?_, fun h => nomatch h⟩
    rw [sectionLoop, List.take_zero, chunks_nil, fed_nil]
  | 0, _ + 1, _, _, h => nomatch h
  | fuel + 1, n + 1, top, input, hfuel => by
    obtain ⟨hsize, hsmall⟩ := chunkSize_le
    rw [sectionLoop]
    generalize hlength : min (n + 1) CHUNK_SIZE = length
    rw [if_neg (by omega)]
    obtain ⟨hread, hfail⟩ := @readWhole_spec bufferSize length (updateChunkHeader top.chunk length)
      input
    constructor
    · intro hle
      have hchunk : (input.take length).length = length := by
        rw [List.length_take]
        omega
      have htake : (input.take (n + 1)).take CHUNK_SIZE = input.take length := by
        rw [List.take_take, min_comm, hlength]
      have hdrop : (input.take (n + 1)).drop CHUNK_SIZE = (input.drop length).take (n + 1 - length) := by
        rw [List.drop_take]
        rcases le_total CHUNK_SIZE (n + 1) with hcase | hcase
        · have : length = CHUNK_SIZE := by omega
          rw [this]
        · have h1 : n + 1 - CHUNK_SIZE = 0 := by omega
          have h2 : n + 1 - length = 0 := by omega
          rw [h1, h2, List.take_zero, List.take_zero]
      have hne : input.take (n + 1) ≠ [] := by
        refine List.length_pos_iff.mp ?_
        rw [List.length_take]
        omega
      have hcons := fed_cons x top (input.take length)
        (chunks CHUNK_SIZE ((input.drop length).take (n + 1 - length)))
      rw [hchunk] at hcons
      rw [hread (by omega)]
      dsimp only
      rw [(sectionLoop_spec bufferSize (by omega)).1 (by rw [List.length_drop]; omega), hcons,
        chunks_cons hsize hne, htake, hdrop]
    · intro hlt
      by_cases hnow : input.length < length
      · obtain ⟨e, he⟩ := hfail hnow
        rw [he]
        exact ⟨e, rfl⟩
      · rw [hread (by omega)]
        exact (sectionLoop_spec bufferSize (by omega)).2 (by rw [List.length_drop]; omega)

/-- A section of the file, with a read buffer of any size. -/
theorem hashReaderSection_spec {limits : Limits} {top : Hashers}
    (hinFlight : limits.inFlightBytes ≠ some 0) :
    (length ≤ file.length - offset → hashReaderSection x file offset length limits top =
      .ok (fed x top (chunks CHUNK_SIZE (window file offset (offset + length))))) ∧
    (file.length - offset < length →
      ∃ e, hashReaderSection x file offset length limits top = .error e) := by
  have hpositive : limits.inFlightBytes.getD (64 * 1024) ≠ 0 := by
    cases hlimit : limits.inFlightBytes with
    | none => decide
    | some limit =>
      rw [hlimit] at hinFlight
      exact fun hzero => hinFlight (congrArg some hzero)
  obtain ⟨hfits, hshort⟩ := @sectionLoop_spec x
    ⟨min (limits.inFlightBytes.getD (64 * 1024)) (64 * 1024), by omega⟩ length length top
    (file.drop offset) le_rfl
  rw [List.length_drop] at hfits hshort
  unfold hashReaderSection window
  dsimp only
  rw [dif_neg hpositive, Nat.add_sub_cancel_left]
  constructor
  · intro hle
    simp only [hfits hle, Option.get_some]
  · intro hlt
    obtain ⟨e, he⟩ := hshort hlt
    simp only [he, Option.get_some]
    exact ⟨e, rfl⟩

/-- What a section that was hashed says about the file. -/
theorem hashReaderSection_ok {limits : Limits} {top after : Hashers}
    (h : hashReaderSection x file offset length limits top = .ok after) :
    limits.inFlightBytes ≠ some 0 ∧ length ≤ file.length - offset ∧
      after = fed x top (chunks CHUNK_SIZE (window file offset (offset + length))) := by
  have hbuffer : limits.inFlightBytes ≠ some 0 := by
    intro hzero
    unfold hashReaderSection at h
    dsimp only at h
    rw [dif_pos (by rw [hzero]; rfl)] at h
    cases h
  obtain ⟨hfits, hshort⟩ := @hashReaderSection_spec x file offset length limits top hbuffer
  by_cases hle : length ≤ file.length - offset
  · rw [hfits hle] at h
    exact ⟨hbuffer, hle, (Except.ok.inj h).symm⟩
  · obtain ⟨e, he⟩ := hshort (not_le.mp hle)
    rw [he] at h
    cases h

/-! ### The end record -/

variable {bytes : List Byte} {layout : ApkLayout}

/-- The piece of some bytes in memory that begins at an offset. -/
theorem window_endOf {size : ℕ} (hmax : bytes.length ≤ u64Max) (h : offset < bytes.length) :
    window bytes offset (endOf size bytes offset) = (bytes.drop offset).take size ∧
      bytes.drop (endOf size bytes offset) = (bytes.drop offset).drop size := by
  unfold window endOf
  by_cases hadd : offset + size ≤ u64Max
  · rw [checkedAdd_of_le hadd]
    dsimp only
    rw [List.drop_drop]
    rcases le_total (offset + size) bytes.length with hle | hle
    · rw [min_eq_left hle, Nat.add_sub_cancel_left]
      exact ⟨rfl, rfl⟩
    · rw [min_eq_right hle, List.take_of_length_le (by rw [List.length_drop]),
        List.take_of_length_le (by rw [List.length_drop]; omega), List.drop_length,
        List.drop_eq_nil_of_le hle]
      exact ⟨rfl, rfl⟩
  · have hend : bytes.drop (offset + size) = [] := List.drop_eq_nil_of_le (by omega)
    rw [checkedAdd, if_neg hadd]
    dsimp only
    rw [List.drop_drop, List.take_of_length_le (by rw [List.length_drop]),
      List.take_of_length_le (by rw [List.length_drop]; omega), List.drop_length, hend]
    exact ⟨rfl, rfl⟩

/-- The chunk of some bytes in memory that begins at an offset. -/
theorem window_chunkEnd (hmax : bytes.length ≤ u64Max) (h : offset < bytes.length) :
    window bytes offset (chunkEnd bytes offset) = (bytes.drop offset).take CHUNK_SIZE ∧
      bytes.drop (chunkEnd bytes offset) = (bytes.drop offset).drop CHUNK_SIZE :=
  window_endOf hmax h

theorem memoryLoop_spec (hmax : bytes.length ≤ u64Max) :
    ∀ {fuel offset : ℕ} {top : Hashers}, bytes.length - offset ≤ fuel →
    memoryLoop x bytes fuel top offset =
      some (.ok (fed x top (chunks CHUNK_SIZE (bytes.drop offset)))) := by
  obtain ⟨hsize, hsmall⟩ := chunkSize_le
  intro fuel
  induction fuel with
  | zero =>
    intro offset top h
    rw [memoryLoop, if_neg (by omega), List.drop_eq_nil_of_le (by omega), chunks_nil, fed_nil]
  | succ fuel ih =>
    intro offset top h
    rw [memoryLoop]
    by_cases hmore : offset < bytes.length
    · obtain ⟨hchunk, hrest⟩ := window_chunkEnd hmax hmore
      have hnext := lt_chunkEnd hmore
      have hne : bytes.drop offset ≠ [] := by
        refine List.length_pos_iff.mp ?_
        rw [List.length_drop]
        omega
      rw [if_pos hmore]
      dsimp only
      rw [hchunk, if_neg (by rw [List.length_take]; omega), ih (by omega), fed_cons, hrest,
        ← chunks_cons hsize hne]
    · rw [if_neg hmore, List.drop_eq_nil_of_le (by omega), chunks_nil, fed_nil]

theorem hashMemorySection_spec {top : Hashers} (hmax : bytes.length ≤ u64Max) :
    hashMemorySection x bytes top = .ok (fed x top (chunks CHUNK_SIZE bytes)) := by
  have hloop : memoryLoop x bytes bytes.length top 0 = _ := memoryLoop_spec hmax (Nat.sub_le ..)
  unfold hashMemorySection
  simp only [hloop, Option.get_some, List.drop_zero]

theorem patchedEocd_eq_ok :
    patchedEocd layout = .ok bytes ↔
      layout.blockStart ≤ u32Max ∧ 20 ≤ layout.eocd.length ∧ bytes = endRecord layout := by
  unfold patchedEocd endRecord
  constructor
  · intro h
    obtain ⟨hzip, h⟩ := guard_eq_ok.mp h
    obtain ⟨hshort, h⟩ := guard_eq_ok.mp h
    cases h
    exact ⟨not_lt.mp hzip, not_lt.mp hshort, rfl⟩
  · rintro ⟨hzip, hrecord, rfl⟩
    rw [if_neg (by omega), if_neg (by omega)]

theorem length_endRecord (h : 20 ≤ layout.eocd.length) :
    (endRecord layout).length = layout.eocd.length := by
  unfold endRecord
  exact length_splice (by rw [length_leBytes]; omega)

/-! ### The number of chunks -/

/-- The number of chunks of so many bytes. -/
def countOf (length : ℕ) : ℕ := (length + (CHUNK_SIZE - 1)) / CHUNK_SIZE

theorem countOf_zero : countOf 0 = 0 := by
  unfold countOf CHUNK_SIZE
  norm_num

theorem le_countOf (length : ℕ) : length ≤ countOf length * 2 ^ 20 := by
  unfold countOf CHUNK_SIZE
  omega

theorem chunkCount_of_le (h : countOf length ≤ u32Max) :
    chunkCount length = .ok (countOf length) := by
  unfold chunkCount
  by_cases hzero : length = 0
  · rw [if_pos hzero, hzero, countOf_zero]
  · unfold countOf at h ⊢
    have hbound : length + (CHUNK_SIZE - 1) ≤ u64Max := by
      unfold CHUNK_SIZE u32Max at h
      unfold CHUNK_SIZE u64Max
      omega
    rw [if_neg hzero, checkedAdd_of_le hbound, okOr_some, ok_bind]

theorem chunkCount_eq_ok {n : ℕ} (h : chunkCount length = .ok n) : n = countOf length := by
  unfold chunkCount at h
  by_cases hzero : length = 0
  · rw [if_pos hzero] at h
    rw [hzero, countOf_zero]
    exact (Except.ok.inj h).symm
  · rw [if_neg hzero] at h
    obtain ⟨sum, hsum, h⟩ := bind_eq_ok.mp h
    obtain ⟨rfl, -⟩ := checkedAdd_eq_some.mp (okOr_eq_ok.mp hsum)
    exact (Except.ok.inj h).symm

/-- **All chunks are counted**, if a `u32` has room for them. -/
theorem allChunks_eq_ok {first central eocd n : ℕ} : allChunks first central eocd = .ok n ↔
    n = countOf first + countOf central + countOf eocd ∧ n ≤ u32Max := by
  unfold allChunks
  constructor
  · intro h
    obtain ⟨c₁, h₁, h⟩ := bind_eq_ok.mp h
    obtain ⟨c₂, h₂, h⟩ := bind_eq_ok.mp h
    obtain ⟨total, htotal, h⟩ := bind_eq_ok.mp h
    obtain ⟨hfits, h⟩ := guard_eq_ok.mp h
    cases h
    obtain ⟨value, hvalue, h⟩ := Option.bind_eq_some_iff.mp (okOr_eq_ok.mp htotal)
    obtain ⟨c₃, h₃, hsum⟩ := Option.bind_eq_some_iff.mp h
    obtain ⟨rfl, -⟩ := checkedAdd_eq_some.mp hvalue
    obtain ⟨rfl, -⟩ := checkedAdd_eq_some.mp hsum
    have h₃ : chunkCount eocd = .ok c₃ := by
      cases hcount : chunkCount eocd with
      | error e => rw [hcount] at h₃; cases h₃
      | ok c => rw [hcount] at h₃; exact congrArg Except.ok (Option.some.inj h₃)
    rw [chunkCount_eq_ok h₁, chunkCount_eq_ok h₂, chunkCount_eq_ok h₃] at hfits ⊢
    exact ⟨rfl, not_lt.mp hfits⟩
  · rintro ⟨rfl, hfits⟩
    have hmax : u32Max ≤ u64Max := by
      unfold u32Max u64Max
      norm_num
    have hsum : ((checkedAdd (countOf first) (countOf central)).bind fun value =>
        (chunkCount eocd).toOption.bind fun c => checkedAdd value c) =
          some (countOf first + countOf central + countOf eocd) := by
      rw [checkedAdd_of_le (by omega), Option.bind_some, chunkCount_of_le (by omega),
        Except.toOption, Option.bind_some, checkedAdd_of_le (by omega)]
    rw [chunkCount_of_le (by omega), ok_bind, chunkCount_of_le (by omega), ok_bind, hsum, okOr_some,
      ok_bind, if_neg (by omega)]

theorem length_contentChunks (hentries : layout.blockStart ≤ file.length)
    (hcentral : layout.eocdOffset - layout.centralOffset ≤ file.length - layout.centralOffset)
    (hrecord : 20 ≤ layout.eocd.length) :
    (contentChunks file layout).length = countOf layout.blockStart +
      countOf (layout.eocdOffset - layout.centralOffset) + countOf layout.eocd.length := by
  have hfirst : (window file 0 layout.blockStart).length = layout.blockStart := by
    unfold window
    rw [List.length_take, List.length_drop]
    omega
  have hsecond : (window file layout.centralOffset layout.eocdOffset).length =
      layout.eocdOffset - layout.centralOffset := by
    unfold window
    rw [List.length_take, List.length_drop]
    omega
  unfold contentChunks
  rw [List.length_append, List.length_append, length_chunks, length_chunks, length_chunks, hfirst,
    hsecond, length_endRecord hrecord]
  rfl

/-! ### The digests -/

/-- The digests that are asked for, over chunks. -/
def digestsOf (x : Hashes) (r256 r512 : Bool) (cs : List (List Byte)) : ComputedDigests :=
  ⟨if r256 then some (contentDigest x.sha256 cs) else none,
    if r512 then some (contentDigest x.sha512 cs) else none⟩

theorem finished_fed (r256 r512 : Bool) (cs : List (List Byte)) :
    let top := fed x ⟨if r256 then some (0x5a :: leBytes 4 cs.length) else none,
      if r512 then some (0x5a :: leBytes 4 cs.length) else none⟩ cs
    (⟨top.sha256.map x.sha256, top.sha512.map x.sha512⟩ : ComputedDigests) =
      digestsOf x r256 r512 cs := by
  cases r256 <;> cases r512 <;> rfl

/-- **The digests are computed exactly for a layout that can be hashed**, over the chunks of its
sections. -/
theorem computeChunkedDigests_eq_ok {limits : Limits} {r256 r512 : Bool} {d : ComputedDigests}
    (hmax : layout.eocd.length ≤ u64Max) (hrequested : (r256 || r512) = true) :
    computeChunkedDigests x file layout limits r256 r512 = .ok d ↔
      Coverable file layout limits ∧ d = digestsOf x r256 r512 (contentChunks file layout) := by
  have hasked : ¬ (!r256 && !r512) = true := by
    cases r256 <;> cases r512 <;> simp_all
  have hmiddle (h : layout.centralOffset ≤ layout.eocdOffset) :
      layout.centralOffset + (layout.eocdOffset - layout.centralOffset) = layout.eocdOffset := by
    omega
  unfold computeChunkedDigests
  rw [if_neg hasked]
  constructor
  · intro h
    obtain ⟨hordered, h⟩ := guard_eq_ok.mp h
    obtain ⟨signed, hsigned, h⟩ := bind_eq_ok.mp h
    obtain ⟨hbudget, h⟩ := guard_eq_ok.mp h
    obtain ⟨count, hcount, h⟩ := bind_eq_ok.mp h
    obtain ⟨top₁, h₁, h⟩ := bind_eq_ok.mp h
    obtain ⟨top₂, h₂, h⟩ := bind_eq_ok.mp h
    obtain ⟨eocd, heocd, h⟩ := bind_eq_ok.mp h
    obtain ⟨top₃, h₃, h⟩ := bind_eq_ok.mp h
    obtain ⟨value, hvalue, hsigned⟩ := Option.bind_eq_some_iff.mp (okOr_eq_ok.mp hsigned)
    obtain ⟨rfl, -⟩ := checkedAdd_eq_some.mp hvalue
    obtain ⟨rfl, -⟩ := checkedAdd_eq_some.mp hsigned
    obtain ⟨hbuffer, hentries, rfl⟩ := hashReaderSection_ok h₁
    obtain ⟨-, hcentral, rfl⟩ := hashReaderSection_ok h₂
    obtain ⟨hzip, hrecord, rfl⟩ := patchedEocd_eq_ok.mp heocd
    rw [hashMemorySection_spec (by rw [length_endRecord hrecord]; exact hmax)] at h₃
    obtain ⟨rfl, hcount⟩ := allChunks_eq_ok.mp hcount
    have hcover := length_contentChunks hentries hcentral hrecord
    refine ⟨⟨by omega, hentries, by omega, by simpa using hbudget, by omega, hbuffer, hzip,
      hrecord⟩, ?_⟩
    obtain rfl := Except.ok.inj h₃
    obtain rfl := Except.ok.inj h
    rw [fed_append, fed_append, hmiddle (by omega), Nat.zero_add, ← hcover, ← List.append_assoc]
    exact finished_fed r256 r512 (contentChunks file layout)
  · rintro ⟨h, rfl⟩
    obtain ⟨hordered, hentries, hcentral, hbudget, hcount, hbuffer, hzip, hrecord⟩ := h
    have hmiddle := hmiddle hordered
    have hcentral : layout.eocdOffset - layout.centralOffset ≤
        file.length - layout.centralOffset := by omega
    have hcover := length_contentChunks hentries hcentral hrecord
    have hsigned : layout.blockStart + (layout.eocdOffset - layout.centralOffset) +
        layout.eocd.length ≤ u64Max := by
      have h₁ := le_countOf layout.blockStart
      have h₂ := le_countOf (layout.eocdOffset - layout.centralOffset)
      have h₃ := le_countOf layout.eocd.length
      rw [hcover] at hcount
      unfold u32Max at hcount
      unfold u64Max
      omega
    refine guard_eq_ok.mpr ⟨by omega, bind_eq_ok.mpr ⟨_, okOr_eq_ok.mpr ?_, guard_eq_ok.mpr
      ⟨by rw [hbudget]; exact Bool.false_ne_true, bind_eq_ok.mpr ⟨_, allChunks_eq_ok.mpr
        ⟨rfl, hcover ▸ hcount⟩, ?_⟩⟩⟩⟩
    · rw [checkedAdd_of_le (by omega), Option.bind_some, checkedAdd_of_le hsigned]
    · dsimp only
      rw [(hashReaderSection_spec hbuffer).1 (by omega), ok_bind,
        (hashReaderSection_spec hbuffer).1 hcentral, ok_bind,
        patchedEocd_eq_ok.mpr ⟨hzip, hrecord, rfl⟩, ok_bind,
        hashMemorySection_spec (by rw [length_endRecord hrecord]; exact hmax), ok_bind, fed_append,
        fed_append, hmiddle, Nat.zero_add, ← hcover, ← List.append_assoc]
      exact congrArg Except.ok (finished_fed r256 r512 (contentChunks file layout))

/-- **The digests of the content are exact, and an accepted signer binds every platform of its range
to them**: whatever the read buffer, digests are computed if and only if the sections can be hashed, and
then over the chunks of the sections; and on each platform the strongest digest that it knows is the
signed one, with a signature that has passed. -/
theorem content_digests_bind :
    (∀ (x : Hashes) (file : List Byte) (layout : ApkLayout) (limits : Limits) (r256 r512 : Bool)
      (d : ComputedDigests), layout.eocd.length ≤ u64Max → (r256 || r512) = true →
      (computeChunkedDigests x file layout limits r256 r512 = .ok d ↔
        Coverable file layout limits ∧ d = digestsOf x r256 r512 (contentChunks file layout))) ∧
    ∀ (Cert : Type) (x : Certificates Cert) (limits : Limits) (scheme : Scheme) (present : Present)
      (signer : List Byte) (e : SignerEvidence), verifySigner x limits scheme present signer = .ok e →
      ∃ signedData outerSdk signatures publicKey records digests values signedSdk attributes
        certificate,
        signerParts scheme signer = .ok (signedData, outerSdk, signatures, publicKey) ∧
        e.sdkRange = outerSdk ∧ parseSignatureRecords signatures = .ok records ∧
        parseSignedData scheme signedData = .ok (digests, values, signedSdk, attributes) ∧
        parseFirstCertificate x limits values = .ok (certificate, e.certificateDer) ∧
        ∀ level, (checkedRange e).1 ≤ level → level ≤ (checkedRange e).2 →
          ∃ kind, Binds x certificate signedData records digests e level kind :=
  ⟨fun _ _ _ _ _ _ _ hmax hrequested => computeChunkedDigests_eq_ok hmax hrequested,
    fun _ _ _ _ _ _ _ h => binds_of_verifySigner h⟩

/-- A file of entries, a signing block and a central directory. -/
def smallApk : List Byte := [1, 2, 3, 4]

/-- Its layout. -/
def smallLayout : ApkLayout := ⟨2, 3, 4, List.replicate 22 0⟩

/-- Hash functions that give their input back. -/
def plainHashes : Hashes := ⟨id, id⟩

/-- The digest of the small file. -/
theorem content_digests_bind_small : computeChunkedDigests plainHashes smallApk smallLayout Limits.safe
    true false = .ok (digestsOf plainHashes true false (contentChunks smallApk smallLayout)) :=
  (content_digests_bind.1 plainHashes smallApk smallLayout Limits.safe true false _
    (by unfold u64Max smallLayout; norm_num) rfl).mpr ⟨⟨by decide, by decide, by decide, by decide,
      by
        rw [length_contentChunks (by decide) (by decide) (by decide)]
        unfold countOf CHUNK_SIZE u32Max smallLayout
        norm_num,
      by decide, by unfold u32Max smallLayout; norm_num, by decide⟩, rfl⟩

/-- The budget stops the digests of a file, though the read buffer has room. -/
theorem content_digests_over_budget :
    ∃ limits : Limits, limits.inFlightBytes = some 1 ∧
      ∀ d, computeChunkedDigests plainHashes smallApk smallLayout limits true false ≠ .ok d := by
  refine ⟨{ Limits.safe with decodedTotal := some 0, inFlightBytes := some 1 }, rfl, fun d h => ?_⟩
  have hcover := (computeChunkedDigests_eq_ok (by unfold u64Max smallLayout; norm_num) rfl).mp h
  exact absurd hcover.1.budget (by decide)

end LibarchiveOxide.Apk.DigestsExact
