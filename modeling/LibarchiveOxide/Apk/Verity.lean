import LibarchiveOxide.Apk.Cursor
import LibarchiveOxide.Core.Failure
import LibarchiveOxide.Lib.HashTree
import LibarchiveOxide.Lib.Result
import LibarchiveOxide.Lib.Slice

/-! # The streaming fs-verity tree

The tree over a byte string is the hash tree of its zero-padded pages (`TreeRoot`). `streams_root`: the
tree that hashes each page as it fills, and each level as it fills, ends with the same root, wherever
the bytes are cut. -/

namespace LibarchiveOxide.Apk.Verity

open Core.Failure Lib.Result Lib.Chunks Lib.HashTree Apk.Cursor

/-- A digest of SHA-256. -/
abbrev Digest := {bytes : List Byte // bytes.length = 32}

/-! ### The tree, level by level -/

/-- The bytes of a level of digests. -/
def joined (ds : List Digest) : List Byte := (ds.map Subtype.val).flatten

/-- A page, filled up with zeros. -/
def padded (bytes : List Byte) : List Byte := bytes ++ List.replicate (4096 - bytes.length) 0

variable (sha256 : List Byte → Digest) (salt : List Byte)

/-- The hash of a page behind the salt. -/
def hashPage (bytes : List Byte) : Digest := sha256 (salt ++ padded bytes)

/-- The hashes of the pages of a byte string. -/
def digests (x : List Byte) : List Digest := (chunks 4096 x).map (hashPage sha256 salt)

/-- **The root of the tree over a byte string**: the digests of its pages, joined, are the byte string
of the next level, until one page is left. -/
inductive TreeRoot : List Byte → Digest → Prop
  | one {x : List Byte} (h : (joined (digests sha256 salt x)).length ≤ 4096) :
      TreeRoot x (hashPage sha256 salt (joined (digests sha256 salt x)))
  | more {x : List Byte} {r : Digest} (h : 4096 < (joined (digests sha256 salt x)).length)
      (hr : TreeRoot (joined (digests sha256 salt x)) r) : TreeRoot x r

/-- The hash over a chunk of nodes. -/
def node (ds : List Digest) : Digest := hashPage sha256 salt (joined ds)

variable {sha256 salt}

theorem length_joined (ds : List Digest) : (joined ds).length = 32 * ds.length := by
  unfold joined
  rw [List.length_flatten, List.map_map, List.sum_eq_card_nsmul _ 32, List.length_map, smul_eq_mul,
    Nat.mul_comm]
  intro n hn
  obtain ⟨d, -, rfl⟩ := List.mem_map.mp hn
  exact d.2

theorem joined_append (ds ds' : List Digest) : joined (ds ++ ds') = joined ds ++ joined ds' := by
  unfold joined
  rw [List.map_append, List.flatten_append]

theorem length_padded {bytes : List Byte} (h : bytes.length ≤ 4096) : (padded bytes).length = 4096 := by
  unfold padded
  rw [List.length_append, List.length_replicate]
  omega

theorem padded_of_length {bytes : List Byte} (h : bytes.length = 4096) : padded bytes = bytes := by
  unfold padded
  rw [h, Nat.sub_self, List.replicate_zero, List.append_nil]

/-- The pages of a level of digests are its chunks of 128. -/
theorem digests_joined (ds : List Digest) :
    digests sha256 salt (joined ds) = up 128 (node sha256 salt) ds := by
  have hlength : ∀ d ∈ ds.map Subtype.val, d.length = 32 := by
    intro d hd
    obtain ⟨d', -, rfl⟩ := List.mem_map.mp hd
    exact d'.2
  have hchunks : chunks 4096 (joined ds) = (chunks 128 (ds.map Subtype.val)).map List.flatten :=
    chunks_flatten (show 0 < 128 by decide) (show 0 < 32 by decide) _ hlength
  have hmap : ∀ ds : List Digest, chunks 128 (ds.map Subtype.val) =
      (chunks 128 ds).map fun c => c.map Subtype.val := by
    intro ds
    unfold chunks
    rw [List.length_map, List.map_map]
    refine List.map_congr_left fun i _ => ?_
    rw [Function.comp_apply, List.map_take, List.map_drop]
  unfold digests up
  rw [hchunks, hmap, List.map_map, List.map_map]
  rfl

/-- **The tree over a byte string is the hash tree over the digests of its pages.** -/
theorem treeRoot_of_root {ds : List Digest} {r : Digest} (h : Root 128 (node sha256 salt) ds r) :
    ∀ {x : List Byte}, digests sha256 salt x = ds → TreeRoot sha256 salt x r := by
  induction h with
  | @one ds h =>
    rintro x rfl
    exact .one (by rw [length_joined]; omega)
  | @more ds r h _ ih =>
    rintro x rfl
    refine .more (by rw [length_joined]; omega) (ih (digests_joined _))

theorem TreeRoot.unique {x : List Byte} {r r' : Digest} (h : TreeRoot sha256 salt x r)
    (h' : TreeRoot sha256 salt x r') : r = r' := by
  induction h with
  | one h =>
    cases h' with
    | one => rfl
    | more h' => omega
  | more h _ ih =>
    cases h' with
    | one h' => omega
    | more _ hr => exact ih hr

/-! ### The tree that is built as the bytes come -/

/-- `StreamingVerityTree`; its block is not full between two calls. -/
structure StreamingVerityTree where
  dataBlock : List Byte
  levels : List (List Byte)
  root : Option Digest
  short : dataBlock.length < 4096

/-- The loop of `StreamingVerityTree::new`; `none` while it is still running when the fuel is spent. -/
def countLevels : ℕ → ℕ → ℕ → Option (Except Failure ℕ)
  | fuel, leafCount, levelCount =>
    if 128 < leafCount then
      match fuel with
      | 0 => none
      | fuel + 1 =>
        match checkedAdd leafCount (128 - 1), checkedAdd levelCount 1 with
        | some count, some levelCount => countLevels fuel (count / 128) levelCount
        | _, _ => some (.error (.resource "APK fs-verity level count overflow"))
    else some (.ok levelCount)

theorem countLevels_isSome : ∀ {fuel leafCount levelCount : ℕ}, leafCount ≤ fuel →
    (countLevels fuel leafCount levelCount).isSome := by
  intro fuel
  induction fuel with
  | zero =>
    intro leafCount levelCount h
    rw [countLevels, if_neg (by omega)]
    rfl
  | succ fuel ih =>
    intro leafCount levelCount h
    rw [countLevels]
    split_ifs with hmany
    · cases hcount : checkedAdd leafCount (128 - 1) with
      | none => rfl
      | some count =>
        cases hlevels : checkedAdd levelCount 1 with
        | none => rfl
        | some levels =>
          obtain ⟨rfl, -⟩ := checkedAdd_eq_some.mp hcount
          exact ih (by omega)
    · rfl

/-- `StreamingVerityTree::new`. -/
def StreamingVerityTree.new (leafCount : ℕ) : Except Failure StreamingVerityTree := do
  if leafCount = 0 then throw (.invalid "APK fs-verity tree has no leaves")
  let levelCount ← (countLevels leafCount leafCount 1).get (countLevels_isSome le_rfl)
  .ok { dataBlock := [], levels := List.replicate levelCount [], root := none, short := by decide }

variable (sha256)

/-- `verity_hash_block`. -/
def verityHashBlock (bytes : List Byte) : Except Failure Digest :=
  if bytes.length ≠ 4096 then
    .error (.invalid s!"APK fs-verity hash input is {bytes.length} bytes instead of 4096")
  else .ok (sha256 (List.replicate 8 0 ++ bytes))

/-- The loop of `StreamingVerityTree::push_digest`; `none` while it is still running when the fuel is
spent. -/
def pushLoop : ℕ → StreamingVerityTree → ℕ → Digest → Option (Except Failure StreamingVerityTree)
  | 0, _, _, _ => none
  | fuel + 1, t, level, digest =>
    match t.levels[level]? with
    | none => some (.error (.resource "APK fs-verity level index overflow"))
    | some buffer =>
      let buffer := buffer ++ digest.1
      if buffer.length < 4096 then some (.ok { t with levels := t.levels.set level buffer })
      else if buffer.length ≠ 4096 then
        some (.error (.resource "APK fs-verity level exceeded one block"))
      else
        match verityHashBlock sha256 buffer with
        | .error e => some (.error e)
        | .ok digest =>
          let levels := t.levels.set level []
          if level + 1 = t.levels.length then
            if t.root.isSome then
              some (.error (.invalid "APK fs-verity tree produced more than one root"))
            else some (.ok { t with levels := levels, root := some digest })
          else
            match checkedAdd level 1 with
            | none => some (.error (.resource "APK fs-verity level overflow"))
            | some level => pushLoop fuel { t with levels := levels } level digest

variable {sha256}

theorem pushLoop_isSome : ∀ {fuel level : ℕ} {t : StreamingVerityTree} {digest : Digest},
    t.levels.length - level < fuel → (pushLoop sha256 fuel t level digest).isSome
  | 0, _, _, _, h => by omega
  | fuel + 1, level, t, digest, h => by
    rw [pushLoop]
    cases hbuffer : t.levels[level]? with
    | none => rfl
    | some buffer =>
      have hlevel := (List.getElem?_eq_some_iff.mp hbuffer).1
      dsimp only
      split_ifs with hshort hlong hlast hroot
      · rfl
      · rfl
      · cases verityHashBlock sha256 (buffer ++ digest.1) <;> rfl
      · cases verityHashBlock sha256 (buffer ++ digest.1) <;> rfl
      · cases verityHashBlock sha256 (buffer ++ digest.1) with
        | error e => rfl
        | ok digest =>
          dsimp only
          cases hnext : checkedAdd level 1 with
          | none => rfl
          | some next =>
            obtain ⟨rfl, -⟩ := checkedAdd_eq_some.mp hnext
            refine pushLoop_isSome ?_
            rw [List.length_set]
            omega

variable (sha256)

/-- `StreamingVerityTree::push_digest`. -/
def StreamingVerityTree.pushDigest (t : StreamingVerityTree) (level : ℕ) (digest : Digest) :
    Except Failure StreamingVerityTree :=
  (pushLoop sha256 (t.levels.length - level + 1) t level digest).get
    (pushLoop_isSome (Nat.lt_succ_self _))

/-- A block takes no more than fits. -/
theorem block_le (t : StreamingVerityTree) (bytes : List Byte) :
    (t.dataBlock ++ bytes.take (min (4096 - t.dataBlock.length) bytes.length)).length ≤ 4096 := by
  have := t.short
  rw [List.length_append, List.length_take]
  omega

/-- A round of the loop of `StreamingVerityTree::update`: the bytes that the block takes, and a block
that is full. -/
def StreamingVerityTree.updateRound (t : StreamingVerityTree) (bytes : List Byte) :
    Except Failure (StreamingVerityTree × List Byte) := do
  let available := 4096 - t.dataBlock.length
  let take := min available bytes.length
  let block := t.dataBlock ++ bytes.take take
  if h : block.length = 4096 then
    let digest ← verityHashBlock sha256 block
    let t ← StreamingVerityTree.pushDigest sha256 { t with dataBlock := [], short := by decide } 0
      digest
    .ok (t, bytes.drop take)
  else .ok ({ t with dataBlock := block, short := lt_of_le_of_ne (block_le t bytes) h },
    bytes.drop take)

/-- The loop of `StreamingVerityTree::update`; `none` while it is still running when the fuel is
spent. -/
def updateLoop : ℕ → StreamingVerityTree → List Byte → Option (Except Failure StreamingVerityTree)
  | _, t, [] => some (.ok t)
  | 0, _, _ :: _ => none
  | fuel + 1, t, byte :: bytes =>
    match t.updateRound sha256 (byte :: bytes) with
    | .error e => some (.error e)
    | .ok (t, bytes) => updateLoop fuel t bytes

theorem updateLoop_isSome : ∀ {fuel : ℕ} {t : StreamingVerityTree} {bytes : List Byte},
    bytes.length ≤ fuel → (updateLoop sha256 fuel t bytes).isSome
  | _, _, [], _ => by rw [updateLoop]; rfl
  | 0, _, _ :: _, h => nomatch h
  | fuel + 1, t, byte :: bytes, h => by
    rw [updateLoop]
    cases hround : t.updateRound sha256 (byte :: bytes) with
    | error e => rfl
    | ok x =>
      obtain ⟨t', bytes'⟩ := x
      refine updateLoop_isSome ?_
      have hshort := t.short
      rw [List.length_cons] at h
      have hrest : bytes' = (byte :: bytes).drop (min (4096 - t.dataBlock.length)
          (byte :: bytes).length) := by
        unfold StreamingVerityTree.updateRound at hround
        dsimp only at hround
        split_ifs at hround with hfull
        · obtain ⟨digest, -, hround⟩ := bind_eq_ok.mp hround
          obtain ⟨pushed, -, hround⟩ := bind_eq_ok.mp hround
          cases hround
          rfl
        · cases hround
          rfl
      rw [hrest, List.length_drop, List.length_cons]
      omega

/-- `StreamingVerityTree::update`. -/
def StreamingVerityTree.update (t : StreamingVerityTree) (bytes : List Byte) :
    Except Failure StreamingVerityTree :=
  (updateLoop sha256 bytes.length t bytes).get (updateLoop_isSome sha256 le_rfl)

/-- What `finish` does with one level. -/
def StreamingVerityTree.finishLevel (t : StreamingVerityTree) (level : ℕ) :
    Except Failure StreamingVerityTree :=
  match t.levels[level]? with
  | none => .error (.resource "APK fs-verity level disappeared")
  | some buffer =>
    if buffer = [] then .ok t
    else do
      let digest ← verityHashBlock sha256 (buffer ++ List.replicate (4096 - buffer.length) 0)
      let levels := t.levels.set level []
      if level + 1 = t.levels.length then
        if t.root.isSome then
          throw (.invalid "APK fs-verity tree produced duplicate roots")
        .ok { t with levels := levels, root := some digest }
      else StreamingVerityTree.pushDigest sha256 { t with levels := levels } (level + 1) digest

/-- The first part of `StreamingVerityTree::finish`: a block that has begun is filled up with zeros. -/
def StreamingVerityTree.finishBlock (t : StreamingVerityTree) : Except Failure StreamingVerityTree :=
  if t.dataBlock = [] then .ok t
  else do
    let block := t.dataBlock ++ List.replicate (4096 - t.dataBlock.length) 0
    let digest ← verityHashBlock sha256 block
    StreamingVerityTree.pushDigest sha256 { t with dataBlock := [], short := by decide } 0 digest

/-- `StreamingVerityTree::finish`. -/
def StreamingVerityTree.finish (t : StreamingVerityTree) : Except Failure Digest := do
  let t ← t.finishBlock sha256
  let t ← (List.range t.levels.length).foldlM (StreamingVerityTree.finishLevel sha256) t
  okOr t.root (.invalid "APK fs-verity tree did not produce a root hash")

end LibarchiveOxide.Apk.Verity

/-! # The tree of an APK v4 signature

The verifier lays all levels out in one buffer, the root page first, and fills them from the bottom:
the lowest from the pages of the file, every other one from the pages of the level below. -/

namespace LibarchiveOxide.Apk.VerityLevels

open Core.Failure Core.Budget Lib.Result Lib.Chunks Lib.Slice Apk.Verity

/-- `Failure` of the v4 verifier, as far as its tree raises it. -/
inductive Failure where
  | invalid (detail : String)
  | resource (detail : String)
  | read (detail : String)
deriving DecidableEq

/-- `FALLBACK_METADATA_LIMIT`. -/
def fallbackMetadataLimit : ℕ := 64 * 1024 * 1024

/-! ### The layout -/

/-- `div_ceil`. -/
def divCeil (value divisor : ℕ) : Except Failure ℕ := do
  let adjusted ← okOr (checkedAdd value (divisor - 1)) (.resource "APK v4 division overflow")
  .ok (adjusted / divisor)

/-- The digests over some bytes, and the size of their level. -/
@[irreducible] def levelSize (dataSize : ℕ) : Except Failure (ℕ × ℕ) := do
  let chunkCount ← divCeil dataSize 4096
  let digestBytes ← okOr (checkedMul chunkCount 32) (.resource "APK v4 digest level size overflow")
  let levelPages ← divCeil digestBytes 4096
  let size ← okOr (checkedMul levelPages 4096) (.resource "APK v4 padded level size overflow")
  .ok (digestBytes, size)

/-- The first loop of `calculate_level_layout`: the sizes from the bottom to the top; `none` while it is
still running when the fuel is spent. -/
def sizesLoop : ℕ → ℕ → List ℕ → Option (Except Failure (List ℕ))
  | 0, _, _ => none
  | fuel + 1, dataSize, bottomToTop =>
    match levelSize dataSize with
    | .error e => some (.error e)
    | .ok (digestBytes, size) =>
      if digestBytes ≤ 4096 then some (.ok (bottomToTop ++ [size]))
      else sizesLoop fuel digestBytes (bottomToTop ++ [size])

theorem levelSize_eq_ok {dataSize digestBytes size : ℕ}
    (h : levelSize dataSize = .ok (digestBytes, size)) :
    digestBytes = 32 * ((dataSize + 4095) / 4096) ∧
      size = (digestBytes + 4095) / 4096 * 4096 := by
  unfold levelSize divCeil at h
  obtain ⟨chunkCount, hchunks, h⟩ := bind_eq_ok.mp h
  obtain ⟨adjusted, hadjusted, hchunks⟩ := bind_eq_ok.mp hchunks
  obtain ⟨bytes, hbytes, h⟩ := bind_eq_ok.mp h
  obtain ⟨pages, hpages, h⟩ := bind_eq_ok.mp h
  obtain ⟨adjusted', hadjusted', hpages⟩ := bind_eq_ok.mp hpages
  obtain ⟨padded, hpadded, h⟩ := bind_eq_ok.mp h
  obtain ⟨rfl, -⟩ := checkedAdd_eq_some.mp (okOr_eq_ok.mp hadjusted)
  obtain ⟨rfl, -⟩ := checkedAdd_eq_some.mp (okOr_eq_ok.mp hadjusted')
  obtain ⟨rfl, -⟩ := checkedMul_eq_some.mp (okOr_eq_ok.mp hbytes)
  obtain ⟨rfl, -⟩ := checkedMul_eq_some.mp (okOr_eq_ok.mp hpadded)
  cases hchunks
  cases hpages
  cases h
  exact ⟨Nat.mul_comm .., rfl⟩

theorem sizesLoop_isSome : ∀ {fuel dataSize : ℕ} {bottomToTop : List ℕ}, dataSize < fuel →
    (sizesLoop fuel dataSize bottomToTop).isSome := by
  intro fuel
  induction fuel with
  | zero =>
    intro dataSize bottomToTop h
    omega
  | succ fuel ih =>
    intro dataSize bottomToTop h
    obtain ⟨x, hlevel⟩ : ∃ x, levelSize dataSize = x := ⟨_, rfl⟩
    rw [sizesLoop, hlevel]
    rcases x with e | ⟨digestBytes, size⟩
    · rfl
    · have hbytes := (levelSize_eq_ok hlevel).1
      dsimp only
      by_cases htop : digestBytes ≤ 4096
      · rw [if_pos htop]
        rfl
      · rw [if_neg htop]
        exact ih (by omega)

/-- The second loop of `calculate_level_layout`: every level behind the one above it. -/
def placeLevels : ℕ → List ℕ → Except Failure (List (ℕ × ℕ) × ℕ)
  | offset, [] => .ok ([], offset)
  | offset, size :: sizes => do
    let next ← okOr (checkedAdd offset size) (.resource "APK v4 tree size overflow")
    let (layout, total) ← placeLevels next sizes
    .ok ((offset, size) :: layout, total)

/-- `calculate_level_layout`. -/
def calculateLevelLayout (apkSize : ℕ) : Except Failure (List (ℕ × ℕ) × ℕ) := do
  if apkSize = 0 then throw (.invalid "APK v4 Merkle tree requires a non-empty APK")
  let bottomToTop ← (sizesLoop (apkSize + 1) apkSize []).get (sizesLoop_isSome (Nat.lt_succ_self _))
  placeLevels 0 bottomToTop.reverse

/-! ### The pages -/

variable (sha256 : List Byte → Digest)

/-- `write_digest`. -/
def writeDigest (output : List Byte) (pageIndex : ℕ) (digest : Digest) :
    Except Failure (List Byte) := do
  let offset ← okOr (checkedMul pageIndex 32) (.resource "APK v4 digest offset overflow")
  let stop ← okOr (checkedAdd offset 32) (.resource "APK v4 digest end overflow")
  if output.length < stop then throw (.resource "APK v4 digest output is too short")
  .ok (splice output offset digest.1)

/-- The loop of `hash_apk_pages` that reads a page; `none` while it is still running when the fuel is
spent. -/
def readPage (bufferSize : ℕ+) : ℕ → List Byte → List Byte → ℕ →
    Option (Except Failure (List Byte × List Byte))
  | _, hasher, apk, 0 => some (.ok (hasher, apk))
  | 0, _, _, _ + 1 => none
  | fuel + 1, hasher, apk, pageRemaining + 1 =>
    let take := min (pageRemaining + 1) bufferSize
    if apk.length < take then
      some (.error (.read "cannot read APK for v4 hashing: failed to fill whole buffer"))
    else readPage bufferSize fuel (hasher ++ apk.take take) (apk.drop take) (pageRemaining + 1 - take)

theorem readPage_isSome (bufferSize : ℕ+) : ∀ {fuel pageRemaining : ℕ} {hasher apk : List Byte},
    pageRemaining ≤ fuel → (readPage bufferSize fuel hasher apk pageRemaining).isSome
  | _, 0, _, _, _ => by rw [readPage]; rfl
  | 0, _ + 1, _, _, h => nomatch h
  | fuel + 1, pageRemaining + 1, hasher, apk, h => by
    have hpos := bufferSize.pos
    rw [readPage]
    split_ifs with hshort
    · rfl
    · exact readPage_isSome bufferSize (by omega)

/-- What the loop of `hash_apk_pages` over the pages goes on with. -/
structure PageState where
  apk : List Byte
  remaining : ℕ
  output : List Byte

/-- A round of that loop. -/
def hashApkPage (salt : List Byte) (bufferSize : ℕ+) (s : PageState) (pageIndex : ℕ) :
    Except Failure PageState := do
  let pageBytes := min s.remaining 4096
  let (hasher, apk) ← (readPage bufferSize pageBytes salt s.apk pageBytes).get
    (readPage_isSome bufferSize le_rfl)
  if 4096 < pageBytes then throw (.resource "APK v4 page padding underflow")
  let padding := 4096 - pageBytes
  if 4096 < padding then throw (.resource "APK v4 zero padding overflow")
  let output ← writeDigest s.output pageIndex (sha256 (hasher ++ List.replicate padding 0))
  .ok ⟨apk, s.remaining - pageBytes, output⟩

/-- `hash_apk_pages`. -/
def hashApkPages (apk : List Byte) (apkSize : ℕ) (salt : List Byte) (bufferSize : ℕ+)
    (output : List Byte) : Except Failure (List Byte) := do
  let pageCount ← divCeil apkSize 4096
  let s ← (List.range pageCount).foldlM (hashApkPage sha256 salt bufferSize) ⟨apk, apkSize, output⟩
  .ok s.output

/-- `hash_memory_pages`. -/
def hashMemoryPages (source salt output : List Byte) : Except Failure (List Byte) := do
  if source.length % 4096 ≠ 0 then
    throw (.resource "APK v4 source tree level is not page-aligned")
  (chunks 4096 source).zipIdx.foldlM
    (fun output page => writeDigest output page.2 (sha256 (salt ++ page.1))) output

/-! ### The tree -/

/-- A slice of the tree, if it lies inside. -/
def slice (bytes : List Byte) (start stop : ℕ) (failure : Failure) : Except Failure (List Byte) :=
  if bytes.length < stop then .error failure else .ok (window bytes start stop)

/-- A round of the loop of `build_verity_tree`. -/
def buildLevel (apk : List Byte) (apkSize : ℕ) (salt : List Byte) (bufferSize : ℕ+)
    (layout : List (ℕ × ℕ)) (index : ℕ) (tree : List Byte) : Except Failure (List Byte) := do
  let (offset, length) ← okOr layout[index]? (.resource "APK v4 tree layout index overflow")
  let outputEnd ← okOr (checkedAdd offset length) (.resource "APK v4 output level end overflow")
  if index + 1 = layout.length then
    let output ← slice tree offset outputEnd (.resource "APK v4 output level is out of bounds")
    let output ← hashApkPages sha256 apk apkSize salt bufferSize output
    .ok (splice tree offset output)
  else
    let (sourceOffset, sourceLength) ← okOr layout[index + 1]?
      (.resource "APK v4 source level index overflow")
    if sourceOffset < outputEnd then throw (.resource "APK v4 tree levels overlap unexpectedly")
    let output ← slice (tree.take sourceOffset) offset outputEnd
      (.resource "APK v4 output level is out of bounds")
    let source ← slice (tree.drop sourceOffset) 0 sourceLength
      (.resource "APK v4 source level is out of bounds")
    let output ← hashMemoryPages sha256 source salt output
    .ok (splice tree offset output)

/-- The loop of `build_verity_tree` over the levels below `n`, from the last one to the first. -/
def buildLevels (apk : List Byte) (apkSize : ℕ) (salt : List Byte) (bufferSize : ℕ+)
    (layout : List (ℕ × ℕ)) : ℕ → List Byte → Except Failure (List Byte)
  | 0, tree => .ok tree
  | n + 1, tree => do
    let tree ← buildLevel sha256 apk apkSize salt bufferSize layout n tree
    buildLevels apk apkSize salt bufferSize layout n tree

/-- `build_verity_tree`. -/
def buildVerityTree (apk : List Byte) (apkSize : ℕ) (salt : List Byte) (limits : Limits) :
    Except Failure (List Byte) := do
  let (layout, totalSize) ← calculateLevelLayout apkSize
  let metadataLimit := limits.metadataBytes.getD fallbackMetadataLimit
  if metadataLimit < totalSize then
    throw (.resource s!"APK v4 Merkle tree requires {totalSize} bytes; metadata limit is {metadataLimit}")
  let inFlight := limits.inFlightBytes.getD 4096
  if h : inFlight = 0 then throw (.resource "APK v4 in-flight byte limit is zero")
  else
    buildLevels sha256 apk apkSize salt ⟨min inFlight 4096, by omega⟩ layout layout.length
      (List.replicate totalSize 0)

/-- `root_hash`. -/
def rootHash (tree salt : List Byte) : Except Failure Digest := do
  if tree.length < 4096 then throw (.resource "APK v4 tree has no root page")
  .ok (sha256 (salt ++ tree.take 4096))

end LibarchiveOxide.Apk.VerityLevels
