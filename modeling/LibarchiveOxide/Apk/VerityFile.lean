import LibarchiveOxide.Apk.Verity
import LibarchiveOxide.Apk.VerityRoot

/-! # The root of the tree of an APK v4 signature

A level in the buffer is the digests over what is below it, filled up to whole pages with zeros. Those
zeros change nothing above (`digests_padPages`), so the root page is the top of the tree over the
file. -/

namespace LibarchiveOxide.Apk.VerityFile

open Core.Failure Core.Budget Lib.Result Lib.Chunks Lib.Slice Apk.Verity Apk.VerityLevels
open Apk.VerityRoot

variable {sha256 : List Byte → Digest} {salt : List Byte}

/-! ### Whole pages -/

variable {y : List Byte}

/-- The size of the pages that some bytes take. -/
def pageSize (n : ℕ) : ℕ := (n + 4095) / 4096 * 4096

/-- Bytes filled up to whole pages. -/
def padPages (y : List Byte) : List Byte := y ++ List.replicate (pageSize y.length - y.length) 0

theorem le_pageSize (n : ℕ) : n ≤ pageSize n := by
  unfold pageSize
  omega

theorem length_padPages (y : List Byte) : (padPages y).length = pageSize y.length := by
  have := le_pageSize y.length
  unfold padPages
  rw [List.length_append, List.length_replicate]
  omega

theorem padPages_of_le (hy : y ≠ []) (h : y.length ≤ 4096) : padPages y = padded y := by
  have hpos := List.length_pos_iff.mpr hy
  have hsize : pageSize y.length = 4096 := by
    unfold pageSize
    omega
  unfold padPages padded
  rw [hsize]

theorem padded_padded (h : y.length ≤ 4096) : padded (padded y) = padded y :=
  padded_of_length (length_padded h)

/-- **The zeros behind a level change no digest.** -/
theorem digests_padPages (y : List Byte) :
    digests sha256 salt (padPages y) = digests sha256 salt y := by
  unfold digests
  have hsplit := full_append_rest 4096 y
  have hmod : (rest 4096 y).length < 4096 := by
    rw [length_rest]
    exact Nat.mod_lt _ (by decide)
  by_cases hrest : rest 4096 y = []
  · have hlength : y.length % 4096 = 0 := by rw [← length_rest, hrest, List.length_nil]
    have hnone : pageSize y.length - y.length = 0 := by
      unfold pageSize
      omega
    unfold padPages
    rw [hnone, List.replicate_zero, List.append_nil]
  · have hpos := List.length_pos_iff.mpr hrest
    have hzeros : pageSize y.length - y.length = 4096 - (rest 4096 y).length := by
      rw [length_rest] at hpos ⊢
      unfold pageSize
      omega
    have hpad : padPages y = full 4096 y ++ padded (rest 4096 y) := by
      unfold padPages padded
      rw [hzeros, ← List.append_assoc, hsplit]
    have hone : (padded (rest 4096 y)).length = 4096 := length_padded hmod.le
    have hlast : chunks 4096 (padded (rest 4096 y)) = [padded (rest 4096 y)] :=
      chunks_of_le (by decide) (List.length_pos_iff.mp (by omega)) hone.le
    have hchunks : chunks 4096 (padPages y) =
        chunks 4096 (full 4096 y) ++ [padded (rest 4096 y)] := by
      rw [hpad, chunks_append (by decide) length_full, hlast]
    have hplain := chunks_eq_full_rest (show 0 < 4096 by decide) y
    rw [if_neg hrest] at hplain
    rw [hchunks, hplain, List.map_append, List.map_append, List.map_singleton, List.map_singleton]
    congr 2
    unfold hashPage
    rw [padded_padded hmod.le]

/-! ### The levels of the tree -/

variable {ls : List (List Byte)} {r : Digest}

/-- The level over some bytes. -/
def level (sha256 : List Byte → Digest) (salt y : List Byte) : List Byte :=
  joined (digests sha256 salt y)

/-- **The levels of the tree over some bytes**, from the bottom to the top, and its root. -/
inductive Tower (sha256 : List Byte → Digest) (salt : List Byte) :
    List Byte → List (List Byte) → Digest → Prop
  | top {y : List Byte} (h : (level sha256 salt y).length ≤ 4096) :
      Tower sha256 salt y [level sha256 salt y] (hashPage sha256 salt (level sha256 salt y))
  | up {y : List Byte} {ls : List (List Byte)} {r : Digest}
      (h : 4096 < (level sha256 salt y).length) (ht : Tower sha256 salt (level sha256 salt y) ls r) :
      Tower sha256 salt y (level sha256 salt y :: ls) r

theorem length_digests' (y : List Byte) :
    (digests sha256 salt y).length = (y.length + 4095) / 4096 := by
  unfold digests
  rw [List.length_map, length_chunks]

theorem length_level (y : List Byte) :
    (level sha256 salt y).length = 32 * ((y.length + 4095) / 4096) := by
  unfold level
  rw [length_joined, length_digests']

theorem level_ne_nil (h : y ≠ []) : level sha256 salt y ≠ [] := by
  have hpos := List.length_pos_iff.mpr h
  refine List.length_pos_iff.mp ?_
  rw [length_level]
  omega

theorem Tower.root (h : Tower sha256 salt y ls r) : TreeRoot sha256 salt y r := by
  induction h with
  | top h => exact .one h
  | up h _ ih => exact .more h ih

/-- Every byte string has a tree. -/
theorem exists_tower (y : List Byte) : ∃ ls r, Tower sha256 salt y ls r := by
  induction hn : y.length using Nat.strong_induction_on generalizing y with
  | _ n ih =>
    by_cases htop : (level sha256 salt y).length ≤ 4096
    · exact ⟨_, _, .top htop⟩
    · have hlength : (level sha256 salt y).length = _ := length_level y
      obtain ⟨ls, r, ht⟩ := ih (level sha256 salt y).length (by omega) _ rfl
      exact ⟨_, r, .up (by omega) ht⟩

/-- The sizes of the levels in the buffer. -/
def sizes (ls : List (List Byte)) : List ℕ := ls.map fun l => pageSize l.length

/-! ### The layout -/

variable {n : ℕ}

theorem divCeil_of_le (h : n + 4095 ≤ u64Max) : divCeil n 4096 = .ok ((n + 4095) / 4096) := by
  unfold divCeil
  rw [checkedAdd_of_le h, okOr_some, ok_bind]

theorem levelSize_of_le (h : n + 4095 ≤ u64Max) :
    levelSize n = .ok (32 * ((n + 4095) / 4096), pageSize (32 * ((n + 4095) / 4096))) := by
  have hbytes : (n + 4095) / 4096 * 32 + 4095 ≤ u64Max := by
    unfold u64Max at h ⊢
    omega
  unfold levelSize pageSize
  rw [divCeil_of_le h, ok_bind, checkedMul_of_le (by omega), okOr_some, ok_bind,
    divCeil_of_le hbytes, ok_bind, checkedMul_of_le (by omega), okOr_some, ok_bind,
    Nat.mul_comm _ 32]

/-- The sizes are those of the levels. -/
theorem sizesLoop_spec (h : Tower sha256 salt y ls r) :
    ∀ {fuel : ℕ} (bottomToTop : List ℕ), y.length < fuel →
    y.length + 4095 ≤ u64Max →
    sizesLoop fuel y.length bottomToTop = some (.ok (bottomToTop ++ sizes ls)) := by
  induction h with
  | @top y h =>
    intro fuel bottomToTop hfuel hmax
    obtain ⟨fuel, rfl⟩ : ∃ f, fuel = f + 1 := ⟨fuel - 1, by omega⟩
    have hlength : (level sha256 salt y).length = _ := length_level y
    rw [sizesLoop, levelSize_of_le hmax]
    dsimp only
    rw [← hlength, if_pos h]
    rfl
  | @up y ls r h _ ih =>
    intro fuel bottomToTop hfuel hmax
    obtain ⟨fuel, rfl⟩ : ∃ f, fuel = f + 1 := ⟨fuel - 1, by omega⟩
    have hlength : (level sha256 salt y).length = _ := length_level y
    have hshorter : (level sha256 salt y).length < y.length := by omega
    rw [sizesLoop, levelSize_of_le hmax]
    dsimp only
    rw [← hlength, if_neg (by omega), ih _ (by omega) (by omega), List.append_assoc]
    rfl

theorem placeLevels_spec : ∀ {sizes : List ℕ} {offset : ℕ}, offset + sizes.sum ≤ u64Max →
    ∃ layout, placeLevels offset sizes = .ok (layout, offset + sizes.sum) ∧
      layout.length = sizes.length ∧ ∀ before size after, sizes = before ++ size :: after →
        layout[before.length]? = some (offset + before.sum, size)
  | [], offset, _ => ⟨[], rfl, rfl, fun before size after h => by simp at h⟩
  | s :: sizes, offset, h => by
    rw [List.sum_cons] at h
    obtain ⟨layout, hplace, hlength, hlookup⟩ := placeLevels_spec
      (show offset + s + sizes.sum ≤ u64Max by omega)
    refine ⟨(offset, s) :: layout, ?_, by rw [List.length_cons, hlength, List.length_cons], ?_⟩
    · rw [placeLevels, checkedAdd_of_le (by omega), okOr_some, ok_bind, hplace, List.sum_cons,
        Nat.add_assoc]
      rfl
    · rintro before size after hsplit
      cases before with
      | nil =>
        obtain ⟨rfl, -⟩ := List.cons.inj hsplit
        rfl
      | cons b before =>
        obtain ⟨rfl, hrest⟩ := List.cons.inj hsplit
        rw [List.length_cons, List.getElem?_cons_succ, hlookup before size after hrest,
          List.sum_cons, Nat.add_assoc]

/-- The levels take no more than the file, rounded up. -/
theorem sum_sizes_le (h : Tower sha256 salt y ls r) : (sizes ls).sum ≤ y.length + 4095 := by
  induction h with
  | @top y h =>
    have hlength : (level sha256 salt y).length = _ := length_level y
    unfold sizes pageSize
    rw [List.map_singleton, List.sum_singleton]
    omega
  | @up y ls r h _ ih =>
    have hlength : (level sha256 salt y).length = _ := length_level y
    unfold sizes pageSize at ih ⊢
    rw [List.map_cons, List.sum_cons]
    omega

/-! ### The digests of a level -/

variable {x : List Byte}

/-- The next digest of a level. -/
theorem writeDigest_next (ds : List Digest) (d : Digest) (hmax : 32 * ds.length + 32 ≤ u64Max) :
    writeDigest (joined ds ++ List.replicate (n + 32) 0) ds.length d =
      .ok (joined (ds ++ [d]) ++ List.replicate n 0) := by
  have hlength := length_joined ds
  unfold writeDigest
  rw [checkedMul_of_le (by omega), okOr_some, ok_bind, checkedAdd_of_le (by omega), okOr_some,
    ok_bind, List.length_append, List.length_replicate, if_neg (by omega)]
  unfold splice
  have hd := d.2
  rw [Nat.mul_comm, ← hlength, List.take_left, hd, ← joined_snoc, List.drop_append,
    List.drop_eq_nil_of_le (by omega), List.nil_append, List.drop_replicate]
  have hzeros : n + 32 - ((joined ds).length + 32 - (joined ds).length) = n := by omega
  rw [hzeros]

theorem readPage_spec (bufferSize : ℕ+) : ∀ {fuel n : ℕ} {hasher apk : List Byte}, n ≤ fuel →
    n ≤ apk.length →
    readPage bufferSize fuel hasher apk n = some (.ok (hasher ++ apk.take n, apk.drop n))
  | _, 0, hasher, apk, _, _ => by rw [readPage, List.take_zero, List.append_nil, List.drop_zero]
  | 0, _ + 1, _, _, h, _ => by omega
  | fuel + 1, n + 1, hasher, apk, hfuel, hle => by
    have hpos := bufferSize.pos
    rw [readPage]
    generalize htake : min (n + 1) (bufferSize : ℕ) = take
    rw [if_neg (by omega), readPage_spec bufferSize (by omega) (by rw [List.length_drop]; omega),
      List.append_assoc, List.drop_drop, ← List.take_add]
    have hsum : take + (n + 1 - take) = n + 1 := by omega
    rw [hsum]

/-- A page of the file. -/
theorem hashApkPage_spec (bufferSize : ℕ+) {ds : List Digest}
    (hmax : 32 * ds.length + 32 ≤ u64Max) :
    hashApkPage sha256 salt bufferSize ⟨y, y.length, joined ds ++ List.replicate (n + 32) 0⟩
        ds.length =
      .ok ⟨y.drop 4096, (y.drop 4096).length,
        joined (ds ++ [hashPage sha256 salt (y.take 4096)]) ++ List.replicate n 0⟩ := by
  have hread : readPage bufferSize (min y.length 4096) salt y (min y.length 4096) = _ :=
    readPage_spec bufferSize le_rfl (min_le_left ..)
  have htake : y.take (min y.length 4096) = y.take 4096 := by
    rw [min_comm]
    exact List.take_eq_take_min.symm
  have hdrop : y.drop (min y.length 4096) = y.drop 4096 := by
    rcases le_total y.length 4096 with hle | hle
    · rw [min_eq_left hle, List.drop_length, List.drop_eq_nil_of_le hle]
    · rw [min_eq_right hle]
  rw [htake, hdrop] at hread
  unfold hashApkPage
  dsimp only
  simp only [hread, Option.get_some, ok_bind]
  rw [if_neg (by omega), if_neg (by omega)]
  have hpage : sha256 (salt ++ y.take 4096 ++ List.replicate (4096 - min y.length 4096) 0) =
      hashPage sha256 salt (y.take 4096) := by
    unfold hashPage padded
    rw [List.length_take, min_comm, List.append_assoc]
  rw [hpage, writeDigest_next ds _ hmax, ok_bind]
  congr 2
  rw [List.length_drop]
  omega

/-- The pages of the file, from one on. -/
theorem hashApkPages_loop (bufferSize : ℕ+) (y : List Byte) : ∀ {ds : List Digest} {n : ℕ},
    32 * (ds.length + (digests sha256 salt y).length) ≤ u64Max →
    (List.range' ds.length (digests sha256 salt y).length).foldlM
        (hashApkPage sha256 salt bufferSize)
        ⟨y, y.length, joined ds ++ List.replicate (32 * (digests sha256 salt y).length + n) 0⟩ =
      .ok ⟨[], 0, joined (ds ++ digests sha256 salt y) ++ List.replicate n 0⟩ := by
  induction y using chunks_induction (show 0 < 4096 by decide) with
  | nil =>
    intro ds n _
    have hnone : digests sha256 salt [] = [] := by
      unfold digests
      rw [chunks_nil]
      rfl
    rw [hnone]
    simp
  | cons y hy ih =>
    intro ds n hmax
    have hsplit : digests sha256 salt y =
        hashPage sha256 salt (y.take 4096) :: digests sha256 salt (y.drop 4096) := by
      unfold digests
      rw [chunks_cons (by decide) hy, List.map_cons]
    rw [hsplit] at hmax ⊢
    rw [List.length_cons] at hmax ⊢
    have hzeros : 32 * ((digests sha256 salt (y.drop 4096)).length + 1) + n =
        32 * (digests sha256 salt (y.drop 4096)).length + n + 32 := by ring
    have hnext := @ih (ds ++ [hashPage sha256 salt (y.take 4096)]) n (by
      rw [List.length_append, List.length_singleton]
      omega)
    rw [List.length_append, List.length_singleton, List.append_assoc, List.singleton_append] at hnext
    rw [List.range'_succ, List.foldlM_cons, hzeros, hashApkPage_spec bufferSize (by omega), ok_bind,
      hnext]

/-- **The lowest level**, over the pages of the file. -/
theorem hashApkPages_spec (bufferSize : ℕ+) (hmax : x.length + 4095 ≤ u64Max) :
    hashApkPages sha256 x x.length salt bufferSize
        (List.replicate (pageSize (level sha256 salt x).length) 0) =
      .ok (padPages (level sha256 salt x)) := by
  have hcount : (digests sha256 salt x).length = _ := length_digests' x
  have hle := le_pageSize (level sha256 salt x).length
  have hlength : (level sha256 salt x).length = 32 * (digests sha256 salt x).length :=
    length_joined _
  have hloop : (List.range' 0 (digests sha256 salt x).length).foldlM
      (hashApkPage sha256 salt bufferSize) _ = _ :=
    @hashApkPages_loop sha256 salt bufferSize x []
      (pageSize (level sha256 salt x).length - (level sha256 salt x).length) (by
        rw [List.length_nil]
        omega)
  have hzeros : 32 * (digests sha256 salt x).length +
      (pageSize (level sha256 salt x).length - (level sha256 salt x).length) =
      pageSize (level sha256 salt x).length := by omega
  rw [hzeros, List.nil_append] at hloop
  unfold hashApkPages
  rw [divCeil_of_le hmax, ok_bind, ← hcount, List.range_eq_range']
  exact congrArg (fun s => s >>= fun s => Except.ok s.output) hloop

/-- Digests of pages in memory. -/
theorem writeDigests_loop : ∀ {pages : List (List Byte)} {ds : List Digest} {n : ℕ},
    32 * (ds.length + pages.length) ≤ u64Max →
    (pages.zipIdx ds.length).foldlM
        (fun output page => writeDigest output page.2 (sha256 (salt ++ page.1)))
        (joined ds ++ List.replicate (32 * pages.length + n) 0) =
      .ok (joined (ds ++ pages.map fun page => sha256 (salt ++ page)) ++ List.replicate n 0)
  | [], ds, n, _ => by simp
  | page :: pages, ds, n, hmax => by
    rw [List.length_cons] at hmax ⊢
    have hzeros : 32 * (pages.length + 1) + n = 32 * pages.length + n + 32 := by ring
    have hnext := @writeDigests_loop pages (ds ++ [sha256 (salt ++ page)]) n (by
      rw [List.length_append, List.length_singleton]
      omega)
    rw [List.length_append, List.length_singleton, List.append_assoc, List.singleton_append] at hnext
    rw [List.zipIdx_cons, List.foldlM_cons, hzeros, writeDigest_next ds _ (by omega), ok_bind,
      hnext, List.map_cons]

/-- **Any other level**, over the pages of the one below. -/
theorem hashMemoryPages_spec (hmax : y.length + 4095 ≤ u64Max) :
    hashMemoryPages sha256 (padPages y) salt
        (List.replicate (pageSize (level sha256 salt y).length) 0) =
      .ok (padPages (level sha256 salt y)) := by
  have hmod : (padPages y).length % 4096 = 0 := by
    rw [length_padPages]
    exact Nat.mul_mod_left ..
  have hpages : (chunks 4096 (padPages y)).map (fun page => sha256 (salt ++ page)) =
      digests sha256 salt y := by
    rw [← digests_padPages]
    refine List.map_congr_left fun page hpage => ?_
    unfold hashPage
    rw [padded_of_length (length_mem_chunks_of_mod (by decide) _ hmod page hpage)]
  have hcount : (chunks 4096 (padPages y)).length = (digests sha256 salt y).length := by
    rw [← hpages, List.length_map]
  have hdigests : (digests sha256 salt y).length = _ := length_digests' y
  have hlength : (level sha256 salt y).length = 32 * (digests sha256 salt y).length :=
    length_joined _
  have hle := le_pageSize (level sha256 salt y).length
  have hloop := @writeDigests_loop sha256 salt (chunks 4096 (padPages y)) []
    (pageSize (level sha256 salt y).length - (level sha256 salt y).length) (by
      rw [List.length_nil, hcount]
      omega)
  have hzeros : 32 * (chunks 4096 (padPages y)).length +
      (pageSize (level sha256 salt y).length - (level sha256 salt y).length) =
      pageSize (level sha256 salt y).length := by omega
  rw [hzeros, hpages, List.nil_append] at hloop
  unfold hashMemoryPages
  rw [if_neg (not_not.mpr hmod)]
  exact hloop

/-! ### The buffer -/

variable {built : List Byte}

theorem sizes_cons (l : List Byte) (ls : List (List Byte)) :
    sizes (l :: ls) = pageSize l.length :: sizes ls := rfl

/-- The places of the levels: each behind those above it. -/
def Laid (layout : List (ℕ × ℕ)) (ls : List (List Byte)) : Prop :=
  ∀ l above, (l :: above) <:+ ls → layout[above.length]? = some ((sizes above).sum, pageSize l.length)

/-- What the lowest level of `ls` is over: the file, or the level that has just been built. -/
def Over (layout : List (ℕ × ℕ)) (x : List Byte) (ls : List (List Byte)) (y built : List Byte) :
    Prop :=
  ls.length = layout.length ∧ y = x ∨
    ls.length < layout.length ∧ layout[ls.length]? = some ((sizes ls).sum, pageSize y.length) ∧
      ∃ below, built = padPages y ++ below

/-- The zeros of one level in the buffer, overwritten. -/
theorem splice_zeros {m : ℕ} {l : List Byte} (h : l.length = n) :
    splice (List.replicate (m + n) 0 ++ built) m l = List.replicate m 0 ++ (l ++ built) := by
  unfold splice
  rw [List.take_append_of_le_length (by simp), List.take_replicate, min_eq_left (by omega), h,
    List.drop_append, List.drop_eq_nil_of_le (by simp), List.nil_append, List.length_replicate,
    Nat.sub_self, List.drop_zero, List.append_assoc]

theorem slice_zeros {m : ℕ} (failure : VerityLevels.Failure) :
    slice (List.replicate (m + n) 0 ++ built) m (m + n) failure = .ok (List.replicate n 0) := by
  unfold slice
  rw [if_neg (by rw [List.length_append, List.length_replicate]; omega)]
  unfold window
  rw [List.drop_append, List.drop_replicate, List.length_replicate, Nat.add_sub_cancel_left,
    List.take_append_of_le_length (by simp), List.take_replicate, min_self]

/-- **One level is built** in front of the levels below it. -/
theorem buildLevel_spec (bufferSize : ℕ+) {layout : List (ℕ × ℕ)} {above : List (List Byte)}
    (hmax : y.length + 4095 ≤ u64Max) (hplace : layout[above.length]? =
      some ((sizes above).sum, pageSize (level sha256 salt y).length))
    (hsum : (sizes (level sha256 salt y :: above)).sum ≤ u64Max)
    (hover : Over layout x (level sha256 salt y :: above) y built) :
    buildLevel sha256 x x.length salt bufferSize layout above.length
        (List.replicate (sizes (level sha256 salt y :: above)).sum 0 ++ built) =
      .ok (List.replicate (sizes above).sum 0 ++ (padPages (level sha256 salt y) ++ built)) := by
  rw [sizes_cons, List.sum_cons, Nat.add_comm] at hsum ⊢
  have hpad := length_padPages (level sha256 salt y)
  unfold buildLevel
  rw [hplace, okOr_some, ok_bind]
  dsimp only
  rw [checkedAdd_of_le hsum, okOr_some, ok_bind]
  rcases hover with ⟨hlast, rfl⟩ | ⟨hmore, hsource, below, rfl⟩
  · rw [List.length_cons] at hlast
    rw [if_pos hlast, slice_zeros, ok_bind, hashApkPages_spec bufferSize hmax, ok_bind,
      splice_zeros hpad]
  · rw [List.length_cons] at hmore hsource
    rw [sizes_cons, List.sum_cons, Nat.add_comm (pageSize _)] at hsource
    rw [if_neg (by omega), hsource, okOr_some, ok_bind]
    dsimp only
    rw [if_neg (lt_irrefl _)]
    have hfront : (List.replicate ((sizes above).sum + pageSize (level sha256 salt y).length) 0 ++
        (padPages y ++ below)).take ((sizes above).sum + pageSize (level sha256 salt y).length) =
        List.replicate ((sizes above).sum + pageSize (level sha256 salt y).length) 0 ++ [] := by
      rw [List.take_left' (List.length_replicate ..), List.append_nil]
    have hback : (List.replicate ((sizes above).sum + pageSize (level sha256 salt y).length) 0 ++
        (padPages y ++ below)).drop ((sizes above).sum + pageSize (level sha256 salt y).length) =
        padPages y ++ below := List.drop_left' (List.length_replicate ..)
    have hslice : ∀ failure, slice (padPages y ++ below) 0 (pageSize y.length) failure =
        .ok (padPages y) := by
      intro failure
      unfold slice window
      rw [if_neg (by rw [List.length_append, length_padPages]; omega), List.drop_zero, Nat.sub_zero,
        List.take_left' (length_padPages y)]
    rw [hfront, hback, slice_zeros, ok_bind, hslice, ok_bind, hashMemoryPages_spec hmax, ok_bind,
      splice_zeros hpad]

/-- **All levels are built**: the buffer ends with the root page in front. -/
theorem buildLevels_spec (bufferSize : ℕ+) {layout : List (ℕ × ℕ)} (h : Tower sha256 salt y ls r) :
    ∀ {built : List Byte}, y ≠ [] → y.length + 4095 ≤ u64Max → Laid layout ls →
    (sizes ls).sum ≤ u64Max → Over layout x ls y built →
    ∃ top below, buildLevels sha256 x x.length salt bufferSize layout ls.length
        (List.replicate (sizes ls).sum 0 ++ built) = .ok (padded top ++ below) ∧
      top.length ≤ 4096 ∧ r = hashPage sha256 salt top := by
  induction h with
  | @top y h =>
    intro built hy hmax hlaid hsum hover
    have hbuild := buildLevel_spec bufferSize hmax (hlaid _ [] (List.suffix_refl _)) hsum hover
    refine ⟨level sha256 salt y, built, ?_, h, rfl⟩
    rw [List.length_singleton, buildLevels]
    rw [List.length_nil] at hbuild
    rw [hbuild, ok_bind, buildLevels, padPages_of_le (level_ne_nil hy) h]
    rfl
  | @up y ls r h ht ih =>
    intro built hy hmax hlaid hsum hover
    have hbuild := buildLevel_spec bufferSize hmax (hlaid _ ls (List.suffix_refl _)) hsum hover
    have hlength : (level sha256 salt y).length = _ := length_level y
    have hsum' : (sizes ls).sum ≤ u64Max := by
      rw [sizes_cons, List.sum_cons] at hsum
      omega
    have hless : ls.length < layout.length := by
      rcases hover with ⟨hlast, -⟩ | ⟨hmore, -⟩
      · rw [List.length_cons] at hlast
        omega
      · rw [List.length_cons] at hmore
        omega
    obtain ⟨top, below, hrest, htop, hr⟩ := @ih (padPages (level sha256 salt y) ++ built)
      (level_ne_nil hy) (by omega)
      (fun l above hsuffix => hlaid l above (hsuffix.trans (List.suffix_cons ..))) hsum'
      (.inr ⟨hless, hlaid _ ls (List.suffix_refl _), built, rfl⟩)
    refine ⟨top, below, ?_, htop, hr⟩
    rw [List.length_cons, buildLevels, hbuild, ok_bind, hrest]

/-! ### The whole tree -/

/-- Levels that are placed one behind another do not overlap. -/
theorem placeLevels_apart : ∀ {sizes : List ℕ} {offset total : ℕ} {layout : List (ℕ × ℕ)},
    placeLevels offset sizes = .ok (layout, total) →
    layout.Pairwise (fun a b => a.1 + a.2 ≤ b.1) ∧ offset ≤ total ∧
      ∀ a ∈ layout, offset ≤ a.1 ∧ a.1 + a.2 ≤ total
  | [], offset, total, layout, h => by
    cases h
    exact ⟨.nil, le_rfl, by simp⟩
  | size :: sizes, offset, total, layout, h => by
    rw [placeLevels] at h
    obtain ⟨next, hnext, h⟩ := bind_eq_ok.mp h
    obtain ⟨⟨rest, total'⟩, hrest, h⟩ := bind_eq_ok.mp h
    cases h
    obtain ⟨rfl, -⟩ := checkedAdd_eq_some.mp (okOr_eq_ok.mp hnext)
    obtain ⟨hapart, hle, hinside⟩ := placeLevels_apart hrest
    refine ⟨List.pairwise_cons.mpr ⟨fun a ha => (hinside a ha).1, hapart⟩, by omega, ?_⟩
    refine List.forall_mem_cons.mpr ⟨⟨le_rfl, hle⟩, fun a ha => ?_⟩
    have := hinside a ha
    exact ⟨by omega, this.2⟩

/-- The layout of the levels of a tree. -/
theorem layout_spec (hx : x ≠ []) (hmax : x.length + 4095 ≤ u64Max) (h : Tower sha256 salt x ls r) :
    ∃ layout, calculateLevelLayout x.length = .ok (layout, (sizes ls).sum) ∧
      layout.length = ls.length ∧ Laid layout ls := by
  have hpos := List.length_pos_iff.mpr hx
  have hsizes := sizesLoop_spec h [] (Nat.lt_succ_self _) hmax
  have hsum := sum_sizes_le h
  obtain ⟨layout, hplace, hlength, hlookup⟩ := placeLevels_spec
    (show 0 + (sizes ls).reverse.sum ≤ u64Max by rw [List.sum_reverse]; omega)
  rw [List.sum_reverse, Nat.zero_add] at hplace
  refine ⟨layout, ?_, ?_, ?_⟩
  · unfold calculateLevelLayout
    rw [if_neg (by omega)]
    simp only [hsizes, Option.get_some, ok_bind, List.nil_append]
    exact hplace
  · rw [hlength, List.length_reverse]
    exact List.length_map ..
  · rintro l above ⟨lower, rfl⟩
    have hsplit : (sizes (lower ++ l :: above)).reverse =
        (sizes above).reverse ++ pageSize l.length :: (sizes lower).reverse := by
      unfold sizes
      rw [List.map_append, List.map_cons, List.reverse_append, List.reverse_cons, List.append_assoc]
      rfl
    have hplaced := hlookup _ _ _ hsplit
    rw [List.length_reverse, List.sum_reverse, Nat.zero_add] at hplaced
    have hcount : (sizes above).length = above.length := List.length_map ..
    rwa [hcount] at hplaced

/-- **The v4 verifier finds the root of the tree over the file.** -/
theorem file_root {limits : Limits} (hx : x ≠ []) (hmax : x.length + 4095 ≤ u64Max)
    (h : Tower sha256 salt x ls r) (hinFlight : limits.inFlightBytes ≠ some 0)
    (hfits : (sizes ls).sum ≤ limits.metadataBytes.getD fallbackMetadataLimit) :
    ∃ tree, buildVerityTree sha256 x x.length salt limits = .ok tree ∧
      rootHash sha256 tree salt = .ok r := by
  obtain ⟨layout, hlayout, hlength, hlaid⟩ := layout_spec hx hmax h
  have hsum := sum_sizes_le h
  have hpositive : limits.inFlightBytes.getD 4096 ≠ 0 := by
    cases hlimit : limits.inFlightBytes with
    | none => decide
    | some limit =>
      rw [hlimit] at hinFlight
      exact fun hzero => hinFlight (congrArg some hzero)
  have hover : Over layout x ls x [] := .inl ⟨hlength.symm, rfl⟩
  obtain ⟨top, below, hbuild, htop, rfl⟩ := buildLevels_spec
    ⟨min (limits.inFlightBytes.getD 4096) 4096, by omega⟩ h hx hmax hlaid (by omega) hover
  have hpage := length_padded htop
  refine ⟨padded top ++ below, ?_, ?_⟩
  · unfold buildVerityTree
    rw [hlayout, ok_bind]
    dsimp only
    rw [if_neg (by omega), dif_neg hpositive, hlength]
    rwa [List.append_nil] at hbuild
  · unfold rootHash
    rw [if_neg (by rw [List.length_append]; omega), List.take_left' hpage]
    rfl

/-- **The two trees over a byte string agree**: there is one root. The streaming tree ends with it,
wherever the bytes are cut. The levels of the v4 verifier do not overlap, and it ends with the same root
whatever the size of its read buffer, as long as the sizes stay a `u64` and the buffer stays within
the metadata limit. -/
def TreesAgree (sha256 : List Byte → Digest) (x : List Byte) : Prop :=
  ∃ r, TreeRoot sha256 zeroSalt x r ∧
    (∀ pieces : List (List Byte), pieces.flatten = x → ∃ t t',
      StreamingVerityTree.new ((x.length + 4095) / 4096) = .ok t ∧
      pieces.foldlM (StreamingVerityTree.update sha256) t = .ok t' ∧ t'.finish sha256 = .ok r) ∧
    (x.length + 4095 ≤ u64Max → ∃ layout total,
      calculateLevelLayout x.length = .ok (layout, total) ∧
      layout.Pairwise (fun a b => a.1 + a.2 ≤ b.1) ∧ (∀ a ∈ layout, a.1 + a.2 ≤ total) ∧
      ∀ limits : Limits, limits.inFlightBytes ≠ some 0 →
        total ≤ limits.metadataBytes.getD fallbackMetadataLimit →
        ∃ tree, buildVerityTree sha256 x x.length zeroSalt limits = .ok tree ∧
          rootHash sha256 tree zeroSalt = .ok r)

/-- The two trees agree over every byte string whose pages can be counted. -/
theorem verity_trees_agree (sha256 : List Byte → Digest) (x : List Byte) (hx : x ≠ [])
    (hleaves : (x.length + 4095) / 4096 + 127 ≤ u64Max) : TreesAgree sha256 x := by
  obtain ⟨ls, r, htower⟩ : ∃ ls r, Tower sha256 zeroSalt x ls r := exists_tower x
  refine ⟨r, htower.root, ?_, fun hmax => ?_⟩
  · rintro pieces rfl
    obtain ⟨t, t', r', hnew, hupdates, hfinish, hroot⟩ := streams_root pieces hx hleaves
    obtain rfl := hroot.unique htower.root
    exact ⟨t, t', hnew, hupdates, hfinish⟩
  · obtain ⟨layout, hlayout, -, -⟩ := layout_spec hx hmax htower
    have hplaced := hlayout
    unfold calculateLevelLayout at hplaced
    obtain ⟨-, hplaced⟩ := guard_eq_ok.mp hplaced
    obtain ⟨bottomToTop, -, hplaced⟩ := bind_eq_ok.mp hplaced
    obtain ⟨hapart, -, hinside⟩ := placeLevels_apart hplaced
    exact ⟨layout, _, hlayout, hapart, fun a ha => (hinside a ha).2,
      fun limits hinFlight hfits => file_root hx hmax htower hinFlight hfits⟩

/-- A hash that is zero everywhere. -/
def zeroHash : List Byte → Digest := fun _ => ⟨List.replicate 32 0, List.length_replicate ..⟩

theorem verity_trees_agree_byte : TreesAgree zeroHash [7] :=
  verity_trees_agree zeroHash [7] (by decide) (by decide)

/-- **The tree of the v4 verifier has bounds of its own**: one byte needs a page more than the metadata
limit, and a file of `2 ^ 64 - 1` bytes has too many pages to round up to. -/
theorem tree_out_of_bounds :
    buildVerityTree zeroHash [7] 1 zeroSalt { Limits.unlimited with metadataBytes := some 4095 } =
      .error (.resource "APK v4 Merkle tree requires 4096 bytes; metadata limit is 4095") ∧
    calculateLevelLayout u64Max = .error (.resource "APK v4 division overflow") := by
  constructor <;> decide +kernel

end LibarchiveOxide.Apk.VerityFile
