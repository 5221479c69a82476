import LibarchiveOxide.Apk.Verity

/-! # The root of the streaming tree

Between two calls the block holds what is left of the bytes behind their full pages, and each level
what is left behind its full chunks (`Holds`). At the end each level hands what is left to the level
above, and the last one is the root. -/

namespace LibarchiveOxide.Apk.VerityRoot

open Core.Failure Lib.Result Lib.Chunks Lib.HashTree Apk.Cursor Apk.Verity

variable {sha256 : List Byte → Digest}

/-- The salt of the streaming tree. -/
def zeroSalt : List Byte := List.replicate 8 0

/-- The levels of a tree, over the bytes of their buffers. -/
def withLevels (t : StreamingVerityTree) (levels : List (List Digest)) (root : Option Digest) :
    StreamingVerityTree :=
  { t with levels := levels.map joined, root := root }

/-! ### One digest -/

theorem verityHashBlock_page {page : List Byte} (h : page.length = 4096) :
    verityHashBlock sha256 page = .ok (hashPage sha256 zeroSalt page) := by
  unfold verityHashBlock hashPage
  rw [if_neg (not_not.mpr h), padded_of_length h]
  rfl

theorem verityHashBlock_padded {page : List Byte} (h : page.length ≤ 4096) :
    verityHashBlock sha256 (page ++ List.replicate (4096 - page.length) 0) =
      .ok (hashPage sha256 zeroSalt page) := by
  have hlength : (page ++ List.replicate (4096 - page.length) 0).length = 4096 := length_padded h
  unfold verityHashBlock
  rw [if_neg (not_not.mpr hlength)]
  rfl

theorem joined_snoc (b : List Digest) (d : Digest) : joined b ++ d.1 = joined (b ++ [d]) := by
  rw [joined_append]
  unfold joined
  simp

theorem joined_eq_nil {b : List Digest} : joined b = [] ↔ b = [] := by
  rw [← List.length_eq_zero_iff, length_joined, ← List.length_eq_zero_iff]
  omega

/-- The buffer of a level, and the levels with another one. -/
theorem getElem?_levels (below : List (List Digest)) (b : List Digest) (bs : List (List Digest)) :
    ((below ++ b :: bs).map joined)[below.length]? = some (joined b) := by
  rw [List.getElem?_map, List.getElem?_append_right le_rfl, Nat.sub_self]
  rfl

theorem set_levels (below : List (List Digest)) (b b' : List Digest) (bs : List (List Digest)) :
    ((below ++ b :: bs).map joined).set below.length (joined b') =
      (below ++ b' :: bs).map joined := by
  rw [← List.map_set, List.set_append_right _ _ le_rfl, Nat.sub_self, List.set_cons_zero]

variable {t : StreamingVerityTree} {below bs : List (List Digest)} {b b₁ : List Digest}
  {root : Option Digest} {digest : Digest} {fuel : ℕ}

/-- A digest that does not fill its level. -/
theorem pushLoop_short (h : b.length + 1 < 128) :
    pushLoop sha256 (fuel + 1) (withLevels t (below ++ b :: bs) root) below.length digest =
      some (.ok (withLevels t (below ++ (b ++ [digest]) :: bs) root)) := by
  rw [pushLoop]
  unfold withLevels
  dsimp only
  rw [getElem?_levels]
  dsimp only
  rw [joined_snoc, length_joined, List.length_append, List.length_singleton, if_pos (by omega),
    set_levels]

/-- A digest that fills its level. -/
theorem pushLoop_full (h : b.length + 1 = 128) :
    pushLoop sha256 (fuel + 1) (withLevels t (below ++ b :: bs) root) below.length digest =
      if below.length + 1 = (below ++ b :: bs).length then
        if root.isSome then
          some (.error (.invalid "APK fs-verity tree produced more than one root"))
        else some (.ok (withLevels t (below ++ [] :: bs)
          (some (node sha256 zeroSalt (b ++ [digest])))))
      else
        match checkedAdd below.length 1 with
        | none => some (.error (.resource "APK fs-verity level overflow"))
        | some level => pushLoop sha256 fuel (withLevels t (below ++ [] :: bs) root) level
            (node sha256 zeroSalt (b ++ [digest])) := by
  have hlength : (joined (b ++ [digest])).length = 4096 := by
    rw [length_joined, List.length_append, List.length_singleton]
    omega
  have hnil := set_levels below b [] bs
  rw [pushLoop]
  unfold withLevels
  dsimp only
  rw [getElem?_levels]
  dsimp only
  rw [joined_snoc, hlength, if_neg (by omega), if_neg (by omega), verityHashBlock_page hlength,
    List.length_map, ← hnil]
  rfl

/-- **A digest goes to its level**, and from there up as far as levels are full. -/
theorem pushLoop_spec : ∀ {bs below : List (List Digest)} {b ds : List Digest}
    {root : Option Digest} {fuel : ℕ} (digest : Digest),
    Carries 128 (node sha256 zeroSalt) (b :: bs) ds root → ds.length < 128 ^ (bs.length + 1) →
    bs.length < fuel → (below ++ b :: bs).length ≤ u64Max →
    ∃ bs' root', pushLoop sha256 fuel (withLevels t (below ++ b :: bs) root) below.length digest =
        some (.ok (withLevels t (below ++ bs') root')) ∧ bs'.length = bs.length + 1 ∧
      Carries 128 (node sha256 zeroSalt) bs' (ds ++ [digest]) root'
  | _, _, _, _, _, 0, _, _, _, hfuel, _ => by omega
  | bs, below, b, ds, root, fuel + 1, digest, hcarries, hroom, hfuel, hmax => by
    have hlt := hcarries.length_lt (by decide)
    by_cases hshort : b.length + 1 < 128
    · exact ⟨(b ++ [digest]) :: bs, root, pushLoop_short hshort, rfl, hcarries.snoc hshort⟩
    · have hfull : b.length + 1 = 128 := by omega
      have hlevel : (completed 128 (node sha256 zeroSalt) ds).length < 128 ^ bs.length :=
        completed_lt (by decide) hroom
      rw [pushLoop_full hfull]
      cases bs with
      | nil =>
        -- the last level: the tree had no room for another root
        have hempty : completed 128 (node sha256 zeroSalt) ds = [] :=
          List.length_eq_zero_iff.mp (Nat.lt_one_iff.mp hlevel)
        have hroot := hcarries.2
        rw [hempty] at hroot
        obtain rfl : root = none := by
          cases root with
          | none => rfl
          | some r => cases hroot
        rw [if_pos (by simp), if_neg (by simp)]
        refine ⟨[[]], _, rfl, rfl, hcarries.snoc_full (by decide) hfull ?_⟩
        rw [hempty]
        rfl
      | cons b₁ bs =>
        rw [List.length_append, List.length_cons, List.length_cons] at hmax
        rw [List.length_cons] at hfuel
        rw [if_neg (by simp), checkedAdd_of_le (by omega)]
        have hbelow : below ++ [] :: b₁ :: bs = (below ++ [[]]) ++ b₁ :: bs := by simp
        have hindex : below.length + 1 = (below ++ [([] : List Digest)]).length := by simp
        have hmax' : ((below ++ [[]]) ++ b₁ :: bs).length ≤ u64Max := by
          simp only [List.length_append, List.length_cons, List.length_nil]
          omega
        obtain ⟨bs', root', hpush, hlength, hcarries'⟩ :=
          pushLoop_spec (node sha256 zeroSalt (b ++ [digest])) hcarries.2 hlevel
            (show bs.length < fuel by omega) hmax'
        refine ⟨[] :: bs', root', ?_, by rw [List.length_cons, hlength, List.length_cons], ?_⟩
        · dsimp only
          rw [hbelow, hindex, hpush]
          simp
        · exact hcarries.snoc_full (by decide) hfull hcarries'

/-- A push to a level, over the levels from it on. -/
theorem pushDigest_spec {ds : List Digest} (digest : Digest)
    (h : Carries 128 (node sha256 zeroSalt) bs ds root) (hbs : bs ≠ [])
    (hroom : ds.length < 128 ^ bs.length) (hmax : (below ++ bs).length ≤ u64Max) :
    ∃ bs' root', (withLevels t (below ++ bs) root).pushDigest sha256 below.length digest =
        .ok (withLevels t (below ++ bs') root') ∧ bs'.length = bs.length ∧
      Carries 128 (node sha256 zeroSalt) bs' (ds ++ [digest]) root' := by
  obtain ⟨b, bs, rfl⟩ := List.exists_cons_of_ne_nil hbs
  have hlength : (withLevels t (below ++ b :: bs) root).levels.length =
      below.length + (bs.length + 1) := by
    unfold withLevels
    rw [List.length_map, List.length_append, List.length_cons]
  obtain ⟨bs', root', hpush, hrest⟩ := pushLoop_spec (t := t) digest h hroom
    (show bs.length < (withLevels t (below ++ b :: bs) root).levels.length - below.length + 1 by
      rw [hlength]
      omega) hmax
  refine ⟨bs', root', ?_, hrest⟩
  unfold StreamingVerityTree.pushDigest
  simp only [hpush, Option.get_some]

/-! ### The bytes -/

/-- The digests of the full pages of a byte string. -/
def pagesDone (sha256 : List Byte → Digest) (y : List Byte) : List Digest :=
  (chunks 4096 (full 4096 y)).map (hashPage sha256 zeroSalt)

/-- **What the tree holds** after the bytes `y`. -/
structure Holds (sha256 : List Byte → Digest) (height : ℕ) (t : StreamingVerityTree)
    (y : List Byte) : Prop where
  block : t.dataBlock = rest 4096 y
  levels : ∃ bs, t.levels = bs.map joined ∧ bs.length = height ∧
    Carries 128 (node sha256 zeroSalt) bs (pagesDone sha256 y) t.root

theorem length_pagesDone (y : List Byte) : (pagesDone sha256 y).length = y.length / 4096 := by
  unfold pagesDone
  rw [List.length_map, length_chunks, length_full]
  omega

/-- The digests of all pages. -/
theorem digests_eq (y : List Byte) : digests sha256 zeroSalt y =
    pagesDone sha256 y ++
      if rest 4096 y = [] then [] else [hashPage sha256 zeroSalt (rest 4096 y)] := by
  unfold digests pagesDone
  rw [chunks_eq_full_rest (by decide), List.map_append]
  split_ifs <;> rfl

theorem length_digests (y : List Byte) :
    (digests sha256 zeroSalt y).length = (y.length + 4095) / 4096 := by
  unfold digests
  rw [List.length_map, length_chunks]

variable {height : ℕ} {y : List Byte}

/-- A page that is full. -/
theorem Holds.page (h : Holds sha256 height t y) {z : List Byte}
    (hfull : (rest 4096 y).length + z.length = 4096) (hpos : 0 < height) (hmax : height ≤ u64Max)
    (hroom : (y ++ z).length ≤ 4096 * 128 ^ height) :
    ∃ t', StreamingVerityTree.pushDigest sha256 { t with dataBlock := [], short := by decide } 0
        (hashPage sha256 zeroSalt (rest 4096 y ++ z)) = .ok t' ∧ Holds sha256 height t' (y ++ z) := by
  obtain ⟨bs, hlevels, hlength, hcarries⟩ := h.levels
  obtain ⟨-, hrest, hchunks⟩ := append_full (by decide) hfull
  have hcount : (pagesDone sha256 y).length < 128 ^ bs.length := by
    rw [length_pagesDone, hlength]
    rw [length_rest] at hfull
    rw [List.length_append] at hroom
    have hmod := Nat.mod_lt y.length (show 0 < 4096 by decide)
    have := Nat.div_add_mod y.length 4096
    omega
  have hstart : withLevels { t with dataBlock := [], short := by decide } ([] ++ bs) t.root =
      { t with dataBlock := [], short := by decide } := by
    unfold withLevels
    rw [List.nil_append, ← hlevels]
  obtain ⟨bs', root', hpush, hlength', hcarries'⟩ := pushDigest_spec
    (t := { t with dataBlock := [], short := by decide })
    (hashPage sha256 zeroSalt (rest 4096 y ++ z)) hcarries
    (List.length_pos_iff.mp (by omega)) hcount (show ([] ++ bs).length ≤ u64Max by
      rw [List.nil_append]
      omega)
  rw [hstart] at hpush
  refine ⟨_, hpush, ⟨hrest.symm, bs', rfl, hlength'.trans hlength, ?_⟩⟩
  unfold pagesDone
  rw [hchunks, List.map_append]
  exact hcarries'

/-- **A round of `update` takes bytes.** -/
theorem Holds.round (h : Holds sha256 height t y) (bytes : List Byte) (hpos : 0 < height)
    (hmax : height ≤ u64Max) (hroom : (y ++ bytes).length ≤ 4096 * 128 ^ height) :
    ∃ t' z bytes', t.updateRound sha256 bytes = .ok (t', bytes') ∧ z ++ bytes' = bytes ∧
      Holds sha256 height t' (y ++ z) ∧ (bytes ≠ [] → z ≠ []) := by
  have hshort := t.short
  have hblock := h.block
  have hsplit := List.take_append_drop (min (4096 - t.dataBlock.length) bytes.length) bytes
  have hne : bytes ≠ [] → bytes.take (min (4096 - t.dataBlock.length) bytes.length) ≠ [] := by
    intro hbytes
    have := List.length_pos_iff.mpr hbytes
    refine List.length_pos_iff.mp ?_
    rw [List.length_take]
    omega
  unfold StreamingVerityTree.updateRound
  dsimp only
  by_cases hfull : (t.dataBlock ++
      bytes.take (min (4096 - t.dataBlock.length) bytes.length)).length = 4096
  · obtain ⟨t', hpush, hholds⟩ := h.page
      (z := bytes.take (min (4096 - t.dataBlock.length) bytes.length))
      (by rw [← List.length_append, ← hblock]; exact hfull) hpos hmax
      (by
        rw [List.length_append] at hroom ⊢
        rw [List.length_take]
        omega)
    rw [← hblock] at hpush
    rw [dif_pos hfull, verityHashBlock_page hfull, ok_bind, hpush]
    exact ⟨t', _, _, rfl, hsplit, hholds, hne⟩
  · rw [dif_neg hfull]
    have hle := block_le t bytes
    obtain ⟨hpages, hrest⟩ := append_partial
      (show (rest 4096 y).length +
        (bytes.take (min (4096 - t.dataBlock.length) bytes.length)).length < 4096 by
        rw [← List.length_append, ← hblock]
        omega)
    refine ⟨_, _, _, rfl, hsplit, ⟨?_, ?_⟩, hne⟩
    · rw [hrest, ← hblock]
    · unfold pagesDone
      rw [hpages]
      exact h.levels

theorem updateLoop_spec (hpos : 0 < height) (hmax : height ≤ u64Max) : ∀ {fuel : ℕ}
    {t : StreamingVerityTree} {y bytes : List Byte}, Holds sha256 height t y →
    bytes.length ≤ fuel → (y ++ bytes).length ≤ 4096 * 128 ^ height →
    ∃ t', updateLoop sha256 fuel t bytes = some (.ok t') ∧ Holds sha256 height t' (y ++ bytes)
  | _, t, y, [], h, _, _ => ⟨t, by rw [updateLoop], by rwa [List.append_nil]⟩
  | 0, _, _, _ :: _, _, hfuel, _ => absurd hfuel (Nat.not_succ_le_zero _)
  | fuel + 1, t, y, byte :: bytes, h, hfuel, hroom => by
    obtain ⟨t', z, bytes', hround, hsplit, hholds, hne⟩ := h.round (byte :: bytes) hpos hmax hroom
    have hlength := congrArg List.length hsplit
    have hz := List.length_pos_iff.mpr (hne (List.cons_ne_nil _ _))
    rw [List.length_append] at hlength
    rw [List.length_cons] at hlength hfuel
    obtain ⟨t'', hloop, hholds'⟩ := updateLoop_spec hpos hmax hholds
      (show bytes'.length ≤ fuel by omega) (by rwa [List.append_assoc, hsplit])
    rw [List.append_assoc, hsplit] at hholds'
    exact ⟨t'', by rw [updateLoop, hround]; exact hloop, hholds'⟩

/-- **An update takes all its bytes.** -/
theorem Holds.update (h : Holds sha256 height t y) (bytes : List Byte) (hpos : 0 < height)
    (hmax : height ≤ u64Max) (hroom : (y ++ bytes).length ≤ 4096 * 128 ^ height) :
    ∃ t', t.update sha256 bytes = .ok t' ∧ Holds sha256 height t' (y ++ bytes) := by
  obtain ⟨t', hloop, hholds⟩ := updateLoop_spec hpos hmax h le_rfl hroom
  refine ⟨t', ?_, hholds⟩
  unfold StreamingVerityTree.update
  simp only [hloop, Option.get_some]

/-- Any number of updates. -/
theorem Holds.updates (hpos : 0 < height) (hmax : height ≤ u64Max) : ∀ {pieces : List (List Byte)}
    {t : StreamingVerityTree} {y : List Byte}, Holds sha256 height t y →
    (y ++ pieces.flatten).length ≤ 4096 * 128 ^ height →
    ∃ t', pieces.foldlM (StreamingVerityTree.update sha256) t = .ok t' ∧
      Holds sha256 height t' (y ++ pieces.flatten)
  | [], t, y, h, _ => ⟨t, rfl, by rwa [List.flatten_nil, List.append_nil]⟩
  | bytes :: pieces, t, y, h, hroom => by
    rw [List.flatten_cons, ← List.append_assoc] at hroom
    obtain ⟨t', hupdate, hholds⟩ := h.update bytes hpos hmax (by
      rw [List.length_append] at hroom
      omega)
    obtain ⟨t'', hupdates, hholds'⟩ := Holds.updates hpos hmax hholds hroom
    refine ⟨t'', ?_, by rwa [List.flatten_cons, ← List.append_assoc]⟩
    rw [List.foldlM_cons, hupdate, ok_bind, hupdates]

/-! ### The end of the levels -/

/-- What `finish` does with the lowest level that it has not done with yet. -/
theorem finishLevel_spec {ds : List Digest}
    (h : Carries 128 (node sha256 zeroSalt) (b :: bs) ds root)
    (hroom : ds.length ≤ 128 ^ (bs.length + 1)) (hmax : (below ++ b :: bs).length ≤ u64Max) :
    ∃ bs' root', (withLevels t (below ++ b :: bs) root).finishLevel sha256 below.length =
        .ok (withLevels t ((below ++ [[]]) ++ bs') root') ∧ bs'.length = bs.length ∧
      Carries 128 (node sha256 zeroSalt) bs' (up 128 (node sha256 zeroSalt) ds) root' := by
  have hlt := h.length_lt (by decide)
  have hbelow : ∀ bs : List (List Digest), below ++ [] :: bs = (below ++ [[]]) ++ bs := by simp
  unfold StreamingVerityTree.finishLevel
  have hbuffer : (withLevels t (below ++ b :: bs) root).levels[below.length]? = some (joined b) :=
    getElem?_levels ..
  rw [hbuffer]
  dsimp only
  by_cases hb : b = []
  · subst hb
    rw [if_pos (joined_eq_nil.mpr rfl)]
    exact ⟨bs, root, by rw [hbelow], rfl, h.ends (by decide)⟩
  · have hup := h.ends_rest (by decide) hb
    have hcount := h.lt_pow hb hroom
    have hlevel : (completed 128 (node sha256 zeroSalt) ds).length < 128 ^ bs.length :=
      completed_lt (by decide) hcount
    have hset : (withLevels t (below ++ b :: bs) root).levels.set below.length [] =
        ((below ++ [[]]) ++ bs).map joined := by
      rw [← hbelow]
      exact set_levels below b [] bs
    rw [if_neg (mt joined_eq_nil.mp hb),
      verityHashBlock_padded (by rw [length_joined]; omega), ok_bind, hset]
    have hcarries := h.2
    cases bs with
    | nil =>
      have hempty : completed 128 (node sha256 zeroSalt) ds = [] :=
        List.length_eq_zero_iff.mp (Nat.lt_one_iff.mp hlevel)
      rw [hempty] at hcarries hup
      obtain rfl : root = none := by
        cases root with
        | none => rfl
        | some r => cases hcarries
      have hlast : below.length + 1 = (withLevels t (below ++ [b]) none).levels.length := by
        unfold withLevels
        rw [List.length_map, List.length_append, List.length_singleton]
      have hroot : ¬ (withLevels t (below ++ [b]) none).root.isSome = true := nofun
      rw [if_pos hlast, if_neg hroot]
      refine ⟨[], some (node sha256 zeroSalt b), rfl, rfl, ?_⟩
      rw [hup]
      rfl
    | cons b₁ bs =>
      have hnext : ¬ below.length + 1 = (withLevels t (below ++ b :: b₁ :: bs) root).levels.length := by
        unfold withLevels
        rw [List.length_map, List.length_append, List.length_cons, List.length_cons]
        omega
      have hindex : below.length + 1 = (below ++ [([] : List Digest)]).length := by simp
      have hmax' : ((below ++ [[]]) ++ b₁ :: bs).length ≤ u64Max := by
        rw [← hbelow]
        simpa using hmax
      obtain ⟨bs', root', hpush, hlength, hcarries'⟩ := pushDigest_spec (t := t)
        (node sha256 zeroSalt b) hcarries (by simp) hlevel hmax'
      rw [if_neg hnext, hindex]
      refine ⟨bs', root', hpush, hlength, ?_⟩
      rw [hup]
      exact hcarries'

/-- **The levels end one after another**, and what the last one hands over is the root. -/
theorem finishLoop_spec : ∀ {n : ℕ} {below bs : List (List Digest)} {ds : List Digest}
    {root : Option Digest}, bs.length = n → Carries 128 (node sha256 zeroSalt) bs ds root →
    ds.length ≤ 128 ^ n → (below ++ bs).length ≤ u64Max →
    ∃ levels root', (List.range' below.length n).foldlM (StreamingVerityTree.finishLevel sha256)
        (withLevels t (below ++ bs) root) = .ok (withLevels t levels root') ∧
      (up 128 (node sha256 zeroSalt))^[n] ds = root'.toList
  | 0, below, bs, ds, root, hn, h, _, _ => by
    obtain rfl := List.length_eq_zero_iff.mp hn
    exact ⟨below ++ [], root, rfl, h⟩
  | n + 1, below, bs, ds, root, hn, h, hroom, hmax => by
    obtain ⟨b, bs, rfl⟩ := List.exists_cons_of_length_eq_add_one hn
    obtain rfl : bs.length = n := Nat.succ_injective hn
    obtain ⟨bs', root', hlevel, hlength, hcarries⟩ := finishLevel_spec (t := t) h hroom hmax
    have hroom' : (up 128 (node sha256 zeroSalt) ds).length ≤ 128 ^ bs.length := by
      rw [length_up, Nat.div_le_iff_le_mul_add_pred (by decide)]
      rw [pow_succ] at hroom
      omega
    have hmax' : ((below ++ [[]]) ++ bs').length ≤ u64Max := by
      simpa [hlength, Nat.add_assoc, Nat.add_comm] using hmax
    obtain ⟨levels, root'', hloop, hups⟩ := finishLoop_spec (n := bs.length) hlength hcarries hroom'
      hmax'
    refine ⟨levels, root'', ?_, by rw [Function.iterate_succ_apply, hups]⟩
    rw [List.range'_succ, List.foldlM_cons, hlevel, ok_bind]
    simpa using hloop

/-! ### The whole tree -/

theorem countLevels_spec : ∀ {fuel : ℕ} (leafCount levelCount : ℕ), leafCount ≤ fuel →
    leafCount + 127 ≤ u64Max → levelCount + leafCount ≤ u64Max →
    ∃ height, Height 128 leafCount height ∧
      countLevels fuel leafCount levelCount = some (.ok (levelCount + (height - 1))) ∧
      height ≤ leafCount + 1 := by
  intro fuel
  induction fuel with
  | zero =>
    intro leafCount levelCount hfuel _ _
    exact ⟨1, .one (by omega), by rw [countLevels, if_neg (by omega), Nat.sub_self, Nat.add_zero],
      by omega⟩
  | succ fuel ih =>
    intro leafCount levelCount hfuel hleaf hlevel
    by_cases hmany : 128 < leafCount
    · obtain ⟨height, hheight, hcount, hle⟩ := ih ((leafCount + 127) / 128) (levelCount + 1) (by omega)
        (by omega) (by omega)
      refine ⟨height + 1, .more hmany hheight, ?_, by omega⟩
      have hpos := hheight.pos
      rw [countLevels, if_pos hmany, checkedAdd_of_le hleaf, checkedAdd_of_le (by omega)]
      dsimp only
      rw [hcount]
      congr 2
      omega
    · exact ⟨1, .one (by omega), by rw [countLevels, if_neg hmany, Nat.sub_self, Nat.add_zero],
        by omega⟩

variable (sha256) in
/-- A new tree has just the levels that its leaves need. -/
theorem new_spec {leafCount : ℕ} (hpos : leafCount ≠ 0) (hmax : leafCount + 127 ≤ u64Max) :
    ∃ height t, Height 128 leafCount height ∧ StreamingVerityTree.new leafCount = .ok t ∧
      height ≤ u64Max ∧ Holds sha256 height t [] := by
  obtain ⟨height, hheight, hcount, hle⟩ := countLevels_spec leafCount 1 le_rfl hmax (by omega)
  have hone : 1 + (height - 1) = height := by
    have := hheight.pos
    omega
  rw [hone] at hcount
  refine ⟨height, ⟨[], List.replicate height [], none, by decide⟩, hheight, ?_, by omega,
    ⟨?_, List.replicate height [], ?_, ?_, ?_⟩⟩
  · unfold StreamingVerityTree.new
    rw [if_neg hpos]
    simp only [hcount, Option.get_some, ok_bind]
  · unfold rest
    rw [List.drop_nil]
  · rw [List.map_replicate]
    rfl
  · rw [List.length_replicate]
  · have hnone : pagesDone sha256 [] = [] := List.length_eq_zero_iff.mp (length_pagesDone [])
    rw [hnone]
    exact carries_nil height

/-- The last page, if it is not full. -/
theorem finishBlock_spec {x : List Byte} (h : Holds sha256 height t x) (hpos : 0 < height)
    (hmax : height ≤ u64Max) (hroom : (digests sha256 zeroSalt x).length ≤ 128 ^ height) :
    ∃ t' bs, t.finishBlock sha256 = .ok t' ∧ t'.levels = bs.map joined ∧ bs.length = height ∧
      Carries 128 (node sha256 zeroSalt) bs (digests sha256 zeroSalt x) t'.root := by
  obtain ⟨bs, hlevels, hbs, hcarries⟩ := h.levels
  have hblock := h.block
  have hdigests : digests sha256 zeroSalt x = _ := digests_eq x
  unfold StreamingVerityTree.finishBlock
  by_cases hempty : t.dataBlock = []
  · rw [← hblock, if_pos hempty, List.append_nil] at hdigests
    exact ⟨t, bs, if_pos hempty, hlevels, hbs, by rwa [hdigests]⟩
  · rw [← hblock, if_neg hempty] at hdigests
    rw [hdigests, List.length_append, List.length_singleton] at hroom
    have hstart : withLevels { t with dataBlock := [], short := by decide } ([] ++ bs) t.root =
        { t with dataBlock := [], short := by decide } := by
      unfold withLevels
      rw [List.nil_append, ← hlevels]
    obtain ⟨bs', root', hpush, hbs', hcarries'⟩ := pushDigest_spec
      (t := { t with dataBlock := [], short := by decide })
      (hashPage sha256 zeroSalt t.dataBlock) hcarries
      (List.length_pos_iff.mp (by omega)) (by rw [hbs]; omega)
      (show ([] ++ bs).length ≤ u64Max by rw [List.nil_append]; omega)
    rw [hstart] at hpush
    rw [if_neg hempty]
    dsimp only
    rw [verityHashBlock_padded t.short.le, ok_bind, hdigests]
    exact ⟨_, bs', hpush, rfl, hbs'.trans hbs, hcarries'⟩

/-- **The end of the bytes**: the root of the tree over them. -/
theorem finish_spec {x : List Byte} (h : Holds sha256 height t x) (hx : x ≠ [])
    (hheight : Height 128 ((x.length + 4095) / 4096) height) (hmax : height ≤ u64Max) :
    ∃ r, t.finish sha256 = .ok r ∧ TreeRoot sha256 zeroSalt x r := by
  have hlength : (digests sha256 zeroSalt x).length = _ := length_digests x
  have hpos := List.length_pos_iff.mpr hx
  obtain ⟨r, hroot, hups⟩ := hheight.root (by decide) hlength
    (List.length_pos_iff.mp (show 0 < (digests sha256 zeroSalt x).length by omega))
  have hroom : (digests sha256 zeroSalt x).length ≤ 128 ^ height := by
    rw [hlength]
    exact hheight.le_pow (by decide)
  obtain ⟨t', bs, hstep, hlevels, hbs, hcarries⟩ := finishBlock_spec h hheight.pos hmax hroom
  have hstart : withLevels t' ([] ++ bs) t'.root = t' := by
    unfold withLevels
    rw [List.nil_append, ← hlevels]
  obtain ⟨levels, root', hloop, hups'⟩ := finishLoop_spec (t := t') hbs hcarries hroom
    (show ([] ++ bs).length ≤ u64Max by rw [List.nil_append]; omega)
  have hcount : t'.levels.length = height := by rw [hlevels, List.length_map, hbs]
  have hsome : root' = some r := by
    rw [hups] at hups'
    cases root' with
    | none => cases hups'
    | some r' => rw [List.singleton_inj.mp hups']
  rw [hstart, List.length_nil, ← List.range_eq_range', hsome] at hloop
  refine ⟨r, ?_, treeRoot_of_root hroot rfl⟩
  unfold StreamingVerityTree.finish
  rw [hstep, ok_bind, hcount, hloop, ok_bind]
  rfl

/-- **The streaming tree has the root of the tree over the bytes**, wherever they are cut. -/
theorem streams_root (pieces : List (List Byte)) (hx : pieces.flatten ≠ [])
    (hmax : (pieces.flatten.length + 4095) / 4096 + 127 ≤ u64Max) : ∃ t t' r,
    StreamingVerityTree.new ((pieces.flatten.length + 4095) / 4096) = .ok t ∧
    pieces.foldlM (StreamingVerityTree.update sha256) t = .ok t' ∧ t'.finish sha256 = .ok r ∧
    TreeRoot sha256 zeroSalt pieces.flatten r := by
  have hpos := List.length_pos_iff.mpr hx
  obtain ⟨height, t, hheight, hnew, hle, hholds⟩ := new_spec sha256
    (show (pieces.flatten.length + 4095) / 4096 ≠ 0 by omega) hmax
  have hroom : ([] ++ pieces.flatten).length ≤ 4096 * 128 ^ height := by
    have := hheight.le_pow (show 0 < 128 by decide)
    rw [List.nil_append]
    omega
  obtain ⟨t', hupdates, hholds'⟩ := Holds.updates hheight.pos hle hholds hroom
  rw [List.nil_append] at hholds'
  obtain ⟨r, hfinish, hroot⟩ := finish_spec hholds' hx hheight hle
  exact ⟨t, t', r, hnew, hupdates, hfinish, hroot⟩

end LibarchiveOxide.Apk.VerityRoot
