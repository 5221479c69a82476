import LibarchiveOxide.Udf.Contents

/-! # A source that fails now and then

A call that fails leaves the reader as far as it has come, and the next call goes on from there. What
a request takes from its cursor is lost if a later piece of it fails: `readLoopFrom_spec` says how much
that is, from the extents and from where the first failure strikes. -/

namespace LibarchiveOxide.Udf.Failing

open Core.Failure Core.Budget Core.Metadata Lib.Result Stream.Event Stream.Image Udf.Partitions
open Udf.Translation Udf.Descriptors Udf.Allocation Udf.Chains Udf.Cursor Udf.Reader Udf.Contents

/-- What a source answers to the calls of one event: the failures of those that fail. -/
abbrev Faults := ℕ → Option IoError

/-- The answers to the calls after a `seek` and a `read_exact`. -/
def Faults.later (faults : Faults) : Faults := fun i => faults (i + 2)

variable (image : List Byte)

/-- `seek` and `read_exact` on the source. -/
def readAt (faults : Faults) (offset count : ℕ) : Except StreamError (List Byte × Faults) :=
  match faults 0 with
  | some e => .error (.io e)
  | none =>
    match faults 1 with
    | some e => .error (.io e)
    | none => (readExact image offset count).map fun bytes => (bytes, faults.later)

/-- The bytes of an extent at an offset of it: from the source, or zeros. -/
def extentBytesFrom (faults : Faults) (extent : UdfExtent) (extentOffset count : ℕ) :
    Except StreamError (List Byte × Faults) :=
  match extent.sourceOffset with
  | some source => do
    let offset ← okOr (checkedAdd source extentOffset)
      (udfError .malformed "UDF source offset overflow")
    readAt image faults offset count
  | none => .ok (List.replicate count 0, faults)

/-- A round of the loop of `UdfDataCursor::read_exact`, while `n` bytes are missing. -/
def readRoundFrom (faults : Faults) (c : UdfDataCursor) (n : ℕ) :
    UdfDataCursor × Except StreamError (List Byte × Faults) :=
  match c.payload with
  | .none => (c, .error (udfError .malformed "UDF payload ended before declared length"))
  | .inline data _ =>
    let count := min (data.length - c.inlineOffset) n
    if count = 0 then (c, .error (udfError .malformed "embedded UDF payload is truncated"))
    else
      let bytes := (data.drop c.inlineOffset).take count
      let c := { c with inlineOffset := c.inlineOffset + count }
      match checkedAdd c.position count with
      | none => (c, .error (udfError .limit "UDF payload position overflow"))
      | some position =>
        ({ c with position := position, remaining := c.remaining - count }, .ok (bytes, faults))
  | .extents extents =>
    match extents[c.extentIndex]? with
    | none => (c, .error (udfError .malformed "UDF extents end before information length"))
    | some extent =>
      let available := extent.length - c.extentOffset
      if available = 0 then
        ({ c with extentIndex := c.extentIndex + 1, extentOffset := 0 }, .ok ([], faults))
      else
        let count := min available n
        match extentBytesFrom image faults extent c.extentOffset count with
        | .error e => (c, .error e)
        | .ok x =>
          let c := { c with extentOffset := c.extentOffset + count }
          match checkedAdd c.position count with
          | none => (c, .error (udfError .limit "UDF payload position overflow"))
          | some position =>
            ({ c with position := position, remaining := c.remaining - count }, .ok x)

/-- The loop of `UdfDataCursor::read_exact`; `none` while it is still running when the fuel is
spent. -/
def readLoopFrom : ℕ → Faults → UdfDataCursor → ℕ →
    Option (UdfDataCursor × Except StreamError (List Byte))
  | _, _, c, 0 => some (c, .ok [])
  | 0, _, _, _ + 1 => none
  | fuel + 1, faults, c, n + 1 =>
    match readRoundFrom image faults c (n + 1) with
    | (c', .error e) => some (c', .error e)
    | (c', .ok (bytes, faults')) =>
      (readLoopFrom fuel faults' c' (n + 1 - bytes.length)).map fun r => (r.1, r.2.map (bytes ++ ·))

variable {image} {c : UdfDataCursor} {n : ℕ} {bytes : List Byte}

/-- A round that succeeds is one of a source that does not fail. -/
theorem readRound_of_ok {faults faults' : Faults} {c' : UdfDataCursor}
    (h : readRoundFrom image faults c n = (c', .ok (bytes, faults'))) :
    readRound image c n = .ok (bytes, c') := by
  unfold readRoundFrom at h
  unfold readRound
  cases hpayload : c.payload with
  | none =>
    rw [hpayload] at h
    cases h
  | inline data location =>
    rw [hpayload] at h
    dsimp only at h ⊢
    by_cases hcount : min (data.length - c.inlineOffset) n = 0
    · rw [if_pos hcount] at h
      cases h
    · rw [if_neg hcount] at h
      rw [if_neg hcount]
      cases hposition : checkedAdd c.position (min (data.length - c.inlineOffset) n) with
      | none =>
        rw [hposition] at h
        cases h
      | some position =>
        rw [hposition] at h
        cases h
        rfl
  | extents extents =>
    rw [hpayload] at h
    dsimp only at h ⊢
    cases hextent : extents[c.extentIndex]? with
    | none =>
      rw [hextent] at h
      cases h
    | some extent =>
      rw [hextent] at h
      dsimp only at h ⊢
      by_cases havailable : extent.length - c.extentOffset = 0
      · rw [if_pos havailable] at h
        rw [if_pos havailable]
        cases h
        rfl
      · rw [if_neg havailable] at h
        rw [if_neg havailable]
        generalize min (extent.length - c.extentOffset) n = count at h ⊢
        cases hbytes : extentBytesFrom image faults extent c.extentOffset count with
        | error e =>
          rw [hbytes] at h
          cases h
        | ok x =>
          rw [hbytes] at h
          dsimp only at h
          have hplain : extentBytes image extent c.extentOffset count = .ok x.1 := by
            unfold extentBytesFrom at hbytes
            unfold extentBytes
            cases hsource : extent.sourceOffset with
            | none =>
              rw [hsource] at hbytes
              cases hbytes
              rfl
            | some source =>
              rw [hsource] at hbytes
              obtain ⟨offset, hoffset, hread⟩ := bind_eq_ok.mp hbytes
              dsimp only
              rw [hoffset, ok_bind]
              unfold readAt at hread
              cases hseek : faults 0 with
              | some e => rw [hseek] at hread; cases hread
              | none =>
                rw [hseek] at hread
                dsimp only at hread
                cases hfirst : faults 1 with
                | some e => rw [hfirst] at hread; cases hread
                | none =>
                  rw [hfirst] at hread
                  obtain ⟨bs, hbs, rfl⟩ := map_eq_ok.mp hread
                  exact hbs
          rw [hplain, ok_bind]
          cases hposition : checkedAdd c.position count with
          | none =>
            rw [hposition] at h
            cases h
          | some position =>
            rw [hposition] at h
            cases h
            rfl

theorem readLoopFrom_isSome : ∀ {fuel n : ℕ} {faults : Faults} {c : UdfDataCursor},
    extentCount c.payload - c.extentIndex + n ≤ fuel → (readLoopFrom image fuel faults c n).isSome
  | _, 0, _, _, _ => by rw [readLoopFrom]; rfl
  | 0, _ + 1, _, _, h => by omega
  | fuel + 1, n + 1, faults, c, h => by
    rw [readLoopFrom]
    obtain ⟨x, hround⟩ : ∃ x, readRoundFrom image faults c (n + 1) = x := ⟨_, rfl⟩
    rw [hround]
    obtain ⟨c', e | ⟨bytes, faults'⟩⟩ := x
    · rfl
    · obtain ⟨hpayload, hprogress⟩ := readRound_progress (by omega) (readRound_of_ok hround)
      dsimp only
      rw [Option.isSome_map]
      refine readLoopFrom_isSome ?_
      rw [hpayload]
      omega

variable (image)

/-- `UdfDataCursor::read_exact`. -/
def readExactFrom (faults : Faults) (c : UdfDataCursor) (n : ℕ) :
    UdfDataCursor × Except StreamError (List Byte) :=
  if c.remaining < n then
    (c, .error (udfError .malformed "UDF payload read exceeds information length"))
  else (readLoopFrom image (extentCount c.payload - c.extentIndex + n) faults c n).get
    (readLoopFrom_isSome le_rfl)

variable {image}

/-! ### Where a failure strikes -/

/-- A piece of a request: whether it is read from the source, and how many bytes it has. -/
structure Piece where
  recorded : Bool
  bytes : ℕ

/-- The pieces of a request of `n` bytes, from an offset of the first extent on. -/
def piecesOf : List UdfExtent → ℕ → ℕ → List Piece
  | [], _, _ => []
  | e :: es, extentOffset, n =>
    if n = 0 then []
    else if e.length - extentOffset = 0 then piecesOf es 0 n
    else ⟨e.sourceOffset.isSome, min (e.length - extentOffset) n⟩ ::
      piecesOf es 0 (n - min (e.length - extentOffset) n)

/-- The pieces of a request to a cursor. -/
def pieces (c : UdfDataCursor) (n : ℕ) : List Piece :=
  match c.payload with
  | .none => []
  | .inline .. => [⟨false, n⟩]
  | .extents es => piecesOf (es.drop c.extentIndex) c.extentOffset n

/-- The bytes of a request that come before its first failing call, if a call fails. -/
def failsAfter : Faults → List Piece → Option ℕ
  | _, [] => none
  | faults, p :: ps =>
    if p.recorded then
      if faults 0 = none ∧ faults 1 = none then (failsAfter faults.later ps).map (p.bytes + ·)
      else some 0
    else (failsAfter faults ps).map (p.bytes + ·)

theorem piecesOf_zero (es : List UdfExtent) (extentOffset : ℕ) : piecesOf es extentOffset 0 = [] := by
  cases es with
  | nil => rfl
  | cons e es => exact if_pos rfl

theorem failsAfter_hole (faults : Faults) (count : ℕ) (ps : List Piece) :
    failsAfter faults (⟨false, count⟩ :: ps) = (failsAfter faults ps).map (count + ·) := rfl

theorem failsAfter_recorded {faults : Faults} (hseek : faults 0 = none) (hread : faults 1 = none)
    (count : ℕ) (ps : List Piece) :
    failsAfter faults (⟨true, count⟩ :: ps) = (failsAfter faults.later ps).map (count + ·) := by
  rw [failsAfter, if_pos rfl, if_pos ⟨hseek, hread⟩]

theorem failsAfter_failing {faults : Faults} (h : ¬ (faults 0 = none ∧ faults 1 = none)) (count : ℕ)
    (ps : List Piece) : failsAfter faults (⟨true, count⟩ :: ps) = some 0 := by
  rw [failsAfter, if_pos rfl, if_neg h]

/-- The pieces from an extent on that has not been used up. -/
theorem pieces_cons {es : List UdfExtent} {e : UdfExtent} (hpayload : c.payload = .extents es)
    (hextent : es[c.extentIndex]? = some e) (hn : 0 < n)
    (havailable : e.length - c.extentOffset ≠ 0) :
    pieces c n = ⟨e.sourceOffset.isSome, min (e.length - c.extentOffset) n⟩ ::
      piecesOf (es.drop (c.extentIndex + 1)) 0 (n - min (e.length - c.extentOffset) n) := by
  obtain ⟨hindex, rfl⟩ := List.getElem?_eq_some_iff.mp hextent
  unfold pieces
  rw [hpayload]
  dsimp only
  rw [List.drop_eq_getElem_cons hindex, piecesOf, if_neg (by omega), if_neg havailable]

/-- The pieces from an extent on that has been used up. -/
theorem pieces_skip {es : List UdfExtent} {e : UdfExtent} (hpayload : c.payload = .extents es)
    (hextent : es[c.extentIndex]? = some e) (havailable : e.length - c.extentOffset = 0) :
    pieces c n = piecesOf (es.drop (c.extentIndex + 1)) 0 n := by
  obtain ⟨hindex, rfl⟩ := List.getElem?_eq_some_iff.mp hextent
  unfold pieces
  rw [hpayload]
  dsimp only
  rw [List.drop_eq_getElem_cons hindex, piecesOf]
  by_cases hn : n = 0
  · rw [if_pos hn, hn, piecesOf_zero]
  · rw [if_neg hn, if_pos havailable]

/-- What a call of `readAt` gives, within the image. -/
theorem readAt_within (faults : Faults) {offset count : ℕ}
    (h : readExact image offset count = .ok bytes) :
    (faults 0 = none ∧ faults 1 = none ∧ readAt image faults offset count = .ok (bytes, faults.later)) ∨
    (¬ (faults 0 = none ∧ faults 1 = none) ∧ ∃ e, readAt image faults offset count = .error e) := by
  unfold readAt
  cases hseek : faults 0 with
  | some e => exact .inr ⟨nofun, _, rfl⟩
  | none =>
    dsimp only
    cases hread : faults 1 with
    | some e => exact .inr ⟨nofun, _, rfl⟩
    | none =>
      dsimp only
      rw [h]
      exact .inl ⟨rfl, rfl, rfl⟩

/-- What a piece of an extent gives, within the image. -/
theorem extentBytesFrom_within (faults : Faults) {e : UdfExtent} {extentOffset count : ℕ}
    (h : extentBytes image e extentOffset count = .ok bytes) (ps : List Piece) :
    (∃ faults', extentBytesFrom image faults e extentOffset count = .ok (bytes, faults') ∧
      failsAfter faults (⟨e.sourceOffset.isSome, count⟩ :: ps) =
        (failsAfter faults' ps).map (count + ·)) ∨
    ((∃ error, extentBytesFrom image faults e extentOffset count = .error error) ∧
      failsAfter faults (⟨e.sourceOffset.isSome, count⟩ :: ps) = some 0) := by
  unfold extentBytes at h
  unfold extentBytesFrom
  cases hsource : e.sourceOffset with
  | none =>
    rw [hsource] at h
    cases h
    exact .inl ⟨faults, rfl, failsAfter_hole ..⟩
  | some source =>
    rw [hsource] at h
    obtain ⟨offset, hoffset, hread⟩ := bind_eq_ok.mp h
    dsimp only
    rw [hoffset, ok_bind, Option.isSome_some]
    rcases readAt_within faults hread with ⟨hseek, hfirst, hat⟩ | ⟨hfails, hat⟩
    · exact .inl ⟨faults.later, hat, failsAfter_recorded hseek hfirst ..⟩
    · exact .inr ⟨hat, failsAfter_failing hfails ..⟩

/-- **A round takes the next piece, or fails and leaves the cursor where it is.** -/
theorem readRoundFrom_spec (hmax : image.length ≤ u64Max) (hc : Sane image c) (hn : 0 < n)
    (hle : n ≤ c.remaining) (faults : Faults) :
    (∃ bytes c' faults', readRoundFrom image faults c n = (c', .ok (bytes, faults')) ∧
      failsAfter faults (pieces c n) =
        (failsAfter faults' (pieces c' (n - bytes.length))).map (bytes.length + ·)) ∨
    ((∃ e, readRoundFrom image faults c n = (c, .error e)) ∧
      failsAfter faults (pieces c n) = some 0) := by
  obtain ⟨bytes, c', hround, -, -, -, -, hremaining⟩ := readRound_left hmax hc hn hle
  unfold readRound at hround
  unfold readRoundFrom
  cases hpayload : c.payload with
  | none =>
    rw [hpayload] at hround
    cases hround
  | inline data location =>
    rw [hpayload] at hround
    obtain ⟨hcount, hround⟩ := guard_eq_ok.mp hround
    obtain ⟨position, hposition, hround⟩ := bind_eq_ok.mp hround
    cases hround
    left
    dsimp only
    rw [if_neg hcount, okOr_eq_ok.mp hposition]
    refine ⟨_, _, faults, rfl, ?_⟩
    unfold pieces
    rw [hpayload]
    rfl
  | extents es =>
    rw [hpayload] at hround
    dsimp only at hround ⊢
    cases hextent : es[c.extentIndex]? with
    | none =>
      rw [hextent] at hround
      cases hround
    | some e =>
      rw [hextent] at hround
      dsimp only at hround ⊢
      by_cases havailable : e.length - c.extentOffset = 0
      · rw [if_pos havailable] at hround
        cases hround
        left
        rw [if_pos havailable]
        refine ⟨_, _, faults, rfl, ?_⟩
        rw [pieces_skip hpayload hextent havailable]
        unfold pieces
        simp only [List.length_nil, Nat.sub_zero, Nat.zero_add, Option.map_id']
      · rw [if_neg havailable] at hround
        obtain ⟨bs, hbytes, hround⟩ := bind_eq_ok.mp hround
        obtain ⟨position, hposition, hround⟩ := bind_eq_ok.mp hround
        obtain ⟨rfl, rfl⟩ := Prod.mk.inj (Except.ok.inj hround)
        rw [if_neg havailable, pieces_cons hpayload hextent hn havailable]
        have hlength : bs.length = min (e.length - c.extentOffset) n := by
          dsimp only at hremaining
          omega
        generalize hk : min (e.length - c.extentOffset) n = count at *
        rcases extentBytesFrom_within faults hbytes
          (piecesOf (es.drop (c.extentIndex + 1)) 0 (n - count)) with
          ⟨faults', hfrom, hfails⟩ | ⟨⟨error, hfrom⟩, hfails⟩
        · left
          rw [hfrom]
          dsimp only
          rw [okOr_eq_ok.mp hposition]
          refine ⟨_, _, faults', rfl, ?_⟩
          rw [hfails, hlength]
          congr 2
          -- the extent is used up, or the request is served
          by_cases hend : e.length - (c.extentOffset + count) = 0
          · exact (pieces_skip (c := { c with
              payload := .extents es, extentOffset := c.extentOffset + count, position := position,
              remaining := c.remaining - count }) rfl hextent hend).symm
          · have hserved : n - count = 0 := by omega
            rw [hserved, piecesOf_zero]
            unfold pieces
            exact (piecesOf_zero ..).symm
        · right
          rw [hfrom]
          exact ⟨⟨error, rfl⟩, hfails⟩

/-- What a request takes from its cursor, and what becomes of it: with no failure it is delivered whole;
else it is lost, as far as it has come. -/
structure Takes (image : List Byte) (failing : Option ℕ) (c : UdfDataCursor) (n : ℕ)
    (result : UdfDataCursor × Except StreamError (List Byte)) (taken : List Byte) : Prop where
  left_eq : left image c = taken ++ left image result.1
  payload_eq : result.1.payload = c.payload
  sane : Sane image result.1
  remaining : result.1.remaining + taken.length = c.remaining
  whole : failing = none → taken.length = n ∧ result.2 = .ok taken
  lost : ∀ k, failing = some k → taken.length = k ∧ ∃ e, result.2 = .error e

/-- **The loop takes what comes before the first failure.** -/
theorem readLoopFrom_spec (hmax : image.length ≤ u64Max) : ∀ {fuel n : ℕ} (faults : Faults)
    {c : UdfDataCursor}, extentCount c.payload - c.extentIndex + n ≤ fuel → Sane image c →
    n ≤ c.remaining → ∃ result taken, readLoopFrom image fuel faults c n = some result ∧
      Takes image (failsAfter faults (pieces c n)) c n result taken
  | _, 0, faults, c, _, hc, _ => by
    refine ⟨(c, .ok []), [], by rw [readLoopFrom], ⟨rfl, rfl, hc, rfl, fun _ => ⟨rfl, rfl⟩, ?_⟩⟩
    unfold pieces
    intro k hk
    cases hpayload : c.payload with
    | none =>
      rw [hpayload] at hk
      cases hk
    | inline data location =>
      rw [hpayload] at hk
      cases hk
    | extents es =>
      rw [hpayload] at hk
      dsimp only at hk
      rw [piecesOf_zero] at hk
      cases hk
  | 0, _ + 1, _, _, h, _, _ => by omega
  | fuel + 1, n + 1, faults, c, h, hc, hle => by
    rcases readRoundFrom_spec hmax hc (by omega) hle faults with
      ⟨bytes, c', faults', hround, hfails⟩ | ⟨⟨e, hround⟩, hfails⟩
    · have hplain := readRound_of_ok hround
      obtain ⟨bytes', c'', hround', hlength, hleft, hpayload, hc', hremaining⟩ :=
        readRound_left hmax hc (Nat.succ_pos n) hle
      obtain ⟨rfl, rfl⟩ := Prod.mk.inj (Except.ok.inj (hround'.symm.trans hplain))
      obtain ⟨-, hprogress⟩ := readRound_progress (Nat.succ_pos n) hplain
      have hfuel : extentCount c''.payload - c''.extentIndex + (n + 1 - bytes'.length) ≤ fuel := by
        rw [hpayload]
        omega
      obtain ⟨⟨last, answer⟩, rest, hloop, hrest⟩ :=
        readLoopFrom_spec hmax faults' hfuel hc' (by omega)
      obtain ⟨hleft', hpayload', hlast, hremaining', hwhole, hlost⟩ := hrest
      refine ⟨(last, answer.map (bytes' ++ ·)), bytes' ++ rest, ?_, ⟨?_, ?_, hlast, ?_, ?_, ?_⟩⟩
      · rw [readLoopFrom, hround]
        dsimp only
        rw [hloop]
        rfl
      · rw [hleft, hleft', List.append_assoc]
      · exact hpayload'.trans hpayload
      · rw [List.length_append]
        dsimp only at hremaining' ⊢
        omega
      · intro hnone
        rw [hfails, Option.map_eq_none_iff] at hnone
        obtain ⟨hcount, hanswer⟩ := hwhole hnone
        dsimp only at hanswer ⊢
        refine ⟨by rw [List.length_append]; omega, ?_⟩
        rw [hanswer]
        rfl
      · intro k hk
        rw [hfails, Option.map_eq_some_iff] at hk
        obtain ⟨j, hj, rfl⟩ := hk
        obtain ⟨hcount, error, hanswer⟩ := hlost j hj
        dsimp only at hanswer ⊢
        refine ⟨by rw [List.length_append]; omega, error, ?_⟩
        rw [hanswer]
        rfl
    · refine ⟨(c, .error e), [], ?_, ⟨rfl, rfl, hc, rfl, ?_, ?_⟩⟩
      · rw [readLoopFrom, hround]
      · intro hnone
        rw [hfails] at hnone
        cases hnone
      · intro k hk
        rw [hfails] at hk
        exact ⟨Option.some.inj hk, e, rfl⟩

/-- **A request within what is owed.** -/
theorem readExactFrom_spec (hmax : image.length ≤ u64Max) (hc : Sane image c)
    (hle : n ≤ c.remaining) (faults : Faults) :
    ∃ taken, Takes image (failsAfter faults (pieces c n)) c n (readExactFrom image faults c n)
      taken := by
  obtain ⟨result, taken, hloop, htakes⟩ := readLoopFrom_spec hmax faults le_rfl hc hle
  refine ⟨taken, ?_⟩
  unfold readExactFrom
  rw [if_neg (by omega)]
  simp only [hloop, Option.get_some]
  exact htakes

end LibarchiveOxide.Udf.Failing
