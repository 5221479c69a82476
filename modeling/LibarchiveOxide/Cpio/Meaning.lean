import LibarchiveOxide.Core.Meaning
import LibarchiveOxide.Cpio.DecoderLemmas

/-! # The cpio decoder and the chunking

The decoder is faithful to the machine that takes its turns on all of the stream (`cpio_faithful`) as
long as that machine does not come to the end of the archive with bytes left. -/

namespace LibarchiveOxide.Cpio.Meaning

open Core.Failure Core.Budget Core.Metadata Core.Protocol Core.Drive Core.Meaning Cpio.Header
open Cpio.Decoder Cpio.Decoder.CpioDecoder Lib Lib.Machine Lib.Result

/-! ### The reading of a header -/

section
variable {limits : Limits} {eoi : EndOfInput} {header input rest : List Byte} {target : Option ℕ}

/-- What the header lacks to its target. -/
def gap (header : List Byte) (target : Option ℕ) : ℕ := target.getD 2 - header.length

theorem gap_pos (h : Reading limits header target) : 0 < gap header target := by
  have := h.2
  unfold gap
  omega

/-- The header with the bytes that it lacked. -/
def filled (header : List Byte) (target : Option ℕ) (input : List Byte) : List Byte :=
  header ++ input.take (gap header target)

/-- A target beyond the bytes that have been read. -/
def wants (header : List Byte) (next : Option ℕ) : Bool :=
  next.any fun needed => decide (header.length < needed)

theorem reading_filled (h : Reading limits header target) (hle : gap header target ≤ input.length)
    {next : Option ℕ} (hn : targetFromPrefix limits (filled header target input) = .ok next)
    (hw : wants (filled header target input) next = true) :
    Reading limits (filled header target input) next := by
  obtain ⟨needed, rfl, hneed⟩ := (Option.any_eq_true _ _).mp hw
  have hneed : (filled header target input).length < needed := by simpa using hneed
  have hlen : (filled header target input).length = target.getD 2 := by
    have := h.2
    unfold gap at hle
    rw [filled, gap, List.length_append, List.length_take]
    omega
  have hlt : target.getD 2 < needed := hlen ▸ hneed
  refine ⟨?_, hneed⟩
  refine .next (h.1.append _) hlen.ge ?_ hlt
  rw [← hlen]
  exact (congrArg _ (List.take_length ..)).trans hn

/-- A round of the header loop. -/
theorem headerLoop_succ (h : Reading limits header target) (n c : ℕ) :
    headerLoop limits eoi (n + 1) header target input c =
      if input.length < gap header target then
        if eoi = .end then .error (cpioError .malformed "truncated entry header")
        else .ok (.starved (c + input.length) (header ++ input) target)
      else do
        let next ← targetFromPrefix limits (filled header target input)
        if wants (filled header target input) next then
          if gap header target = input.length then
            return .starved (c + input.length) (header ++ input) next
          else
            headerLoop limits eoi n (filled header target input) next
              (input.drop (gap header target)) (c + gap header target)
        else return .complete (c + gap header target) (filled header target input) := by
  have hlt := h.2
  rw [headerLoop, target_of_reading h]
  by_cases hshort : input.length < gap header target
  · have hcount : min (target.getD 2 - header.length) input.length = input.length := by
      unfold gap at hshort
      omega
    have hlen : (header ++ input).length < target.getD 2 := by
      unfold gap at hshort
      rw [List.length_append]
      omega
    simp only [hcount, List.take_length]
    rw [if_pos hshort, if_pos hlen]
  · have hcount : min (target.getD 2 - header.length) input.length = gap header target := by
      unfold gap at hshort ⊢
      omega
    have hlen : ¬ (header ++ input.take (gap header target)).length < target.getD 2 := by
      unfold gap at hshort ⊢
      rw [List.length_append, List.length_take]
      omega
    simp only [hcount]
    rw [if_neg hshort, if_neg hlen]
    congr 1
    funext next
    by_cases hall : gap header target = input.length
    · rw [if_pos hall, if_pos hall, hall, List.take_length, filled, hall, List.take_length]
      rfl
    · rw [if_neg hall, if_neg hall]
      rfl

/-- More rounds than there are bytes make no difference. -/
theorem headerLoop_rounds : ∀ (n m : ℕ) {header input : List Byte} {target : Option ℕ} (c : ℕ),
    Reading limits header target → input.length < n → input.length < m →
    headerLoop limits eoi n header target input c = headerLoop limits eoi m header target input c
  | 0, m, _, _, _, _, _, hn, _ => by omega
  | n + 1, 0, _, _, _, _, _, _, hm => by omega
  | n + 1, m + 1, header, input, target, c, h, hn, hm => by
    rw [headerLoop_succ h, headerLoop_succ h]
    by_cases hshort : input.length < gap header target
    · rw [if_pos hshort, if_pos hshort]
    rw [if_neg hshort, if_neg hshort]
    cases hnext : targetFromPrefix limits (filled header target input) with
    | error e => rfl
    | ok next =>
      simp only [ok_bind]
      by_cases hw : wants (filled header target input) next = true
      · have hpos := gap_pos h
        rw [if_pos hw, if_pos hw, headerLoop_rounds n m _ (reading_filled h (by omega) hnext hw)
          (by rw [List.length_drop]; omega) (by rw [List.length_drop]; omega)]
      · rw [if_neg hw, if_neg hw]

/-- Bytes below the target are read in one round or in two. -/
theorem headerLoop_absorb {n m : ℕ} (c : ℕ) (h : Reading limits header target)
    (hshort : input.length < gap header target) (hn : input.length + rest.length < n)
    (hm : rest.length < m) :
    headerLoop limits eoi n header target (input ++ rest) c =
      headerLoop limits eoi m (header ++ input) target rest (c + input.length) := by
  obtain ⟨n, rfl⟩ : ∃ k, n = k + 1 := ⟨n - 1, by omega⟩
  obtain ⟨m, rfl⟩ : ∃ k, m = k + 1 := ⟨m - 1, by omega⟩
  have hgap : gap header target = input.length + gap (header ++ input) target := by
    unfold gap at hshort ⊢
    rw [List.length_append]
    omega
  have hread : Reading limits (header ++ input) target := by
    refine ⟨h.1.append _, ?_⟩
    unfold gap at hshort
    rw [List.length_append]
    omega
  have hfilled : filled header target (input ++ rest) = filled (header ++ input) target rest := by
    rw [filled, filled, hgap, List.take_length_add_append, List.append_assoc]
  have hdrop : (input ++ rest).drop (gap header target) =
      rest.drop (gap (header ++ input) target) := by
    rw [hgap, List.drop_length_add_append]
  rw [headerLoop_succ h, headerLoop_succ hread, hfilled, hdrop, List.length_append, hgap]
  simp only [Nat.add_lt_add_iff_left, Nat.add_left_cancel_iff, List.append_assoc, Nat.add_assoc]
  by_cases hlt : rest.length < gap (header ++ input) target
  · rw [if_pos hlt, if_pos hlt]
  rw [if_neg hlt, if_neg hlt]
  cases hnext : targetFromPrefix limits (filled (header ++ input) target rest) with
  | error e => rfl
  | ok next =>
    simp only [ok_bind]
    by_cases hw : wants (filled (header ++ input) target rest) next = true
    · have hpos := gap_pos hread
      rw [if_pos hw, if_pos hw, headerLoop_rounds n m _ (reading_filled hread (by omega) hnext hw)
        (by rw [List.length_drop]; omega) (by rw [List.length_drop]; omega)]
    · rw [if_neg hw, if_neg hw]

/-- What the header loop does on a part of the stream, beside what it does on all of it. -/
inductive Extends (limits : Limits) (input rest : List Byte) (c : ℕ)
    (all : Except ArchiveError HeaderRead) : Except ArchiveError HeaderRead → Prop
  | same : Extends limits input rest c all all
  | absorbed {header : List Byte} {target : Option ℕ} (hr : Reading limits header target)
      (h : all = headerLoop limits .end (rest.length + 2) header target rest (c + input.length)) :
      Extends limits input rest c all (.ok (.starved (c + input.length) header target))

/-- **Bytes that follow change nothing that is read before them.** -/
theorem headerLoop_append (hrest : rest ≠ []) :
    ∀ (n m : ℕ) {header input : List Byte} {target : Option ℕ} (c : ℕ),
    Reading limits header target → input.length < n → input.length + rest.length < m →
    Extends limits input rest c (headerLoop limits .end m header target (input ++ rest) c)
      (headerLoop limits .more n header target input c)
  | 0, m, _, _, _, _, _, hn, _ => by omega
  | n + 1, 0, _, _, _, _, _, _, hm => by omega
  | n + 1, m + 1, header, input, target, c, h, hn, hm => by
    have hpos := gap_pos h
    by_cases hshort : input.length < gap header target
    · rw [headerLoop_absorb c h hshort hm (Nat.lt_add_of_pos_right (by omega : 0 < 2)),
        headerLoop_succ h, if_pos hshort, if_neg (by decide)]
      refine .absorbed ⟨h.1.append _, ?_⟩ rfl
      unfold gap at hshort
      rw [List.length_append]
      omega
    have hle : gap header target ≤ input.length := by omega
    have hfilled : filled header target (input ++ rest) = filled header target input := by
      rw [filled, filled, List.take_append_of_le_length hle]
    have hlen : 0 < rest.length := List.length_pos_iff.mpr hrest
    rw [headerLoop_succ h, headerLoop_succ h, hfilled, List.length_append, if_neg hshort,
      if_neg (by omega)]
    cases hnext : targetFromPrefix limits (filled header target input) with
    | error e => exact .same
    | ok next =>
      simp only [ok_bind]
      by_cases hw : wants (filled header target input) next = true
      · have hread := reading_filled h hle hnext hw
        rw [if_pos hw, if_pos hw, if_neg (by omega), List.drop_append_of_le_length hle]
        by_cases hall : gap header target = input.length
        · -- the part ends where a target is reached
          have hnil : input.drop (gap header target) = [] := by
            rw [hall, List.drop_length]
          have hin : filled header target input = header ++ input := by
            rw [filled, hall, List.take_length]
          rw [if_pos hall, hnil, List.nil_append, ← hin, hall]
          refine .absorbed hread ?_
          exact headerLoop_rounds _ _ _ hread (by omega) (by omega)
        · rw [if_neg hall]
          have hdrop : (input.drop (gap header target)).length = input.length - gap header target :=
            List.length_drop ..
          have ih := @headerLoop_append hrest n m _ (input.drop (gap header target)) _
            (c + gap header target) hread (by omega) (by omega)
          have hsum : c + gap header target + (input.drop (gap header target)).length =
              c + input.length := by omega
          generalize headerLoop limits .more n (filled header target input) next
            (input.drop (gap header target)) (c + gap header target) = part at ih ⊢
          cases ih with
          | same => exact .same
          | absorbed hr hall =>
            rw [hsum] at hall ⊢
            exact .absorbed hr hall
      · rw [if_neg hw, if_neg hw]
        exact .same

/-- Without more bytes the loop ends alike, or it has taken them in and wants more. -/
theorem headerLoop_more : ∀ (n : ℕ) {header input : List Byte} {target : Option ℕ} (c : ℕ),
    Reading limits header target → input.length < n →
    headerLoop limits .more n header target input c = headerLoop limits .end n header target input c ∨
    ∃ header' target' e, Reading limits header' target' ∧
      headerLoop limits .more n header target input c =
        .ok (.starved (c + input.length) header' target') ∧
      headerLoop limits .end n header target input c = .error e
  | 0, _, _, _, _, _, hn => by omega
  | n + 1, header, input, target, c, h, hn => by
    have hpos := gap_pos h
    rw [headerLoop_succ h, headerLoop_succ h]
    by_cases hshort : input.length < gap header target
    · rw [if_pos hshort, if_pos hshort, if_neg (by decide), if_pos rfl]
      refine .inr ⟨_, _, _, ⟨h.1.append _, ?_⟩, rfl, rfl⟩
      unfold gap at hshort
      rw [List.length_append]
      omega
    rw [if_neg hshort, if_neg hshort]
    cases hnext : targetFromPrefix limits (filled header target input) with
    | error e => exact .inl rfl
    | ok next =>
      simp only [ok_bind]
      by_cases hw : wants (filled header target input) next = true
      · rw [if_pos hw, if_pos hw]
        by_cases hall : gap header target = input.length
        · rw [if_pos hall, if_pos hall]
          exact .inl rfl
        · rw [if_neg hall, if_neg hall]
          have hdrop : (input.drop (gap header target)).length = input.length - gap header target :=
            List.length_drop ..
          have hsum : c + gap header target + (input.drop (gap header target)).length =
              c + input.length := by omega
          have ih := @headerLoop_more n _ (input.drop (gap header target)) _
            (c + gap header target) (reading_filled h (by omega) hnext hw) (by omega)
          rw [hsum] at ih
          exact ih
      · rw [if_neg hw, if_neg hw]
        exact .inl rfl

end

/-! ### Turns -/

/-- The reading of a header that is told of some more bytes consumed before it. -/
def shiftRead (k : ℕ) : HeaderRead → HeaderRead
  | .starved c header target => .starved (c + k) header target
  | .complete c header => .complete (c + k) header

theorem headerLoop_shift {limits : Limits} {eoi : EndOfInput} (k : ℕ) :
    ∀ (n : ℕ) (header : List Byte) (target : Option ℕ) (input : List Byte) (c : ℕ),
    headerLoop limits eoi n header target input (c + k) =
      headerLoop limits eoi n header target input c >>= fun r => .ok (shiftRead k r)
  | 0, _, _, _, _ => rfl
  | n + 1, header, target, input, c => by
    simp only [headerLoop, Nat.add_right_comm c k, headerLoop_shift k n]
    generalize min (target.getD (defaultTarget header) - header.length) input.length = count
    by_cases hshort : (header ++ input.take count).length < target.getD (defaultTarget header)
    · rw [if_pos hshort, if_pos hshort]
      split_ifs
      · rfl
      · rfl
    rw [if_neg hshort, if_neg hshort]
    cases targetFromPrefix limits (header ++ input.take count) with
    | error e => rfl
    | ok next =>
      simp only [ok_bind]
      split_ifs
      · rfl
      · rfl
      · rfl

/-- The bytes a turn consumes. -/
def taken : Turn → ℕ
  | .stop s => s.consumed
  | .again k => k

/-- A turn that is told of some more bytes consumed before it. -/
def shiftTurn (k : ℕ) (r : Turn × CpioDecoder) : Turn × CpioDecoder :=
  (match r.1 with
    | .stop s => .stop { s with consumed := s.consumed + k }
    | .again c => .again (c + k), r.2)

section
variable {d d' : CpioDecoder} {input rest S : List Byte} {eoi : EndOfInput} {t : Turn}

theorem enter_shift (k c : ℕ) (p : ParsedHeader) :
    d.enter (c + k) p = d.enter c p >>= fun r => .ok (shiftTurn k r) := by
  unfold enter
  by_cases ht : p.trailer = true
  · rw [if_pos ht, if_pos ht]
    dsimp only
    cases ({ d.resolveIncompleteHardlinks with state := .done } : CpioDecoder).popQueued with
    | none => rfl
    | some r => rfl
  rw [if_neg ht, if_neg ht]
  cases okOr (checkedAdd d.entries 1) (cpioError .limit "entry count overflow") with
  | error e => rfl
  | ok entries =>
    simp only [ok_bind]
    split_ifs
    · rfl
    · cases ({ d with entries } : CpioDecoder).classifyHardlink p.metadata p.size with
      | error e => rfl
      | ok r =>
        obtain ⟨result, d1⟩ := r
        cases result with
        | none => rfl
        | some m => rfl

/-- What follows the header loop. -/
def afterRead (d : CpioDecoder) : HeaderRead → Except ArchiveError (Turn × CpioDecoder)
  | .starved consumed header headerTarget =>
    .ok (.stop ⟨consumed, 0, .needInput⟩, { d with header, headerTarget })
  | .complete consumed header => do
    let parsed ← parseHeader d.limits header
    d.cleared.enter consumed parsed

theorem turnHeader_eq : d.turnHeader input eoi =
    headerLoop d.limits eoi (input.length + 2) d.header d.headerTarget input 0 >>= afterRead d := by
  unfold turnHeader
  congr 1

theorem afterRead_shift (k : ℕ) (r : HeaderRead) :
    afterRead d (shiftRead k r) = afterRead d r >>= fun r => .ok (shiftTurn k r) := by
  cases r with
  | starved c header target => rfl
  | complete c header =>
    simp only [shiftRead, afterRead, enter_shift]
    cases parseHeader d.limits header with
    | error e => rfl
    | ok p => rfl

theorem afterRead_header (header : List Byte) (target : Option ℕ) (r : HeaderRead) :
    afterRead { d with header, headerTarget := target } r = afterRead d r := by
  cases r with
  | starved => rfl
  | complete => rfl

/-- The machine that takes turns on all of the stream. -/
def reader : Reader CpioDecoder := fun c =>
  match c.1.turn c.2 .end with
  | .error _ => .halt (if c.1.state = .done then .refused else .fail)
  | .ok (.again k, d) => .next [] (d, c.2.drop k)
  | .ok (.stop s, d) =>
    if s.event = .done then .halt .done else .next (atoms s.event) (d, c.2.drop s.consumed)

theorem reader_fail {e : ArchiveError} (h : d.turn S .end = .error e) (hs : d.state ≠ .done) :
    reader (d, S) = .halt .fail := by
  simp only [reader, h, if_neg hs]

/-- A turn on a part of the stream follows the machine on all of it. -/
inductive Follows (d : CpioDecoder) (S : List Byte) : Except ArchiveError (Turn × CpioDecoder) → Prop
  | error {e : ArchiveError} (h : Halts reader (d, S) [] .fail) : Follows d S (.error e)
  | again {k : ℕ} {d' : CpioDecoder} (h : Continues reader (d, S) [] (d', S.drop k)) :
      Follows d S (.ok (.again k, d'))
  | stop {s : DecodeStep} {d' : CpioDecoder} (hd : s.event ≠ .done)
      (h : Continues reader (d, S) (atoms s.event) (d', S.drop s.consumed)) :
      Follows d S (.ok (.stop s, d'))
  | done {s : DecodeStep} {d' : CpioDecoder} (hd : s.event = .done)
      (h : Halts reader (d, S) [] .done) : Follows d S (.ok (.stop s, d'))

/-- The machine does not come to the end of the archive with bytes left. -/
def Accepted (d : CpioDecoder) (S : List Byte) : Prop := ∀ as, ¬ Halts reader (d, S) as .refused

theorem follows_same (ha : Accepted d S) {r : Except ArchiveError (Turn × CpioDecoder)}
    (h : d.turn S .end = r) : Follows d S r := by
  cases r with
  | error e =>
    refine .error (.of_halt ?_)
    have hne : d.state ≠ .done := by
      intro hs
      refine ha [] (.of_halt ?_)
      simp only [reader, h, if_pos hs]
    exact reader_fail h hne
  | ok r =>
    obtain ⟨t, d'⟩ := r
    cases t with
    | again k =>
      refine .again (.of_steps (.single ?_))
      simp only [reader, h]
    | stop s =>
      by_cases hd : s.event = .done
      · refine .done hd (.of_halt ?_)
        simp only [reader, h, if_pos hd]
      · refine .stop hd (.of_steps (.single ?_))
        simp only [reader, h, if_neg hd]

/-- A turn that waits. -/
theorem follows_wait : Follows d S (.ok (.stop ⟨0, 0, .needInput⟩, d)) := by
  refine .stop (by simp) ?_
  rw [List.drop_zero]
  exact .refl _

theorem turn_header (hs : d.state = .header) (hq : d.queued = []) :
    d.turn input eoi = d.turnHeader input eoi := by
  rw [turn, hs]
  simp only [popQueued, hq]

/-- A stream that ends in a header. -/
theorem turn_nil_end (hr : Reading d.limits d.header d.headerTarget) (hs : d.state = .header)
    (hq : d.queued = []) :
    d.turn [] .end = .error (cpioError .malformed "truncated entry header") := by
  have hgap : ([] : List Byte).length < gap d.header d.headerTarget := gap_pos hr
  rw [turn_header hs hq, turnHeader_eq, List.length_nil, headerLoop_succ hr, if_pos hgap,
    if_pos rfl, error_bind]

theorem reader_of_shift {k : ℕ} (hd : d.state = .header) (hd' : d'.state = .header)
    (h : d.turn S .end = d'.turn (S.drop k) .end >>= fun r => .ok (shiftTurn k r)) :
    reader (d, S) = reader (d', S.drop k) := by
  unfold reader
  simp only
  rw [h, hd, hd']
  cases d'.turn (S.drop k) .end with
  | error e => rfl
  | ok r =>
    obtain ⟨t, d''⟩ := r
    cases t with
    | again c => simp only [ok_bind, shiftTurn, List.drop_drop, Nat.add_comm c]
    | stop s => simp only [ok_bind, shiftTurn, List.drop_drop, Nat.add_comm s.consumed]

/-- A header is read alike however the stream is cut. -/
theorem follows_header (ha : Accepted d (input ++ rest))
    (hr : Reading d.limits d.header d.headerTarget) (hs : d.state = .header) (hq : d.queued = []) :
    Follows d (input ++ rest) (d.turn input .more) := by
  have hwhole : d.turn (input ++ rest) .end = headerLoop d.limits .end
      ((input ++ rest).length + 2) d.header d.headerTarget (input ++ rest) 0 >>= afterRead d := by
    rw [turn_header hs hq, turnHeader_eq]
  rw [turn_header hs hq, turnHeader_eq]
  by_cases hrest : rest = []
  · subst hrest
    rw [List.append_nil] at hwhole ha ⊢
    rcases headerLoop_more (input.length + 2) 0 hr (Nat.lt_add_of_pos_right Nat.two_pos) with
      h | ⟨header, target, e, hr', h, he⟩
    · rw [h]
      exact follows_same ha hwhole
    · -- the stream ends in the header
      rw [h, ok_bind, afterRead, Nat.zero_add]
      rw [he, error_bind] at hwhole
      refine .stop (by simp) (.of_eq ?_)
      have hfail := turn_nil_end (d := { d with header, headerTarget := target }) hr' hs hq
      unfold reader
      simp only [List.drop_length]
      rw [hwhole, hfail]
  · have hext := @headerLoop_append _ _ hrest (input.length + 2) ((input ++ rest).length + 2) _
      input _ 0 hr (by omega) (by rw [List.length_append]; omega)
    generalize hall : headerLoop d.limits .end ((input ++ rest).length + 2) d.header d.headerTarget
      (input ++ rest) 0 = all at hext hwhole
    generalize headerLoop d.limits .more (input.length + 2) d.header d.headerTarget input 0 = part
      at hext ⊢
    cases hext with
    | same => exact follows_same ha hwhole
    | @absorbed header target hr' h =>
      rw [ok_bind, afterRead, Nat.zero_add]
      refine .stop (by simp) (.of_eq ?_)
      refine reader_of_shift hs hs ?_
      rw [hwhole, h, List.drop_left,
        turn_header (d := { d with header, headerTarget := target }) hs hq, turnHeader_eq,
        headerLoop_shift]
      simp only [bind_assoc, ok_bind, afterRead_shift, afterRead_header]

/-- A decoder in a run, with the rest of its stream. -/
structure Running (d : CpioDecoder) (S : List Byte) : Prop where
  limits : d.limits = .unlimited
  reading : Reading d.limits d.header d.headerTarget
  total : d.total + S.length ≤ u64Max
  accepted : Accepted d S

/-- The decoder that has read bytes of a payload. -/
def consume (d : CpioDecoder) (remaining padding : ℕ) (checksum : Option UInt32) (actual : UInt32)
    (emitEnd : Bool) (bytes : List Byte) : CpioDecoder :=
  { d with
    total := d.total + bytes.length
    state := .data (remaining - bytes.length) padding checksum (byteSum actual bytes) emitEnd }

theorem byteSum_append (acc : UInt32) (xs ys : List Byte) :
    byteSum acc (xs ++ ys) = byteSum (byteSum acc xs) ys := List.foldl_append ..

theorem consume_append (remaining padding : ℕ) (checksum : Option UInt32) (actual : UInt32)
    (emitEnd : Bool) (xs ys : List Byte) :
    consume d remaining padding checksum actual emitEnd (xs ++ ys) =
      consume (consume d remaining padding checksum actual emitEnd xs) (remaining - xs.length) padding
        checksum (byteSum actual xs) emitEnd ys := by
  simp only [consume, byteSum_append, List.length_append, Nat.sub_sub, Nat.add_assoc]

variable {checksum : Option UInt32}

/-- Data within the budgets. -/
theorem turn_data {remaining padding : ℕ} {actual : UInt32} {emitEnd : Bool}
    (hs : d.state = .data remaining padding checksum actual emitEnd) (hl : d.limits = .unlimited)
    (hr : 0 < remaining) (hi : input ≠ []) (ht : d.total + input.length ≤ u64Max) :
    d.turn input eoi = .ok (.stop ⟨(input.take remaining).length, 0, .data (input.take remaining)⟩,
      consume d remaining padding checksum actual emitEnd (input.take remaining)) := by
  have hlen : (input.take remaining).length = min input.length remaining := by
    rw [List.length_take, Nat.min_comm]
  have htake : input.take (min input.length remaining) = input.take remaining := by
    rw [← hlen]
    exact (List.take_eq_take_iff ..).mpr (by rw [List.length_take]; omega)
  rw [turn, hs]
  simp only
  rw [turnData, if_neg (by omega), if_neg (by simpa using hi)]
  dsimp only
  rw [checkedAdd_of_le (by omega), hl, htake]
  simp only [consume, hlen, hl]
  rfl

theorem follows_data {remaining padding : ℕ} {actual : UInt32} {emitEnd : Bool}
    (h : Running d (input ++ rest))
    (hs : d.state = .data remaining padding checksum actual emitEnd) :
    Follows d (input ++ rest) (d.turn input .more) := by
  by_cases hr : remaining = 0
  · refine follows_same h.accepted ?_
    rw [turn, turn, hs]
    simp only [turnData, if_pos hr]
  by_cases hi : input = []
  · have hwait : d.turn input .more = .ok (.stop ⟨0, 0, .needInput⟩, d) := by
      rw [turn, hs]
      simp only [turnData, hi]
      rw [if_neg hr, List.isEmpty_nil, if_pos rfl, if_neg (by decide)]
    rw [hwait]
    exact follows_wait
  have htotal := h.total
  rw [List.length_append] at htotal
  have hpos : 0 < remaining := by omega
  rw [turn_data hs h.limits hpos hi (by omega)]
  have hwhole := @turn_data _ (input ++ rest) .end _ _ _ _ _ hs h.limits hpos (by simp [hi])
    (by rw [List.length_append]; omega)
  by_cases hmore : input.length < remaining ∧ rest ≠ []
  · -- the rest of the stream has more of the same data
    obtain ⟨hlt, hrest⟩ := hmore
    have htake : input.take remaining = input := List.take_of_length_le hlt.le
    have hsplit : (input ++ rest).take remaining = input ++ rest.take (remaining - input.length) := by
      rw [List.take_append, htake]
    have hpart := @turn_data (consume d remaining padding checksum actual emitEnd input) rest
      .end _ _ _ _ _ rfl h.limits (Nat.sub_pos_of_lt hlt) hrest (by simp only [consume]; omega)
    rw [hsplit, consume_append] at hwhole
    rw [htake]
    generalize consume (consume d remaining padding checksum actual emitEnd input)
      (remaining - input.length) padding checksum (byteSum actual input) emitEnd
      (rest.take (remaining - input.length)) = d'' at hwhole hpart
    generalize rest.take (remaining - input.length) = more at hwhole hpart
    refine .stop (by simp) (@Continues.of_next _ _ _ _ _ _ (d'', rest.drop more.length) _
      (more.map .byte)
      ?_ ?_)
    · simp only [reader, hwhole]
      rw [if_neg (by simp), atoms, atoms, List.map_append, List.length_append,
        List.drop_length_add_append]
    · simp only [reader, List.drop_left, hpart]
      rw [if_neg (by simp), atoms]
  · have hk : (input ++ rest).take remaining = input.take remaining := by
      by_cases hr' : rest = []
      · rw [hr', List.append_nil]
      · have : ¬ input.length < remaining := fun hlt => hmore ⟨hlt, hr'⟩
        exact List.take_append_of_le_length (by omega)
    refine follows_same h.accepted ?_
    rw [hwhole, hk]

theorem follows_endEntry {padding : ℕ} {actual : UInt32} {emitEnd : Bool}
    (h : Running d (input ++ rest)) (hs : d.state = .endEntry padding checksum actual emitEnd) :
    Follows d (input ++ rest) (d.turn input .more) := by
  by_cases hlt : input.length < padding
  · have hwait : d.turn input .more = .ok (.stop ⟨0, 0, .needInput⟩, d) := by
      rw [turn, hs]
      simp only [turnEndEntry]
      rw [if_pos hlt, if_neg (by decide)]
    rw [hwait]
    exact follows_wait
  · refine follows_same h.accepted ?_
    rw [turn, turn, hs]
    simp only [turnEndEntry]
    rw [if_neg hlt, if_neg (by rw [List.length_append]; omega)]

/-- **A turn on a part of the stream follows the machine.** -/
theorem follows_turn (h : Running d (input ++ rest)) (hend : eoi = .end → rest = []) :
    Follows d (input ++ rest) (d.turn input eoi) := by
  cases eoi with
  | «end» =>
    have hrest := hend rfl
    subst hrest
    refine follows_same h.accepted ?_
    rw [List.append_nil]
  | more =>
    cases hs : d.state with
    | data => exact follows_data h hs
    | endEntry => exact follows_endEntry h hs
    | header =>
      by_cases hq : d.queued = []
      · exact follows_header h.accepted h.reading hs hq
      · obtain ⟨ev, hpop⟩ : ∃ ev, d.popQueued = some ev := by
          cases hp : d.popQueued with
          | none => exact absurd (popQueued_eq_none hp) hq
          | some ev => exact ⟨ev, rfl⟩
        refine follows_same h.accepted ?_
        rw [turn, turn, hs]
        simp only [hpop]
    | done =>
      cases hpop : d.popQueued with
      | some ev =>
        refine follows_same h.accepted ?_
        rw [turn, turn, hs]
        simp only [hpop]
      | none =>
        -- bytes that are left would be refused
        have hnil : input ++ rest = [] := by
          by_contra hne
          refine h.accepted [] (.of_halt ?_)
          have herr : d.turn (input ++ rest) .end =
              .error (cpioError .protocol "input supplied after archive completion") := by
            rw [turn, hs]
            simp only [hpop]
            rw [if_pos (by simpa using hne)]
          simp only [reader, herr, hs, if_true]
        obtain ⟨rfl, rfl⟩ := List.append_eq_nil_iff.mp hnil
        refine follows_same h.accepted ?_
        rw [turn, turn, hs]
        simp only [hpop]
        rfl

/-! ### Calls -/

/-- What a turn takes is in the input, and no more than that is counted as data. -/
theorem taken_of_turned (h : Turned d input eoi t d') :
    taken t ≤ input.length ∧ d'.total ≤ d.total + taken t := by
  cases h with
  | data remaining padding k _ _ _ _ hk =>
    refine ⟨?_, le_rfl⟩
    show k ≤ input.length
    omega
  | endEntry _ _ _ _ hle => exact ⟨hle, Nat.le_add_right _ _⟩
  | endQuiet _ _ _ _ hle => exact ⟨hle, Nat.le_add_right _ _⟩
  | starved => exact ⟨le_rfl, Nat.le_add_right _ _⟩
  | trailer _ _ _ _ hk => exact ⟨hk, Nat.le_add_right _ _⟩
  | @record hs hq k hpos hk hh p hp ht hmax hw result d1 hc =>
    have htotal : (d1.opened p result.isSome).total = d.total := (limits_of_classified hc).2.2.2.1
    rw [htotal]
    cases result with
    | none => exact ⟨hk, Nat.le_add_right _ _⟩
    | some m => exact ⟨hk, Nat.le_add_right _ _⟩
  | _ => exact ⟨Nat.zero_le _, Nat.le_add_right _ _⟩

theorem running_of_turn (h : Running d (input ++ rest)) (ht : d.turn input eoi = .ok (t, d'))
    {as : List Atom}
    (hc : Continues reader (d, input ++ rest) as (d', (input ++ rest).drop (taken t))) :
    Running d' ((input ++ rest).drop (taken t)) := by
  have hturned := turned_of_turn h.reading ht
  obtain ⟨hk, htotal⟩ := taken_of_turned hturned
  have hsum := h.total
  refine ⟨(limits_of_turned hturned).trans h.limits, reading_of_turned h.reading hturned, ?_, ?_⟩
  · rw [List.length_append] at hsum
    rw [List.length_drop, List.length_append]
    omega
  · intro bs hb
    exact h.accepted _ (hc _ _ hb)

/-- A call on a part of the stream follows the machine on all of it. -/
inductive Answers (d : CpioDecoder) (input rest : List Byte) :
    Except ArchiveError (DecodeStep × CpioDecoder) → Prop
  | error {e : ArchiveError} (h : Halts reader (d, input ++ rest) [] .fail) :
      Answers d input rest (.error e)
  | ok {s : DecodeStep} {d' : CpioDecoder} (hd : s.event ≠ .done) (hk : s.consumed ≤ input.length)
      (hr : Running d' ((input ++ rest).drop s.consumed))
      (h : Continues reader (d, input ++ rest) (atoms s.event)
        (d', (input ++ rest).drop s.consumed)) : Answers d input rest (.ok (s, d'))
  | done {s : DecodeStep} {d' : CpioDecoder} (hd : s.event = .done) (hk : s.consumed ≤ input.length)
      (h : Halts reader (d, input ++ rest) [] .done) : Answers d input rest (.ok (s, d'))

theorem answers_turns (hend : eoi = .end → rest = []) : ∀ (n : ℕ) {d : CpioDecoder}
    {input : List Byte}, Running d (input ++ rest) → Answers d input rest (turns eoi n d input)
  | 0, d, input, h => by
    refine .ok (by simp) (Nat.zero_le _) ?_ ?_
    · rw [List.drop_zero]
      exact h
    · rw [List.drop_zero]
      exact .refl _
  | n + 1, d, input, h => by
    have hf := follows_turn h hend
    rw [turns]
    cases ht : d.turn input eoi with
    | error e =>
      rw [ht] at hf
      cases hf with
      | error hh => exact .error hh
    | ok r =>
      obtain ⟨t, d1⟩ := r
      rw [ht] at hf
      have hk := (taken_of_turned (turned_of_turn h.reading ht)).1
      cases hf with
      | stop hd hc => exact .ok hd hk (running_of_turn h ht hc) hc
      | done hd hh => exact .done hd hk hh
      | @again k _ hc =>
        have hrun := running_of_turn h ht hc
        have hsum := h.total
        change k ≤ input.length at hk
        rw [taken, List.drop_append_of_le_length hk] at hrun
        rw [List.drop_append_of_le_length hk] at hc
        rw [List.length_append] at hsum
        have ih := answers_turns hend n hrun
        simp only [ok_bind]
        generalize hs : turns eoi n d1 (input.drop k) = res at ih ⊢
        -- the bytes of all turns together are in the input, so their sum does not overflow
        have hadd : ∀ c, c ≤ (input.drop k).length → addProgress c k = .ok (c + k) := by
          intro c hc'
          rw [List.length_drop] at hc'
          rw [addProgress, checkedAdd_of_le (by omega)]
          rfl
        have hdrop : ∀ c, (input ++ rest).drop (c + k) = (input.drop k ++ rest).drop c := by
          intro c
          rw [Nat.add_comm, ← List.drop_drop, List.drop_append_of_le_length hk]
        cases ih with
        | error hh => exact .error (hc _ _ hh)
        | @ok s d2 hd hk' hr hc' =>
          simp only [ok_bind, hadd s.consumed hk']
          rw [List.length_drop] at hk'
          refine .ok hd ?_ ?_ ?_
          · show s.consumed + k ≤ input.length
            omega
          · rw [hdrop]
            exact hr
          · rw [hdrop]
            exact hc.trans hc'
        | @done s d2 hd hk' hh =>
          simp only [ok_bind, hadd s.consumed hk']
          rw [List.length_drop] at hk'
          refine .done hd ?_ (hc _ _ hh)
          show s.consumed + k ≤ input.length
          omega

/-- **The cpio decoder is faithful** to the machine that takes its turns on whole streams. -/
theorem cpio_faithful : Faithful CpioDecoder.step reader Running where
  ok := by
    intro d input rest outputLen eoi s d' h _ hend hs hd
    have ha := answers_turns hend (3 * input.length + 4) h
    rw [show turns eoi (3 * input.length + 4) d input = _ from hs] at ha
    cases ha with
    | ok _ hk hr hc => exact ⟨hk, hr, hc⟩
    | done hd' => exact absurd hd' hd
  done := by
    intro d input rest outputLen eoi s d' h _ hend hs hd
    have ha := answers_turns hend (3 * input.length + 4) h
    rw [show turns eoi (3 * input.length + 4) d input = _ from hs] at ha
    cases ha with
    | ok hd' => exact absurd hd hd'
    | done _ _ hh => exact hh
  error := by
    intro d input rest outputLen eoi e h _ hend hs
    have ha := answers_turns hend (3 * input.length + 4) h
    rw [show turns eoi (3 * input.length + 4) d input = _ from hs] at ha
    cases ha with
    | error hh => exact hh

/-- A call that is given all of the stream takes turns of the machine. -/
theorem turns_end : ∀ (n : ℕ) {d d' : CpioDecoder} {S : List Byte} {s : DecodeStep},
    turns .end n d S = .ok (s, d') → (s.event = .done → Halts reader (d, S) [] .done) ∧
      (s.event ≠ .done → Continues reader (d, S) (atoms s.event) (d', S.drop s.consumed))
  | 0, d, d', S, s, h => by
    cases h
    refine ⟨nofun, fun _ => ?_⟩
    rw [List.drop_zero]
    exact .refl _
  | n + 1, d, d', S, s, h => by
    obtain ⟨⟨t, d1⟩, ht, h⟩ := bind_eq_ok.mp h
    cases t with
    | stop s1 =>
      cases h
      refine ⟨fun hd => .of_halt ?_, fun hd => .of_steps (.single ?_)⟩
      · simp only [reader, ht, if_pos hd]
      · simp only [reader, ht, if_neg hd]
    | again k =>
      obtain ⟨⟨s1, d2⟩, hrest, h⟩ := bind_eq_ok.mp h
      obtain ⟨total, hadd, h⟩ := bind_eq_ok.mp h
      obtain ⟨rfl, -⟩ := checkedAdd_eq_some.mp (okOr_eq_ok.mp hadd)
      cases h
      have hfirst : Continues reader (d, S) [] (d1, S.drop k) := by
        refine .of_steps (.single ?_)
        simp only [reader, ht]
      obtain ⟨hdone, hgo⟩ := turns_end n hrest
      refine ⟨fun hd => hfirst _ _ (hdone hd), fun hd => ?_⟩
      have hc := hfirst.trans (hgo hd)
      rw [List.drop_drop, Nat.add_comm] at hc
      exact hc

/-! ### The end of a run -/

/-- The turns that a decoder can still take without input. -/
def rank (d : CpioDecoder) : ℕ :=
  d.queued.length + match d.state with
    | .data .. => 2
    | .endEntry .. => 1
    | _ => 0

/-- A turn that gets somewhere: it takes bytes, lowers the rank or is the last one, or it wants bytes
of a stream that has no more. -/
def Advances (d : CpioDecoder) (input : List Byte) (eoi : EndOfInput) (t : Turn)
    (d' : CpioDecoder) : Prop :=
  0 < taken t ∨ rank d' < rank d ∨ ∃ s, t = .stop s ∧ (s.event = .done ∨
    (eoi = .more ∧ reader (d', input.drop s.consumed) = .halt .fail))

theorem advances_of_turned (h : Turned d input eoi t d') : Advances d input eoi t d' := by
  cases h with
  | pop hs ev rest hq =>
    refine .inr (.inl ?_)
    simp only [rank, hq, List.length_cons]
    omega
  | finished => exact .inr (.inr ⟨_, rfl, .inl rfl⟩)
  | dataEnd padding checksum actual emitEnd hs =>
    refine .inr (.inl ?_)
    simp only [rank, hs]
    omega
  | dataStarved remaining padding checksum actual emitEnd hs hpos hi he =>
    refine .inr (.inr ⟨_, rfl, .inr ⟨he, ?_⟩⟩)
    subst hi
    have herr : d.turn [] .end = .error (cpioError .malformed "truncated entry data") := by
      rw [turn, hs]
      simp only [turnData]
      rw [if_neg (by omega)]
      rfl
    exact reader_fail herr (by simp [hs])
  | data remaining padding k checksum actual emitEnd hs hk hpos => exact .inl hpos
  | endStarved padding checksum actual emitEnd hs hlt he =>
    refine .inr (.inr ⟨_, rfl, .inr ⟨he, ?_⟩⟩)
    have herr : d.turn input .end = .error (cpioError .malformed "truncated entry padding") := by
      rw [turn, hs]
      simp only [turnEndEntry]
      rw [if_pos hlt]
      rfl
    exact reader_fail herr (by simp [hs])
  | endEntry padding checksum actual hs =>
    refine .inr (.inl ?_)
    simp only [rank, hs]
    omega
  | endQuiet padding checksum actual hs =>
    refine .inr (.inl ?_)
    simp only [rank, hs]
    omega
  | starved hs hq target hi hr' =>
    by_cases hnil : input = []
    · subst hnil
      have he : eoi = .more := by simpa using hi
      refine .inr (.inr ⟨_, rfl, .inr ⟨he, ?_⟩⟩)
      have herr := turn_nil_end (d := { d with header := d.header ++ [], headerTarget := target })
        hr' hs hq
      exact reader_fail herr (by simp [hs])
    · exact .inl (List.length_pos_iff.mpr hnil)
  | trailer hs hq k hpos => exact .inl hpos
  | @record hs hq k hpos hk hh p hp ht hmax hw result d1 hc =>
    cases result with
    | none => exact .inl hpos
    | some m => exact .inl hpos

/-- What a call keeps, and that it gets somewhere. -/
structure Called (d : CpioDecoder) (input : List Byte) (eoi : EndOfInput) (s : DecodeStep)
    (d' : CpioDecoder) : Prop where
  reading : Reading d'.limits d'.header d'.headerTarget
  consumed_le : s.consumed ≤ input.length
  advances : s.event = .done ∨ 0 < s.consumed ∨ rank d' < rank d ∨
    (eoi = .more ∧ reader (d', input.drop s.consumed) = .halt .fail)

theorem called_of_stop {s : DecodeStep} (hr : Reading d.limits d.header d.headerTarget)
    (h : Turned d input eoi (.stop s) d') : Called d input eoi s d' := by
  refine ⟨reading_of_turned hr h, (taken_of_turned h).1, ?_⟩
  rcases advances_of_turned h with hpos | hlt | ⟨s', hs', hdone | hstuck⟩
  · exact .inr (.inl hpos)
  · exact .inr (.inr (.inl hlt))
  · cases hs'
    exact .inl hdone
  · cases hs'
    exact .inr (.inr (.inr hstuck))

/-- A turn that calls the decoder again, in front of a call. -/
theorem called_of_again {k : ℕ} {s : DecodeStep} {d1 : CpioDecoder}
    (h : Turned d input eoi (.again k) d1)
    (hc : Called d1 (input.drop k) eoi s d') :
    Called d input eoi { s with consumed := s.consumed + k } d' := by
  have hk : k ≤ input.length := (taken_of_turned h).1
  have hle := hc.consumed_le
  rw [List.length_drop] at hle
  refine ⟨hc.reading, ?_, ?_⟩
  · show s.consumed + k ≤ input.length
    omega
  · have hdrop : input.drop (s.consumed + k) = (input.drop k).drop s.consumed := by
      rw [List.drop_drop, Nat.add_comm]
    rcases advances_of_turned h with hpos | hlt | ⟨s', hs', -⟩
    · exact .inr (.inl (Nat.add_pos_right _ hpos))
    · rcases hc.advances with hdone | hpos | hlt' | hstuck
      · exact .inl hdone
      · exact .inr (.inl (Nat.add_pos_left hpos _))
      · exact .inr (.inr (.inl (hlt'.trans hlt)))
      · simp only [hdrop]
        exact .inr (.inr (.inr hstuck))
    · cases hs'

theorem called_of_turns : ∀ (n : ℕ) {d d' : CpioDecoder} {input : List Byte} {s : DecodeStep},
    Reading d.limits d.header d.headerTarget → turns eoi (n + 1) d input = .ok (s, d') →
    Called d input eoi s d' := by
  intro n d d' input s hr h
  induction n generalizing d input s with
  | zero =>
    obtain ⟨⟨t, d1⟩, ht, h⟩ := bind_eq_ok.mp h
    have hturned := turned_of_turn hr ht
    cases t with
    | stop s1 =>
      cases h
      exact called_of_stop hr hturned
    | again k =>
      -- the last round has no turn left, so the one that was taken has to get somewhere
      obtain ⟨⟨s1, d2⟩, hrest, h⟩ := bind_eq_ok.mp h
      obtain ⟨total, hadd, h⟩ := bind_eq_ok.mp h
      obtain ⟨rfl, -⟩ := checkedAdd_eq_some.mp (okOr_eq_ok.mp hadd)
      cases hrest
      cases h
      refine ⟨reading_of_turned hr hturned, ?_, ?_⟩
      · rw [Nat.zero_add]
        exact (taken_of_turned hturned).1
      · rw [Nat.zero_add]
        rcases advances_of_turned hturned with hpos | hlt | ⟨s', hs', -⟩
        · exact .inr (.inl hpos)
        · exact .inr (.inr (.inl hlt))
        · cases hs'
  | succ n ih =>
    obtain ⟨⟨t, d1⟩, ht, h⟩ := bind_eq_ok.mp h
    have hturned := turned_of_turn hr ht
    cases t with
    | stop s1 =>
      cases h
      exact called_of_stop hr hturned
    | again k =>
      obtain ⟨⟨s1, d2⟩, hrest, h⟩ := bind_eq_ok.mp h
      obtain ⟨total, hadd, h⟩ := bind_eq_ok.mp h
      obtain ⟨rfl, -⟩ := checkedAdd_eq_some.mp (okOr_eq_ok.mp hadd)
      cases h
      exact called_of_again hturned (ih (reading_of_turned hr hturned) hrest)

/-- The cpio decoder comes to an end. -/
theorem cpio_ending : Ending CpioDecoder.step
    (fun d => Reading d.limits d.header d.headerTarget) rank where
  inv h hs := (called_of_turns _ h hs).reading
  consumed_le h hs := (called_of_turns _ h hs).consumed_le
  decreases h _ hs := by
    rcases (called_of_turns _ h hs).advances with hdone | hpos | hlt | ⟨he, -⟩
    · exact .inl hdone
    · exact .inr (.inl hpos)
    · exact .inr (.inr hlt)
    · cases he

end

end LibarchiveOxide.Cpio.Meaning
