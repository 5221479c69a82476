import LibarchiveOxide.Core.Meaning
import LibarchiveOxide.Lib.Slice
import LibarchiveOxide.Warc.Discipline

/-! # The WARC decoder does not depend on the chunking -/

namespace LibarchiveOxide.Warc.Meaning

open Core.Failure Core.Budget Core.Metadata Core.Protocol Core.Drive Core.Meaning Lib.Slice
open Lib.Result Warc.Decoder Warc.Decoder.WarcDecoder

/-- A decoder in a run before `Done`, with the rest of its stream. -/
structure Running (d : WarcDecoder) (S : List Byte) : Prop where
  limits : d.limits = .unlimited
  pending : Pending d
  decoded : d.decoded + S.length ≤ u64Max
  state : d.state ≠ .done

section
variable {d : WarcDecoder} {input rest : List Byte} {eoi : EndOfInput}

theorem starved_end (k : ℕ) (what : String) :
    d.starved .end k what = .error (warcError .malformed what) := if_pos rfl

theorem starved_more (k : ℕ) (what : String) :
    d.starved .more k what = .ok (⟨k, 0, .needInput⟩, d) := if_neg (by decide)

theorem starved_shifted (k c : ℕ) (what : String) :
    d.starved eoi (c + k) what = shifted k (d.starved eoi c what) := by
  unfold starved
  rw [shifted_ite]
  rfl

/-! ### Headers -/

variable {outputLen : ℕ}

theorem headerLoop_shifted (k : ℕ) : ∀ (input header : List Byte) (c : ℕ),
    d.headerLoop eoi (c + k) header input = shifted k (d.headerLoop eoi c header input)
  | [], header, c => by
    rw [headerLoop, headerLoop, starved_shifted]
  | b :: input, header, c => by
    simp only [headerLoop, shifted_bind, shifted_ite]
    congr 1
    funext _
    split_ifs
    · simp only [pure_eq_ok, shifted_ok]
      rw [Nat.add_right_comm]
    · rw [Nat.add_right_comm]
      exact headerLoop_shifted k input _ _

/-- The bytes read before are given to the loop, not taken from the decoder. -/
theorem headerLoop_header (h : List Byte) : ∀ (input header : List Byte) (c : ℕ),
    ({ d with header := h } : WarcDecoder).headerLoop eoi c header input =
      d.headerLoop eoi c header input
  | [], header, c => rfl
  | b :: input, header, c => by
    simp only [headerLoop, headerLoop_header h input]
    rfl

/-- A header in the input decides the step; otherwise the input is taken in. -/
theorem headerLoop_append (hend : eoi = .end → rest = []) : ∀ (input header : List Byte) (c : ℕ),
    d.headerLoop .end c header (input ++ rest) = d.headerLoop eoi c header input ∨
      (eoi = .more ∧ d.headerLoop eoi c header input = .ok (⟨c + input.length, 0, .needInput⟩,
          { d with header := header ++ input }) ∧
        d.headerLoop .end c header (input ++ rest) =
          d.headerLoop .end (c + input.length) (header ++ input) rest)
  | [], header, c => by
    cases eoi with
    | «end» =>
      rw [hend rfl]
      exact .inl rfl
    | more =>
      refine .inr ⟨rfl, ?_, ?_⟩
      · rw [headerLoop, starved_more, List.append_nil]
        rfl
      · rw [List.nil_append, List.append_nil]
        rfl
  | b :: input, header, c => by
    rw [List.cons_append, headerLoop, headerLoop]
    cases d.headerFits header.length with
    | error e => exact .inl rfl
    | ok u =>
      simp only [ok_bind]
      by_cases hsuf : headerEnd.isSuffixOf (header ++ [b]) = true
      · rw [if_pos hsuf, if_pos hsuf]
        exact .inl rfl
      · rw [if_neg hsuf, if_neg hsuf]
        rcases headerLoop_append hend input (header ++ [b]) (c + 1) with h | ⟨he, h1, h2⟩
        · exact .inl h
        · refine .inr ⟨he, ?_, ?_⟩
          · rw [h1, List.append_assoc, List.length_cons]
            simp only [List.singleton_append]
            congr 3
            omega
          · rw [h2, List.append_assoc, List.length_cons]
            simp only [List.singleton_append]
            congr 1
            omega

theorem step_header (hs : d.state = .header) (n : ℕ) :
    d.step input n eoi = d.stepHeader input eoi := by
  rw [step, hs]

theorem agrees_end : Agrees step d (input ++ []) (d.step input outputLen .end) := by
  rw [List.append_nil]
  exact .same rfl

theorem agrees_header (hs : d.state = .header) (hend : eoi = .end → rest = []) :
    Agrees step d (input ++ rest) (d.step input outputLen eoi) := by
  by_cases hi : input = []
  · cases eoi with
    | «end» =>
      rw [hend rfl]
      exact agrees_end
    | more =>
      rw [step_header hs, stepHeader, if_pos (by simp [hi]), if_neg (by simp), starved_more]
      refine .absorbed ?_
      rw [shifted_zero, List.drop_zero]
  have hne : ∀ l : List Byte, ¬ (input ++ l).isEmpty = true := by
    intro l
    simp [hi]
  rw [step_header hs, stepHeader, if_neg (by simp [hi])]
  have hwhole : d.step (input ++ rest) 1 .end = d.headerLoop .end 0 d.header (input ++ rest) := by
    rw [step_header hs, stepHeader, if_neg (hne rest)]
  rcases headerLoop_append (d := d) hend input d.header 0 with h | ⟨he, h1, h2⟩
  · exact .same (hwhole.trans h)
  · rw [h1, Nat.zero_add]
    rw [h2] at hwhole
    have hrest : ∀ n, ({ d with header := d.header ++ input } : WarcDecoder).step rest n .end =
        ({ d with header := d.header ++ input } : WarcDecoder).stepHeader rest .end := by
      intro n
      exact step_header (d := { d with header := d.header ++ input }) hs n
    -- a header that is cut off is a failure with or without a last empty part
    by_cases hr : rest = []
    · refine @Agrees.failed _ _ _ _ _ _ _ (warcError .malformed "truncated WARC record header")
        (warcError .malformed "truncated or empty WARC record header") ?_ ?_
      · rw [hwhole, hr, headerLoop, starved_end]
      · rw [List.drop_left, hrest, hr]
        simp [stepHeader, hi, starved_end]
    · refine .absorbed ?_
      rw [hwhole, List.drop_left, hrest, stepHeader, if_neg (by simp [hr]), headerLoop_shifted]
      exact congrArg _ (headerLoop_header (d := d) (d.header ++ input) rest _ 0).symm

/-! ### Content blocks and trailers -/

theorem step_data {remaining : ℕ} (hs : d.state = .data remaining) (n : ℕ) :
    d.step input n eoi = d.stepData input eoi remaining := by
  rw [step, hs]

/-- Data within the budgets. -/
theorem step_data_ok {remaining : ℕ} (hs : d.state = .data remaining) (hl : d.limits = .unlimited)
    (hr : 0 < remaining) (hi : input ≠ []) (ht : d.decoded + input.length ≤ u64Max) (n : ℕ) :
    d.step input n eoi = .ok (⟨min input.length remaining, 0,
        .data (input.take (min input.length remaining))⟩, { d with
      decoded := d.decoded + min input.length remaining
      state := .data (remaining - min input.length remaining) }) := by
  rw [step_data hs, stepData, if_neg (by omega), if_neg (by simpa using hi)]
  dsimp only
  rw [checkedAdd_of_le (by omega), hl]
  rfl

theorem agrees_data {remaining : ℕ} (h : Running d (input ++ rest)) (hs : d.state = .data remaining)
    (hr : 0 < remaining) (hend : eoi = .end → rest = []) :
    Agrees step d (input ++ rest) (d.step input outputLen eoi) := by
  cases eoi with
  | «end» =>
    rw [hend rfl]
    exact agrees_end
  | more =>
    have htotal := h.decoded
    rw [List.length_append] at htotal
    by_cases hi : input = []
    · rw [step_data hs, stepData, if_neg (by omega), if_pos (by simp [hi]), starved_more]
      refine .absorbed ?_
      rw [shifted_zero, List.drop_zero]
    rw [step_data_ok hs h.limits hr hi (by omega)]
    have hwhole := @step_data_ok _ (input ++ rest) .end _ hs h.limits hr (by simp [hi])
      (by rw [List.length_append]; omega) 1
    rw [List.length_append] at hwhole
    by_cases hmore : input.length < remaining ∧ rest ≠ []
    · -- the rest of the stream has more of the same data
      have hk : min input.length remaining = input.length := by omega
      rw [hk]
      have hpart := @step_data_ok { d with
          decoded := d.decoded + input.length, state := .data (remaining - input.length) } rest
        .end _ rfl h.limits (by omega) hmore.2 (by simp only; omega) 1
      have hsum : min (input.length + rest.length) remaining =
          input.length + min rest.length (remaining - input.length) := by omega
      rw [hsum] at hwhole
      have htake : input.take input.length = (input ++ rest).take input.length := by
        rw [List.take_length, List.take_left]
      rw [htake]
      refine .data (r := 0) hwhole ?_
      rw [List.drop_left, hpart]
      simp only [Nat.sub_sub, Nat.add_assoc]
    · have hk : min (input.length + rest.length) remaining = min input.length remaining := by
        by_cases hr' : rest = []
        · rw [hr', List.length_nil, Nat.add_zero]
        · have : ¬ input.length < remaining := fun hlt => hmore ⟨hlt, hr'⟩
          omega
      refine .same ?_
      rw [hwhole, hk, List.take_append_of_le_length (by omega)]

theorem step_trailer {matched : ℕ} (hs : d.state = .trailer matched) (n : ℕ) :
    d.step input n eoi = d.stepTrailer input eoi matched := by
  rw [step, hs]

theorem agrees_trailer {matched : ℕ} (hs : d.state = .trailer matched)
    (hm : matched < recordEnd.length) (hend : eoi = .end → rest = []) :
    Agrees step d (input ++ rest) (d.step input outputLen eoi) := by
  cases eoi with
  | «end» =>
    rw [hend rfl]
    exact agrees_end
  | more =>
    have hlen : (recordEnd.drop matched).length = recordEnd.length - matched := List.length_drop ..
    by_cases hle : recordEnd.length - matched ≤ input.length
    · -- the trailer is all there
      have hcount : ∀ l : List Byte, recordEnd.length - matched ≤ l.length →
          min (recordEnd.drop matched).length l.length = recordEnd.length - matched := by
        intro l hl
        omega
      refine .same ?_
      rw [step_trailer hs, step_trailer hs, stepTrailer, stepTrailer]
      rw [hcount input hle, hcount (input ++ rest) (by rw [List.length_append]; omega),
        List.take_append_of_le_length hle]
      have hlast : matched + (recordEnd.length - matched) = recordEnd.length := by omega
      simp only [hlast, if_true]
    · have hcount : min (recordEnd.drop matched).length input.length = input.length := by omega
      rw [step_trailer hs, stepTrailer]
      rw [hcount, List.take_length]
      have hsplit : ∀ k, (input ++ rest).take (input.length + k) = input ++ rest.take k := by
        intro k
        rw [List.take_length_add_append]
      have hexp : ∀ k, (recordEnd.drop matched).take (input.length + k) =
          (recordEnd.drop matched).take input.length ++
            (recordEnd.drop (matched + input.length)).take k := by
        intro k
        rw [List.take_add, List.drop_drop]
      have hcount' : min (recordEnd.drop matched).length (input ++ rest).length =
          input.length + min (recordEnd.drop (matched + input.length)).length rest.length := by
        rw [List.length_append, List.length_drop, List.length_drop]
        omega
      by_cases hbad : input ≠ (recordEnd.drop matched).take input.length
      · rw [if_pos hbad]
        refine .same ?_
        rw [step_trailer hs, stepTrailer]
        rw [hcount', hsplit, hexp, if_pos]
        intro heq
        refine hbad (List.append_inj_left heq ?_)
        rw [List.length_take]
        omega
      · rw [if_neg hbad, if_neg (by omega), starved_more]
        refine .absorbed ?_
        rw [step_trailer hs, List.drop_left,
          step_trailer (d := { d with state := .trailer (matched + input.length) }) rfl, stepTrailer,
          stepTrailer]
        rw [hcount', hsplit, hexp]
        have hiff : input ++ rest.take
            (min (recordEnd.drop (matched + input.length)).length rest.length) ≠
            (recordEnd.drop matched).take input.length ++ (recordEnd.drop (matched + input.length)).take
              (min (recordEnd.drop (matched + input.length)).length rest.length) ↔
            rest.take (min (recordEnd.drop (matched + input.length)).length rest.length) ≠
              (recordEnd.drop (matched + input.length)).take
                (min (recordEnd.drop (matched + input.length)).length rest.length) := by
          rw [← not_not.mp hbad, ne_eq, List.append_cancel_left_eq]
        simp only [hiff, shifted_ite, shifted_error, shifted_ok, ← starved_shifted, Nat.add_assoc,
          Nat.add_comm input.length]

/-- **A step on a part of the stream agrees with the step on all of it.** -/
theorem agrees_step (h : Running d (input ++ rest)) (hend : eoi = .end → rest = []) :
    Agrees step d (input ++ rest) (d.step input outputLen eoi) := by
  cases hs : d.state with
  | header => exact agrees_header hs hend
  | data remaining =>
    rcases Nat.eq_zero_or_pos remaining with rfl | hr
    · refine .same ?_
      rw [step_data hs, step_data hs]
      rfl
    · exact agrees_data h hs hr hend
  | trailer matched =>
    refine agrees_trailer hs ?_ hend
    exact h.pending matched hs
  | done => exact absurd hs h.state

theorem step_keeps {st : DecodeStep} {d' : WarcDecoder} (hd : d.state ≠ .done)
    (hs : d.step input outputLen eoi = .ok (st, d')) (hdone : st.event ≠ .done) :
    d'.limits = d.limits ∧ d'.decoded ≤ d.decoded + st.consumed ∧ d'.state ≠ .done := by
  cases stepped_of_step hs with
  | finished => exact absurd rfl hdone
  | done => exact absurd rfl hdone
  | data => exact ⟨rfl, le_rfl, by simp⟩
  | dataStarved => exact ⟨rfl, le_rfl, hd⟩
  | endEntry => exact ⟨rfl, le_rfl, by simp⟩
  | trailer => exact ⟨rfl, Nat.le_add_right _ _, by simp⟩
  | trailerEnd => exact ⟨rfl, Nat.le_add_right _ _, by simp⟩
  | headerStarved => exact ⟨rfl, Nat.le_add_right _ _, hd⟩
  | entry => exact ⟨rfl, Nat.le_add_right _ _, by simp⟩

/-- **The WARC decoder is faithful** to itself on whole streams. -/
theorem warc_faithful : Faithful WarcDecoder.step (whole WarcDecoder.step) Running := by
  refine faithful_of_agrees ?_ agrees_step
  intro d input rest outputLen eoi st d' h hs hdone
  have hk := warc_progress.consumed_le hs
  obtain ⟨hl, ht, hst⟩ := step_keeps h.state hs hdone
  have htotal := h.decoded
  refine ⟨hk, hl.trans h.limits, warc_progress.inv h.pending hs, ?_, hst⟩
  rw [List.length_append] at htotal
  rw [List.length_drop, List.length_append]
  omega

end

theorem running_new (extensionSize : ℕ) {B : List Byte} (hB : B.length ≤ u64Max) :
    Running (WarcDecoder.new .unlimited extensionSize) B where
  limits := rfl
  pending := by
    intro matched h
    cases h
  decoded := by
    show 0 + B.length ≤ u64Max
    omega
  state := by simp [WarcDecoder.new]

end LibarchiveOxide.Warc.Meaning
