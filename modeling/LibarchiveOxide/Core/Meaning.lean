import LibarchiveOxide.Core.Drive
import LibarchiveOxide.Lib.Machine

/-! # The meaning of a stream

A decoder is faithful to a machine that reads whole streams if every step, however little input it is
given, follows that machine. Then every run that halts has the outcome and the atoms of the machine
(`run_means`), so the cutting does not matter (`run_agree`). -/

namespace LibarchiveOxide.Core.Meaning

open Core.Failure Core.Metadata Core.Protocol Core.Drive Lib.Machine Lib.Slice

/-- How the reading of a stream ends. A reading that is refused has come to the end of the archive
with bytes left. -/
inductive Outcome where
  | done
  | fail
  | refused
deriving DecidableEq

/-- A machine on a decoder and the rest of its stream. -/
abbrev Reader (σ : Type) := σ × List Byte → Next (σ × List Byte) Atom Outcome

/-- Every step of the decoder on the first bytes of a stream follows the machine on the stream. -/
structure Faithful {σ : Type} (step : DecodeFn σ) (M : Reader σ) (Inv : σ → List Byte → Prop) :
    Prop where
  ok : ∀ {d input rest outputLen eoi s d'}, Inv d (input ++ rest) → 0 < outputLen →
    (eoi = .end → rest = []) → step d input outputLen eoi = .ok (s, d') → s.event ≠ .done →
    s.consumed ≤ input.length ∧ Inv d' ((input ++ rest).drop s.consumed) ∧
      Continues M (d, input ++ rest) (atoms s.event) (d', (input ++ rest).drop s.consumed)
  done : ∀ {d input rest outputLen eoi s d'}, Inv d (input ++ rest) → 0 < outputLen →
    (eoi = .end → rest = []) → step d input outputLen eoi = .ok (s, d') → s.event = .done →
    Halts M (d, input ++ rest) [] .done
  error : ∀ {d input rest outputLen eoi e}, Inv d (input ++ rest) → 0 < outputLen →
    (eoi = .end → rest = []) → step d input outputLen eoi = .error e →
    Halts M (d, input ++ rest) [] .fail

section
variable {σ : Type} {step : DecodeFn σ} {M : Reader σ} {Inv : σ → List Byte → Prop} {d : σ}
  {B : List Byte}

variable {c : Cutting B}

/-- The outcome of a run that has halted. -/
def outcome (r : Run σ) : Outcome := if r.failure.isSome then .fail else .done

theorem done_append (d : σ) (k : ℕ) (evs : List DecodeEvent) (ev : DecodeEvent)
    (f : Option ArchiveError) : (⟨d, k, evs ++ [ev], f⟩ : Run σ).done = decide (ev = .done) := by
  simp [Run.done, beq_eq_decide]

theorem atoms_append (d : σ) (k : ℕ) (evs : List DecodeEvent) (ev : DecodeEvent)
    (f : Option ArchiveError) :
    (⟨d, k, evs ++ [ev], f⟩ : Run σ).atoms = evs.flatMap Drive.atoms ++ Drive.atoms ev := by
  simp [Run.atoms]

variable {n : ℕ}

/-- The supplied bytes and the others make up what is not consumed. -/
theorem window_append_drop {k : ℕ} (h : k ≤ n) : window B k n ++ B.drop n = B.drop k := by
  have hdrop : B.drop n = (B.drop k).drop (n - k) := by
    rw [List.drop_drop, Nat.add_sub_of_le h]
  rw [hdrop, window, List.take_append_drop]

/-- How a run stands towards the machine on the whole stream. -/
structure Means (M : Reader σ) (Inv : σ → List Byte → Prop) (d : σ) (B : List Byte) (supplied : ℕ)
    (r : Run σ) : Prop where
  running : r.halted = false → r.consumed ≤ supplied ∧ Inv r.decoder (B.drop r.consumed) ∧
    Continues M (d, B) r.atoms (r.decoder, B.drop r.consumed)
  halted : r.halted = true → Halts M (d, B) r.atoms (outcome r)

theorem means_advance (hf : Faithful step M Inv) (hout : c.Scratch) {r : Run σ}
    (h : Means M Inv d B (c.supplied n) r) :
    Means M Inv d B (c.supplied (n + 1))
      (r.advance step B (c.supplied n) (c.outputLen n) (c.eoi n)) := by
  by_cases hh : r.halted = true
  · rw [Run.advance, if_pos hh]
    refine ⟨?_, h.halted⟩
    rw [hh]
    exact Bool.noConfusion
  have hh' : r.halted = false := by simpa using hh
  have hfail : r.failure = none := by
    cases hr : r.failure with
    | none => rfl
    | some e => simp [Run.halted, hr] at hh
  obtain ⟨hle, hinv, hcont⟩ := h.running hh'
  have hcut := window_append_drop (B := B) hle
  have hend : c.eoi n = .end → B.drop (c.supplied n) = [] := by
    intro he
    rw [c.supplied_of_end n he, List.drop_length]
  rw [← hcut] at hinv
  rw [Run.advance, if_neg hh]
  cases hs : step r.decoder (window B r.consumed (c.supplied n)) (c.outputLen n) (c.eoi n) with
  | error e =>
    have herr := hf.error hinv (hout n) hend hs
    rw [hcut] at herr
    refine ⟨by simp [Run.halted], ?_⟩
    intro _
    have hmeans := hcont _ _ herr
    rw [List.append_nil] at hmeans
    exact hmeans
  | ok res =>
    obtain ⟨s, d'⟩ := res
    by_cases hdone : s.event = .done
    · have hd := hf.done hinv (hout n) hend hs hdone
      rw [hcut] at hd
      refine ⟨?_, ?_⟩
      · simp [Run.halted, Run.done, hdone]
      · intro _
        have hmeans := hcont _ _ hd
        rw [atoms_append, hdone]
        exact hmeans
    · obtain ⟨hk, hinv', hstep⟩ := hf.ok hinv (hout n) hend hs hdone
      rw [hcut, List.drop_drop] at hinv' hstep
      refine ⟨?_, ?_⟩
      · intro _
        refine ⟨?_, hinv', ?_⟩
        · rw [length_window] at hk
          have hsucc := c.supplied_le_succ n
          simp only
          omega
        · rw [atoms_append]
          exact hcont.trans hstep
      · intro hhalt
        simp [Run.halted, Run.done, beq_eq_decide, hdone] at hhalt

/-- **Every run follows the machine.** -/
theorem means_run (hf : Faithful step M Inv) (h0 : Inv d B) (hout : c.Scratch) :
    ∀ n, Means M Inv d B (c.supplied n) (run step d c n)
  | 0 => ⟨fun _ => ⟨Nat.zero_le _, h0, .refl _⟩, by simp [run, Run.halted, Run.done]⟩
  | n + 1 => means_advance hf hout (means_run hf h0 hout n)

theorem run_means (hf : Faithful step M Inv) (h0 : Inv d B) (hout : c.Scratch)
    (hh : (run step d c n).halted = true) :
    Halts M (d, B) (run step d c n).atoms (outcome (run step d c n)) :=
  (means_run hf h0 hout n).halted hh

/-- Two runs with the same events up to the cutting of the data, both or none of them with `Done`, and
both or none of them with a failure. -/
structure SameResult (r r' : Run σ) : Prop where
  atoms : r.atoms = r'.atoms
  failure : r.failure.isSome = r'.failure.isSome
  done : r.done = r'.done

theorem halted_done (hh : (run step d c n).halted = true) :
    (run step d c n).done = (run step d c n).failure.isNone := by
  induction n with
  | zero => simp [run, Run.halted, Run.done] at hh
  | succ n ih =>
    rw [run, Run.advance] at hh ⊢
    by_cases h : (run step d c n).halted = true
    · rw [if_pos h]
      exact ih h
    · rw [if_neg h] at hh ⊢
      have hnd : (run step d c n).done = false := by
        cases hd : (run step d c n).done with
        | false => rfl
        | true => simp [Run.halted, hd] at h
      cases hs : step (run step d c n).decoder (window B (run step d c n).consumed (c.supplied n))
          (c.outputLen n) (c.eoi n) with
      | error e => exact hnd
      | ok res =>
        rw [hs] at hh
        simp only [Run.halted, Option.isSome_none, Bool.false_or] at hh
        simp only [Option.isNone_none]
        exact hh

theorem outcome_inj {r r' : Run σ} (h : outcome r = outcome r') :
    r.failure.isSome = r'.failure.isSome := by
  unfold outcome at h
  cases hr : r.failure.isSome with
  | false =>
    cases hr' : r'.failure.isSome with
    | false => rfl
    | true => simp [hr, hr'] at h
  | true =>
    cases hr' : r'.failure.isSome with
    | false => simp [hr, hr'] at h
    | true => rfl

/-- **The cutting does not matter.** -/
theorem run_agree (hf : Faithful step M Inv) (h0 : Inv d B) {c' : Cutting B} (hout : c.Scratch)
    (hout' : c'.Scratch) {n' : ℕ} (hh : (run step d c n).halted = true)
    (hh' : (run step d c' n').halted = true) : SameResult (run step d c n) (run step d c' n') := by
  obtain ⟨hatoms, hout⟩ := (run_means hf h0 hout hh).unique (run_means hf h0 hout' hh')
  have hfail := outcome_inj hout
  refine ⟨hatoms, hfail, ?_⟩
  rw [halted_done hh, halted_done hh', ← Option.not_isSome, ← Option.not_isSome, hfail]

/-- **The decoder reads the stream to `Done`**, however it is cut, and what it reports has the
property. -/
def Reads (step : DecodeFn σ) (d : σ) (B : List Byte) (P : List Atom → Prop) : Prop :=
  ∀ c : Cutting B, c.Scratch → c.Ends → ∃ n, (run step d c n).done = true ∧
    (run step d c n).failure = none ∧ P (run step d c n).atoms

/-- What a faithful decoder reads is what the machine reads. -/
theorem reads_iff (hf : Faithful step M Inv) {Inv' : σ → Prop} {rank : σ → ℕ}
    (hend : Ending step Inv' rank) (h0 : Inv d B) (h0' : Inv' d) {P : List Atom → Prop} :
    Reads step d B P ↔ ∃ as, Halts M (d, B) as .done ∧ P as := by
  refine ⟨?_, ?_⟩
  · intro h
    have hout : (Cutting.whole B fun _ => 1).Scratch := fun _ => one_pos
    obtain ⟨n, hdone, hfail, hP⟩ := h (.whole B fun _ => 1) hout ⟨0, fun _ _ => rfl⟩
    have hmeans := run_means hf h0 hout (n := n) (by rw [Run.halted, hdone, Bool.or_true])
    rw [outcome, hfail, if_neg (by simp)] at hmeans
    exact ⟨_, hmeans, hP⟩
  · rintro ⟨as, hhalt, hP⟩ c hout hends
    obtain ⟨n, hn⟩ := run_halts hend h0' hout hends
    obtain ⟨hatoms, houtcome⟩ := hhalt.unique (run_means hf h0 hout hn)
    have hfail : (run step d c n).failure.isSome = false := by
      cases hs : (run step d c n).failure.isSome with
      | false => rfl
      | true => simp [outcome, hs] at houtcome
    refine ⟨n, ?_, by simpa using hfail, hatoms ▸ hP⟩
    rw [halted_done hn, ← Option.not_isSome, hfail]
    rfl

/-- The atoms of an entry with its payload. -/
def entryAtoms (x : EntryMetadata × List Byte) : List Atom :=
  .entry x.1 :: (x.2.map .byte ++ [.endEntry])

/-! ### All of the stream at once -/

theorem window_full (B : List Byte) (k : ℕ) : window B k B.length = B.drop k := by
  rw [window, List.take_of_length_le]
  rw [List.length_drop]

theorem full_le (B : List Byte) : ∀ _ : ℕ, B.length ≤ B.length := fun _ => le_rfl

/-- All of the stream in every call, with the end declared or not. -/
def full (B : List Byte) : Cutting B where
  supplied _ := B.length
  outputLen _ := 1
  eoi _ := .more
  supplied_le_succ := full_le B
  supplied_le := full_le B
  supplied_of_end _ _ := rfl

/-- **A decoder that is not starved comes to the end** of a stream that the machine reads to its end,
also when the end is never declared. -/
theorem full_done (hf : Faithful step M Inv) (h0 : Inv d B) {as : List Atom}
    (hM : Halts M (d, B) as .done) {rank : σ → ℕ}
    (hadv : ∀ {d S s d'}, Inv d S → step d S 1 .more = .ok (s, d') →
      s.event = .done ∨ 0 < s.consumed ∨ rank d' < rank d ∨
        M (d', S.drop s.consumed) = .halt .fail) :
    ∃ n, (run step d (full B) n).done = true := by
  have hout : (full B).Scratch := fun _ => one_pos
  -- the machine does not fail, so a run that has not come to the end goes on
  have hgood : ∀ {c : σ × List Byte} {bs cs : List Atom}, Continues M (d, B) bs c →
      ¬ Halts M c cs .fail := by
    intro c bs cs hc hfail
    cases (hM.unique (hc _ _ hfail)).2
  have key : ∀ (left r n : ℕ), B.length - (run step d (full B) n).consumed ≤ left →
      rank (run step d (full B) n).decoder ≤ r → ∃ m, (run step d (full B) m).done = true := by
    intro left
    induction left using Nat.strong_induction_on with
    | _ left ihl =>
      intro r
      induction r using Nat.strong_induction_on with
      | _ r ihr =>
        intro n hl hr
        by_cases hd : (run step d (full B) n).done = true
        · exact ⟨n, hd⟩
        have hmeans := means_run (c := full B) hf h0 hout n
        by_cases hh : (run step d (full B) n).halted = true
        · have hsome : (run step d (full B) n).failure.isSome = true := by
            simpa [Run.halted, hd] using hh
          have hhalt := hmeans.halted hh
          rw [outcome, if_pos hsome] at hhalt
          exact absurd hhalt (hgood (.refl _))
        obtain ⟨hle, hinv, hcont⟩ := hmeans.running (by simpa using hh)
        have hmeans' := means_run (c := full B) hf h0 hout (n + 1)
        have hrun : run step d (full B) (n + 1) =
            (run step d (full B) n).advance step B B.length 1 .more := rfl
        rw [Run.advance, if_neg hh, window_full] at hrun
        cases hs : step (run step d (full B) n).decoder (B.drop (run step d (full B) n).consumed) 1
            .more with
        | error e =>
          rw [hs] at hrun
          have hhalt := hmeans'.halted (by rw [hrun]; rfl)
          rw [outcome, hrun, if_pos (by rfl)] at hhalt
          exact absurd hhalt (hgood (.refl _))
        | ok res =>
          obtain ⟨s, d'⟩ := res
          rw [hs] at hrun
          simp only at hrun
          by_cases hdone : s.event = .done
          · refine ⟨n + 1, ?_⟩
            rw [hrun]
            simp [Run.done, hdone]
          have hh' : (run step d (full B) (n + 1)).halted = false := by
            rw [hrun]
            simp [Run.halted, Run.done, beq_eq_decide, hdone]
          obtain ⟨hle', -, hcont'⟩ := hmeans'.running hh'
          rw [hrun] at hle' hcont'
          have hsup : (full B).supplied (n + 1) = B.length := rfl
          rw [hsup] at hle'
          simp only at hle'
          rcases hadv hinv hs with he | hk | hlt | hstuck
          · exact absurd he hdone
          · refine ihl (left - 1) (by omega) (rank d') (n + 1) ?_ ?_
            · rw [hrun]; simp only; omega
            · rw [hrun]
          · refine ihr (rank d') (by omega) (n + 1) ?_ ?_
            · rw [hrun]; simp only; omega
            · rw [hrun]
          · rw [List.drop_drop] at hstuck
            exact absurd (Halts.of_halt hstuck) (hgood hcont')
  exact key _ _ 0 le_rfl le_rfl

/-- A run that is given everything at once and comes to the end is a run of the machine. -/
theorem whole_done {out : ℕ → ℕ}
    (hok : ∀ {d S n s d'}, step d S n .end = .ok (s, d') →
      (s.event = .done → Halts M (d, S) [] .done) ∧
        (s.event ≠ .done → Continues M (d, S) (Drive.atoms s.event) (d', S.drop s.consumed))) :
    ∀ n, ((run step d (.whole B out) n).done = true →
        Halts M (d, B) (run step d (.whole B out) n).atoms .done) ∧
      ((run step d (.whole B out) n).halted = false →
        Continues M (d, B) (run step d (.whole B out) n).atoms
          ((run step d (.whole B out) n).decoder, B.drop (run step d (.whole B out) n).consumed))
  | 0 => ⟨by simp [run, Run.done], fun _ => .refl _⟩
  | n + 1 => by
    obtain ⟨ih, ih'⟩ := whole_done hok n
    by_cases hh : (run step d (.whole B out) n).halted = true
    · rw [run_succ_of_halted hh]
      exact ⟨ih, ih'⟩
    have hcont := ih' (by simpa using hh)
    have hrun : run step d (.whole B out) (n + 1) =
        (run step d (.whole B out) n).advance step B B.length (out n) .end := rfl
    rw [Run.advance, if_neg hh, window_full] at hrun
    cases hs : step (run step d (.whole B out) n).decoder
        (B.drop (run step d (.whole B out) n).consumed) (out n) .end with
    | error e =>
      rw [hs] at hrun
      rw [hrun]
      refine ⟨fun hd => absurd ?_ hh, by simp [Run.halted]⟩
      have hd' : (run step d (.whole B out) n).done = true := hd
      simp [Run.halted, hd']
    | ok res =>
      obtain ⟨s, d'⟩ := res
      rw [hs] at hrun
      simp only at hrun
      obtain ⟨hdone, hgo⟩ := hok hs
      rw [hrun, atoms_append, done_append]
      refine ⟨?_, ?_⟩
      · intro hd
        have hd : s.event = .done := by simpa using hd
        rw [hd]
        exact hcont _ _ (hdone hd)
      · intro hh'
        have hd : s.event ≠ .done := by
          intro hd
          simp [Run.halted, Run.done, hd] at hh'
        have hc := hcont.trans (hgo hd)
        rw [List.drop_drop] at hc
        exact hc

/-- The last bytes are held back for some calls. -/
def heldBack (P R : List Byte) (N : ℕ) : Cutting (P ++ R) where
  supplied i := if i < N then P.length else (P ++ R).length
  outputLen _ := 1
  eoi i := if i < N then .more else .end
  supplied_le_succ i := by
    rw [List.length_append]
    split_ifs <;> omega
  supplied_le i := by
    rw [List.length_append]
    split_ifs <;> omega
  supplied_of_end i h := by
    split_ifs at h ⊢
    rfl

theorem window_append_left (P R : List Byte) (k : ℕ) :
    window (P ++ R) k P.length = window P k P.length := by
  rw [window_full, window]
  by_cases hk : k ≤ P.length
  · rw [List.drop_append_of_le_length hk, List.take_append_of_le_length (by rw [List.length_drop]),
      List.take_of_length_le (by rw [List.length_drop])]
  · rw [Nat.sub_eq_zero_of_le (by omega), List.take_zero, List.drop_eq_nil_of_le (by omega)]

/-- Bytes that are held back are not missed. -/
theorem run_heldBack (P R : List Byte) (N : ℕ) : ∀ n, n ≤ N →
    run step d (heldBack P R N) n = run step d (full P) n
  | 0, _ => rfl
  | n + 1, hn => by
    have hlt : n < N := hn
    have hsup : (heldBack P R N).supplied n = P.length := if_pos hlt
    have heoi : (heldBack P R N).eoi n = .more := if_pos hlt
    rw [run, run, run_heldBack P R N n hlt.le, hsup, heoi]
    unfold Run.advance
    rw [window_append_left]
    rfl

end

/-! ### Decoders that agree with themselves -/

section
variable {σ : Type} {step : DecodeFn σ} {Inv : σ → List Byte → Prop} {d : σ} {S : List Byte}

/-- The machine that gives the decoder all of its stream. -/
def whole (step : DecodeFn σ) : Reader σ := fun c =>
  match step c.1 c.2 1 .end with
  | .error _ => .halt .fail
  | .ok (s, d) =>
    if s.event = .done then .halt .done else .next (Drive.atoms s.event) (d, c.2.drop s.consumed)

/-- A step that is told of some more bytes consumed before it. -/
def shifted (k : ℕ) : Except ArchiveError (DecodeStep × σ) → Except ArchiveError (DecodeStep × σ)
  | .error e => .error e
  | .ok (s, d) => .ok ({ s with consumed := s.consumed + k }, d)

@[simp] theorem shifted_zero (r : Except ArchiveError (DecodeStep × σ)) : shifted 0 r = r := by
  cases r <;> rfl

@[simp] theorem shifted_error (k : ℕ) (e : ArchiveError) :
    shifted k (.error e : Except ArchiveError (DecodeStep × σ)) = .error e := rfl

@[simp] theorem shifted_ok (k : ℕ) (s : DecodeStep) (d : σ) :
    shifted k (.ok (s, d)) = .ok ({ s with consumed := s.consumed + k }, d) := rfl

theorem shifted_bind {α : Type} (k : ℕ) (x : Except ArchiveError α)
    (f : α → Except ArchiveError (DecodeStep × σ)) :
    shifted k (x >>= f) = x >>= fun a => shifted k (f a) := by
  cases x <;> rfl

theorem shifted_ite (k : ℕ) (p : Prop) [Decidable p] (x y : Except ArchiveError (DecodeStep × σ)) :
    shifted k (if p then x else y) = if p then shifted k x else shifted k y := by
  split_ifs <;> rfl

theorem shifted_shifted (j k : ℕ) (r : Except ArchiveError (DecodeStep × σ)) :
    shifted j (shifted k r) = shifted (k + j) r := by
  cases r with
  | error e => rfl
  | ok r =>
    simp only [shifted]
    rw [Nat.add_assoc]

/-- A step on a part of the stream does what the step on all of it does; or it takes the part in, and
the step on the rest does that, or fails too; or both report data. -/
inductive Agrees (step : DecodeFn σ) (d : σ) (S : List Byte) :
    Except ArchiveError (DecodeStep × σ) → Prop
  | same {r : Except ArchiveError (DecodeStep × σ)} (h : step d S 1 .end = r) : Agrees step d S r
  | absorbed {k p : ℕ} {d' : σ}
      (h : step d S 1 .end = shifted k (step d' (S.drop k) 1 .end)) :
      Agrees step d S (.ok (⟨k, p, .needInput⟩, d'))
  | failed {k p : ℕ} {d' : σ} {e e' : ArchiveError} (h : step d S 1 .end = .error e)
      (h' : step d' (S.drop k) 1 .end = .error e') : Agrees step d S (.ok (⟨k, p, .needInput⟩, d'))
  | data {k j p q r : ℕ} {d' d'' : σ}
      (h : step d S 1 .end = .ok (⟨k + j, q, .data (S.take (k + j))⟩, d''))
      (h' : step d' (S.drop k) 1 .end = .ok (⟨j, r, .data ((S.drop k).take j)⟩, d'')) :
      Agrees step d S (.ok (⟨k, p, .data (S.take k)⟩, d'))

theorem whole_of_shifted {d' : σ} {k : ℕ}
    (h : step d S 1 .end = shifted k (step d' (S.drop k) 1 .end)) :
    whole step (d, S) = whole step (d', S.drop k) := by
  unfold whole
  simp only
  rw [h]
  cases step d' (S.drop k) 1 .end with
  | error e => rfl
  | ok r =>
    obtain ⟨s, d''⟩ := r
    simp only [shifted, List.drop_drop]
    rw [Nat.add_comm]

/-- **A decoder that agrees with itself is faithful** to the machine that gives it everything. -/
theorem faithful_of_agrees
    (hinv : ∀ {d input rest outputLen eoi s d'}, Inv d (input ++ rest) →
      step d input outputLen eoi = .ok (s, d') → s.event ≠ .done →
      s.consumed ≤ input.length ∧ Inv d' ((input ++ rest).drop s.consumed))
    (hagree : ∀ {d input rest outputLen eoi}, Inv d (input ++ rest) → (eoi = .end → rest = []) →
      Agrees step d (input ++ rest) (step d input outputLen eoi)) :
    Faithful step (whole step) Inv where
  ok := by
    intro d input rest outputLen eoi s d' h _ hend hs hdone
    refine ⟨(hinv h hs hdone).1, (hinv h hs hdone).2, ?_⟩
    have ha := @hagree d input rest outputLen eoi h hend
    rw [hs] at ha
    generalize hr : (Except.ok (s, d') : Except ArchiveError (DecodeStep × σ)) = r at ha
    cases ha with
    | same heq =>
      subst hr
      refine .of_steps (.single ?_)
      simp only [whole, heq, if_neg hdone]
    | absorbed heq =>
      cases hr
      exact .of_eq (whole_of_shifted heq)
    | failed heq heq' =>
      cases hr
      refine .of_eq ?_
      simp only [whole, heq, heq']
    | @data k j p q t d1 d2 heq heq' =>
      cases hr
      refine @Continues.of_next _ _ _ _ _ _ (d2, (input ++ rest).drop (k + j)) _
        (((input ++ rest).drop k).take j |>.map .byte) ?_ ?_
      · simp only [whole, heq]
        rw [if_neg (by simp), List.take_add, Drive.atoms, Drive.atoms, List.map_append]
      · simp only [whole, heq', List.drop_drop]
        rw [if_neg (by simp), Drive.atoms]
  done := by
    intro d input rest outputLen eoi s d' h _ hend hs hdone
    have ha := @hagree d input rest outputLen eoi h hend
    rw [hs] at ha
    generalize hr : (Except.ok (s, d') : Except ArchiveError (DecodeStep × σ)) = r at ha
    cases ha with
    | same heq =>
      subst hr
      refine .of_halt ?_
      simp only [whole, heq, if_pos hdone]
    | absorbed =>
      cases hr
      cases hdone
    | failed =>
      cases hr
      cases hdone
    | data =>
      cases hr
      cases hdone
  error := by
    intro d input rest outputLen eoi e h _ hend hs
    have ha := @hagree d input rest outputLen eoi h hend
    rw [hs] at ha
    cases ha with
    | same heq =>
      refine .of_halt ?_
      simp only [whole, heq]

end

end LibarchiveOxide.Core.Meaning
