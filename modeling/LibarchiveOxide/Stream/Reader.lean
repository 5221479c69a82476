import LibarchiveOxide.Core.Metadata
import LibarchiveOxide.Stream.Filtered

/-! # The archive reader behind filter adapters

`Pipeline` with the filters already decoded (no layer of its own), and the `ArchiveReader` that feeds
it. What detects a format and what decodes one are parameters. A loop that does not come back gives
`none`, as does a call that needs more rounds than it is given. -/

namespace LibarchiveOxide.Stream.Reader

open Core.Failure Core.Metadata Core.Protocol Stream.Event Stream.Filtered

/-- The formats that the pipeline tells apart. -/
inductive FormatId where
  | tar
  | empty
  | other (name : String)
deriving DecidableEq

/-- The registered filters and formats. -/
structure Formats where
  Selection : Type
  Decoder : Type
  probeCodec : List Byte → Except ArchiveError (ProbeResult Unit)
  probeFormat : List Byte → Except ArchiveError (ProbeResult (FormatId × Selection))
  emptyAvailable : Bool
  selectFormat : FormatId → Except ArchiveError Selection
  decoder : Selection → Except ArchiveError Decoder
  step : Decoder → List Byte → ℕ → EndOfInput → Except ArchiveError DecodeStep × Decoder

/-- `PipelinePhase`. -/
inductive Phase where
  | reading
  | archiveDone
  | done
deriving DecidableEq

/-- `PipelineEvent`. -/
inductive PipelineEvent where
  | needInput
  | event (event : ReaderEvent)
  | done
deriving DecidableEq

/-- `Pipeline` without layers. -/
structure Pipeline (F : Formats) where
  initialError : Option ArchiveError := none
  input : List Byte := []
  capacity : ℕ
  inputFinished : Bool := false
  decoder : Option F.Decoder := none
  format : Option FormatId := none
  decoderStalled : Bool := false
  phase : Phase := .reading

/-- `BUFFER`. -/
def buffer : ℕ := 64 * 1024

/-- `DETECTION_MINIMUM`. -/
def detectionMinimum : ℕ := 17 * 2048 + 6

namespace Pipeline

variable {F : Formats}

/-- `with_filter_mode` for input that is decoded. -/
def new (F : Formats) (inFlightBytes : Option ℕ) : Pipeline F :=
  let capacity := match inFlightBytes with
    | none => buffer
    | some configured => if configured = u64Max then buffer else min (configured / 3) buffer
  { initialError := if capacity < detectionMinimum then some (({ kind := .limit } : ArchiveError).withContext
      "in-flight limit is too small for detection and configured filter depth") else none
    capacity := max capacity 1 }

/-- `feed_capacity`. -/
def feedCapacity (p : Pipeline F) : ℕ := p.capacity - p.input.length

/-- A refusal of the protocol. -/
def protocolError (context : String) : ArchiveError :=
  ({ kind := .protocol } : ArchiveError).withContext context

/-- `feed`. -/
def feed (p : Pipeline F) (bytes : List Byte) : Except ArchiveError (ℕ × Pipeline F) :=
  if p.inputFinished then .error (protocolError "input supplied after finish_input")
  else if p.phase = .done then .error (protocolError "input supplied after pipeline completion")
  else
    let count := min bytes.length p.feedCapacity
    .ok (count, { p with input := p.input ++ bytes.take count })

/-- `finish_input`. -/
def finishInput (p : Pipeline F) : Except ArchiveError (Pipeline F) :=
  if p.inputFinished then .error (protocolError "finish_input called more than once")
  else if p.phase = .done then .error (protocolError "finish_input called after pipeline completion")
  else .ok { p with inputFinished := true }

/-- `plain_finished`. -/
def plainFinished (p : Pipeline F) : Bool := p.inputFinished && p.input.isEmpty

/-- `install_decoder`; whether there is one now. -/
def installDecoder (p : Pipeline F) (format : FormatId) (selection : Except ArchiveError F.Selection) :
    Except ArchiveError Bool × Pipeline F :=
  match selection >>= F.decoder with
  | .error error => (.error error, p)
  | .ok decoder => (.ok true, { p with decoder := some decoder, format := some format })

/-- Waits for a number of bytes: without layers there is nothing to be done for them here. -/
def await (p : Pipeline F) (minimum : ℕ) : Option (Except ArchiveError Bool × Pipeline F) :=
  if minimum ≤ p.input.length then none else some (.ok false, p)

/-- The last branches of `detect_decoder`: no format matches. -/
def noFormat (p : Pipeline F) : Except ArchiveError Bool × Pipeline F :=
  if p.inputFinished ∧ p.input = [] ∧ F.emptyAvailable then
    p.installDecoder .empty (F.selectFormat .empty)
  else if p.inputFinished ∧ 1024 ≤ p.input.length ∧ (p.input.take 1024).all (· == 0) then
    p.installDecoder .tar (F.selectFormat .tar)
  else (.error (({ kind := .unsupported } : ArchiveError).withContext
    "no registered sequential archive format matched"), p)

/-- `detect_decoder`; the result is `false` if input is needed. -/
def detectDecoder (p : Pipeline F) : Option (Except ArchiveError Bool × Pipeline F) :=
  if p.input = [] ∧ !p.inputFinished then some (.ok false, p)
  else
    let detectFormat : Option (Except ArchiveError Bool × Pipeline F) :=
      match F.probeFormat p.input with
      | .error error => some (.error error, p)
      | .ok (.isMatch (format, selection)) => some (p.installDecoder format (.ok selection))
      | .ok (.needMore minimum) => if p.inputFinished then some p.noFormat else p.await minimum
      | .ok .noMatch => some p.noFormat
    match F.probeCodec p.input with
    | .error error => some (.error error, p)
    | .ok (.isMatch _) => some (.error (({ kind := .limit } : ArchiveError).withContext
        "outer filter nesting exceeds configured depth"), p)
    | .ok (.needMore minimum) => if p.inputFinished then detectFormat else p.await minimum
    | .ok .noMatch => detectFormat

/-- `poll_after_archive`. -/
def pollAfterArchive (p : Pipeline F) : Except ArchiveError PipelineEvent × Pipeline F :=
  let invalid := match p.format with
    | some .tar => p.input.any (· != 0)
    | _ => !p.input.isEmpty
  if invalid then (.error (({ kind := .malformed } : ArchiveError).withContext
    "invalid trailing archive data"), p)
  else if p.inputFinished then (.ok .done, { p with input := [], phase := .done })
  else (.ok .needInput, { p with input := [] })

/-- What one round of the loop of `poll_event` comes to. -/
inductive Turn (F : Formats) where
  | again (p : Pipeline F)
  | back (result : Except ArchiveError PipelineEvent) (p : Pipeline F)

/-- The consumed input is taken away. -/
def movedBy (p : Pipeline F) (step : DecodeStep) : Pipeline F :=
  if step.consumed ≠ 0 ∨ step.event ≠ .needInput then
    { p with input := p.input.drop step.consumed, decoderStalled := false }
  else { p with input := p.input.drop step.consumed }

/-- The decoder has taken a step. -/
def afterStep (p : Pipeline F) (inputLen : ℕ) (step : DecodeStep) : Turn F :=
  let lively := p.movedBy step
  match step.event with
  | .needOutput =>
    .back (.error (protocolError "decoder requested more than the configured output buffer")) p
  | .archiveMetadata m => .back (.ok (.event (.archiveMetadata m))) lively
  | .entry m => .back (.ok (.event (.entry m))) lively
  | .data bytes => .back (.ok (.event (.data bytes))) lively
  | .endEntry => .back (.ok (.event .endEntry)) lively
  | .done =>
    let (result, p) := { lively with phase := .archiveDone }.pollAfterArchive
    .back result p
  | .needInput =>
    if lively.plainFinished then .back (.error (({ kind := .malformed } : ArchiveError).withContext
      "archive ended before the decoder reached Done")) lively
    else if step.consumed = 0 ∧ inputLen ≠ 0 ∧ !lively.decoderStalled then
      .again { lively with decoderStalled := true }
    else if step.consumed = 0 then
      -- without layers the lookahead asks for input
      if lively.feedCapacity = 0 then
        .back (.error (protocolError "archive decoder made a no-progress loop")) lively
      else .back (.ok .needInput) lively
    else .again lively

/-- A round with a decoder. -/
def decodeRound (p : Pipeline F) (decoder : F.Decoder) : Turn F :=
  if p.input = [] ∧ !p.plainFinished then .back (.ok .needInput) p
  else
    let eoi : EndOfInput := if p.plainFinished then .end else .more
    let (result, decoder) := F.step decoder p.input p.capacity eoi
    let p := { p with decoder := some decoder }
    match result >>= fun step => step.validate p.input.length p.capacity with
    | .error error => .back (.error error) p
    | .ok step => p.afterStep p.input.length step

/-- The loop of `poll_event`. -/
def pollLoop : ℕ → Pipeline F → Option (Except ArchiveError PipelineEvent × Pipeline F)
  | 0, _ => none
  | rounds + 1, p =>
    match p.decoder with
    | some decoder =>
      match p.decodeRound decoder with
      | .again p => pollLoop rounds p
      | .back result p => some (result, p)
    | none =>
      match p.detectDecoder with
      | none => none
      | some (.error error, p) => some (.error error, p)
      | some (.ok false, p) => some (.ok .needInput, p)
      | some (.ok true, p) =>
        match p.decoder with
        | none => none
        | some decoder =>
          match p.decodeRound decoder with
          | .again p => pollLoop rounds p
          | .back result p => some (result, p)

/-- `poll_event`. -/
def pollEvent (rounds : ℕ) (p : Pipeline F) :
    Option (Except ArchiveError PipelineEvent × Pipeline F) :=
  match p.initialError with
  | some error => some (.error error, { p with initialError := none })
  | none =>
    match p.phase with
    | .done => some (.ok .done, p)
    | .archiveDone => some p.pollAfterArchive
    | .reading => p.pollLoop rounds

end Pipeline

/-- `ArchiveReader`, whose input needs no filter. -/
structure ArchiveReader (F : Formats) (σ : Type) where
  reader : σ
  pipeline : Pipeline F

namespace ArchiveReader

variable {F : Formats} {σ : Type}

/-- What one round of `next_event` comes to. -/
inductive Turn (F : Formats) (σ : Type) where
  | again (r : ArchiveReader F σ)
  | back (result : Except StreamError (Option ReaderEvent)) (r : ArchiveReader F σ)

/-- The reader is asked for input. -/
def fill (read : ReadFn σ) (r : ArchiveReader F σ) : Turn F σ :=
  let capacity := min r.pipeline.feedCapacity buffer
  if capacity = 0 then
    .back (.error (.archive (Pipeline.protocolError "pipeline requested input without capacity"))) r
  else
    match read capacity r.reader with
    | (.error error, reader) => .back (.error (.io error)) { r with reader := reader }
    | (.ok [], reader) =>
      match r.pipeline.finishInput with
      | .error error => .back (.error (.archive error)) { r with reader := reader }
      | .ok pipeline => .again { reader := reader, pipeline := pipeline }
    | (.ok bytes, reader) =>
      match r.pipeline.feed bytes with
      | .error error => .back (.error (.archive error)) { r with reader := reader }
      | .ok (accepted, pipeline) =>
        if accepted ≠ bytes.length then
          .back (.error (.archive (Pipeline.protocolError "pipeline accepted a partial adapter read")))
            { reader := reader, pipeline := pipeline }
        else .again { reader := reader, pipeline := pipeline }

/-- `next_event`; `none` stands for `Done`. -/
def nextEvent (read : ReadFn σ) :
    ℕ → ArchiveReader F σ → Option (Except StreamError (Option ReaderEvent) × ArchiveReader F σ)
  | 0, _ => none
  | rounds + 1, r =>
    match r.pipeline.pollEvent rounds with
    | none => none
    | some (.error error, pipeline) => some (.error (.archive error), { r with pipeline := pipeline })
    | some (.ok .done, pipeline) => some (.ok none, { r with pipeline := pipeline })
    | some (.ok (.event event), pipeline) =>
      some (.ok (some event), { r with pipeline := pipeline })
    | some (.ok .needInput, pipeline) =>
      match fill read { r with pipeline := pipeline } with
      | .again r => nextEvent read rounds r
      | .back result r => some (result, r)

end ArchiveReader

/-! ### The end of the input -/

namespace Pipeline

variable {F : Formats} {p p' : Pipeline F}

/-- A step that leaves the end of the input as it is, and does not report the end of the archive before
it. -/
structure Keeps (p p' : Pipeline F) : Prop where
  finished : p'.inputFinished = p.inputFinished
  done : (p.phase = .done → p.inputFinished = true) → p'.phase = .done → p'.inputFinished = true

theorem Keeps.refl (p : Pipeline F) : Keeps p p := ⟨rfl, fun h => h⟩

theorem Keeps.trans {p'' : Pipeline F} (h : Keeps p p') (h' : Keeps p' p'') : Keeps p p'' :=
  ⟨h'.finished.trans h.finished, fun hp => h'.done (h.done hp)⟩

/-- Another phase would be a change. -/
theorem keeps_of_eq (hfinished : p'.inputFinished = p.inputFinished) (hphase : p'.phase = p.phase) :
    Keeps p p' :=
  ⟨hfinished, fun h hdone => hfinished.trans (h (hphase.symm.trans hdone))⟩

variable {result : Except ArchiveError Bool}

theorem keeps_installDecoder {format : FormatId} {selection : Except ArchiveError F.Selection}
    (h : p.installDecoder format selection = (result, p')) : Keeps p p' := by
  unfold installDecoder at h
  split at h <;> cases h <;> exact keeps_of_eq rfl rfl

theorem keeps_await {minimum : ℕ} (h : p.await minimum = some (result, p')) : Keeps p p' := by
  unfold await at h
  split_ifs at h
  cases h
  exact Keeps.refl p

theorem keeps_noFormat (h : p.noFormat = (result, p')) : Keeps p p' := by
  unfold noFormat at h
  split_ifs at h
  · exact keeps_installDecoder h
  · exact keeps_installDecoder h
  · cases h
    exact Keeps.refl p

theorem keeps_detectDecoder (h : p.detectDecoder = some (result, p')) : Keeps p p' := by
  have hsame : ∀ {error : ArchiveError}, some (Except.error error, p) = some (result, p') →
      Keeps p p' := fun h => by
    cases h
    exact Keeps.refl p
  have hformat : ∀ {o : Option (Except ArchiveError Bool × Pipeline F)}, o = (
      match F.probeFormat p.input with
      | .error error => some (.error error, p)
      | .ok (.isMatch (format, selection)) => some (p.installDecoder format (.ok selection))
      | .ok (.needMore minimum) => if p.inputFinished then some p.noFormat else p.await minimum
      | .ok .noMatch => some p.noFormat) → o = some (result, p') → Keeps p p' := by
    rintro o rfl h
    split at h
    · exact hsame h
    · exact keeps_installDecoder (Option.some.inj h)
    · split_ifs at h
      · exact keeps_noFormat (Option.some.inj h)
      · exact keeps_await h
    · exact keeps_noFormat (Option.some.inj h)
  unfold detectDecoder at h
  by_cases hempty : p.input = [] ∧ !p.inputFinished
  · rw [if_pos hempty] at h
    cases h
    exact Keeps.refl p
  · rw [if_neg hempty] at h
    dsimp only at h
    cases hprobe : F.probeCodec p.input with
    | error error =>
      rw [hprobe] at h
      exact hsame h
    | ok probe =>
      rw [hprobe] at h
      cases probe with
      | isMatch _ => exact hsame h
      | noMatch => exact hformat rfl h
      | needMore minimum =>
        dsimp only at h
        by_cases hfinished : p.inputFinished = true
        · rw [if_pos hfinished] at h
          exact hformat rfl h
        · rw [if_neg hfinished] at h
          exact keeps_await h

/-- The end of the archive is reported at the end of the input. -/
theorem keeps_pollAfterArchive {result : Except ArchiveError PipelineEvent}
    (h : p.pollAfterArchive = (result, p')) :
    Keeps p p' ∧ (result = .ok .done → p'.inputFinished = true) := by
  unfold pollAfterArchive at h
  dsimp only at h
  split_ifs at h with hinvalid hfinished
  · cases h
    exact ⟨Keeps.refl p, nofun⟩
  · cases h
    exact ⟨⟨rfl, fun _ _ => hfinished⟩, fun _ => hfinished⟩
  · cases h
    exact ⟨keeps_of_eq rfl rfl, nofun⟩

/-- What a turn does to the pipeline. -/
def Turn.Keeps (p : Pipeline F) : Turn F → Prop
  | .again p' => Pipeline.Keeps p p'
  | .back result p' => Pipeline.Keeps p p' ∧ (result = .ok .done → p'.inputFinished = true)

theorem Turn.Keeps.after {turn : Turn F} (hkeeps : Pipeline.Keeps p p') (h : turn.Keeps p') :
    turn.Keeps p := by
  cases turn with
  | again p'' => exact hkeeps.trans h
  | back result p'' => exact ⟨hkeeps.trans h.1, h.2⟩

theorem keeps_afterStep (p : Pipeline F) (inputLen : ℕ) (step : DecodeStep) :
    (p.afterStep inputLen step).Keeps p := by
  have hlively : Pipeline.Keeps p (p.movedBy step) := by
    unfold movedBy
    split_ifs
    · exact keeps_of_eq rfl rfl
    · exact keeps_of_eq rfl rfl
  unfold afterStep
  generalize p.movedBy step = lively at hlively
  dsimp only
  cases step.event with
  | needOutput => exact ⟨Keeps.refl p, nofun⟩
  | archiveMetadata m => exact ⟨hlively, nofun⟩
  | entry m => exact ⟨hlively, nofun⟩
  | data bytes => exact ⟨hlively, nofun⟩
  | endEntry => exact ⟨hlively, nofun⟩
  | done =>
    obtain ⟨hkeeps, hdone⟩ := @keeps_pollAfterArchive F { lively with phase := .archiveDone } _ _ rfl
    exact ⟨⟨hkeeps.finished.trans hlively.finished, fun _ => hkeeps.done nofun⟩, hdone⟩
  | needInput =>
    dsimp only
    split_ifs
    · exact ⟨hlively, nofun⟩
    · exact hlively.trans (keeps_of_eq rfl rfl)
    · exact ⟨hlively, nofun⟩
    · exact ⟨hlively, nofun⟩
    · exact hlively

theorem keeps_decodeRound (p : Pipeline F) (decoder : F.Decoder) :
    (p.decodeRound decoder).Keeps p := by
  unfold decodeRound
  by_cases hempty : p.input = [] ∧ !p.plainFinished
  · rw [if_pos hempty]
    exact ⟨Keeps.refl p, nofun⟩
  · rw [if_neg hempty]
    dsimp only
    split
    · exact ⟨keeps_of_eq rfl rfl, nofun⟩
    · have hkeeps : Pipeline.Keeps p { p with decoder := some (F.step decoder p.input p.capacity
          (if p.plainFinished = true then .end else .more)).2 } := keeps_of_eq rfl rfl
      exact Turn.Keeps.after hkeeps (keeps_afterStep _ _ _)

theorem keeps_pollLoop : ∀ {rounds : ℕ} {p p' : Pipeline F}
    {result : Except ArchiveError PipelineEvent}, p.pollLoop rounds = some (result, p') →
    Keeps p p' ∧ (result = .ok .done → p'.inputFinished = true)
  | 0, _, _, _, h => by cases h
  | rounds + 1, p, p', result, h => by
    have hround : ∀ {p₁ : Pipeline F} {decoder : F.Decoder}, Keeps p p₁ →
        (match p₁.decodeRound decoder with
          | .again p => pollLoop rounds p
          | .back result p => some (result, p)) = some (result, p') →
        Keeps p p' ∧ (result = .ok .done → p'.inputFinished = true) := by
      intro p₁ decoder hkeeps h
      have hturn := keeps_decodeRound p₁ decoder
      cases hcase : p₁.decodeRound decoder with
      | again p₂ =>
        rw [hcase] at h hturn
        obtain ⟨hrest, hdone⟩ := keeps_pollLoop h
        exact ⟨hkeeps.trans (Pipeline.Keeps.trans hturn hrest), hdone⟩
      | back result p₂ =>
        rw [hcase] at h hturn
        cases h
        exact ⟨hkeeps.trans hturn.1, hturn.2⟩
    unfold pollLoop at h
    cases hdecoder : p.decoder with
    | some decoder =>
      rw [hdecoder] at h
      exact hround (Keeps.refl p) h
    | none =>
      rw [hdecoder] at h
      dsimp only at h
      cases hdetect : p.detectDecoder with
      | none =>
        rw [hdetect] at h
        cases h
      | some detected =>
        obtain ⟨found, p₁⟩ := detected
        rw [hdetect] at h
        have hkeeps := keeps_detectDecoder hdetect
        match found, h with
        | .error error, h =>
          cases h
          exact ⟨hkeeps, nofun⟩
        | .ok false, h =>
          cases h
          exact ⟨hkeeps, nofun⟩
        | .ok true, h =>
          dsimp only at h
          cases hinstalled : p₁.decoder with
          | none =>
            rw [hinstalled] at h
            cases h
          | some decoder =>
            rw [hinstalled] at h
            exact hround hkeeps h

/-- **`Done` comes after the end of the input.** -/
theorem keeps_pollEvent {rounds : ℕ} {result : Except ArchiveError PipelineEvent}
    (hdone : p.phase = .done → p.inputFinished = true)
    (h : p.pollEvent rounds = some (result, p')) :
    Keeps p p' ∧ (result = .ok .done → p'.inputFinished = true) := by
  unfold pollEvent at h
  cases hinitial : p.initialError with
  | some error =>
    rw [hinitial] at h
    cases h
    exact ⟨keeps_of_eq rfl rfl, nofun⟩
  | none =>
    rw [hinitial] at h
    dsimp only at h
    cases hphase : p.phase with
    | done =>
      rw [hphase] at h
      cases h
      exact ⟨Keeps.refl p, fun _ => hdone hphase⟩
    | archiveDone =>
      rw [hphase] at h
      exact keeps_pollAfterArchive (Option.some.inj h)
    | reading =>
      rw [hphase] at h
      exact keeps_pollLoop h

end Pipeline

namespace ArchiveReader

variable {F : Formats} {σ : Type} {Inv Ended : σ → Prop} {Lost : IoError → Prop} {read : ReadFn σ}

/-- The reader has its invariant, and nothing is decoded behind the end of its input. -/
structure Good (Inv Ended : σ → Prop) (r : ArchiveReader F σ) : Prop where
  reader : Inv r.reader
  done : r.pipeline.phase = .done → r.pipeline.inputFinished = true
  ended : r.pipeline.inputFinished = true → Ended r.reader

/-- **What is asked of the reader below**: its invariant is kept, it stays at its end, and it is there
if it yields nothing. Some failures are excepted. -/
def Sound (Inv Ended : σ → Prop) (Lost : IoError → Prop) (read : ReadFn σ) : Prop :=
  ∀ {room : ℕ} {s s' : σ} {result : Except IoError (List Byte)}, 0 < room → Inv s →
    read room s = (result, s') → (∀ error, result = .error error → ¬ Lost error) →
    Inv s' ∧ (Ended s → Ended s') ∧ (result = .ok [] → Ended s')

theorem Good.pipeline {r : ArchiveReader F σ} (h : Good Inv Ended r) {p : Pipeline F}
    (hkeeps : Pipeline.Keeps r.pipeline p) : Good Inv Ended { r with pipeline := p } where
  reader := h.reader
  done := hkeeps.done h.done
  ended hfinished := h.ended (hkeeps.finished.symm.trans hfinished)

/-- A result that is none of the excepted failures. -/
def Kept (Lost : IoError → Prop) (result : Except StreamError (Option ReaderEvent)) : Prop :=
  ∀ error, result = .error (.io error) → ¬ Lost error

/-- What a turn leaves. -/
def Turn.Good (Inv Ended : σ → Prop) (Lost : IoError → Prop) : Turn F σ → Prop
  | .again r => ArchiveReader.Good Inv Ended r
  | .back result r => (Kept Lost result → ArchiveReader.Good Inv Ended r) ∧ result ≠ .ok none

theorem good_fill (hsound : Sound Inv Ended Lost read) {r : ArchiveReader F σ}
    (h : Good Inv Ended r) : (fill read r).Good Inv Ended Lost := by
  unfold fill
  dsimp only
  by_cases hroom : min r.pipeline.feedCapacity buffer = 0
  · rw [if_pos hroom]
    exact ⟨fun _ => h, nofun⟩
  · rw [if_neg hroom]
    cases hread : read (min r.pipeline.feedCapacity buffer) r.reader with
    | mk result reader =>
      have hnext := hsound (Nat.pos_of_ne_zero hroom) h.reader hread
      have hgood : (∀ error, result = .error error → ¬ Lost error) →
          Good Inv Ended { r with reader := reader } := fun hkept =>
        ⟨(hnext hkept).1, h.done, fun hfinished => (hnext hkept).2.1 (h.ended hfinished)⟩
      match result, hnext, hgood with
      | .error error, _, hgood =>
        refine ⟨fun hkept => hgood fun error' herror => ?_, nofun⟩
        cases herror
        exact hkept error rfl
      | .ok [], hnext, hgood =>
        obtain ⟨hinv, -, hends⟩ := hnext nofun
        replace hgood := hgood nofun
        dsimp only
        cases hfinish : r.pipeline.finishInput with
        | error error => exact ⟨fun _ => hgood, nofun⟩
        | ok p =>
          unfold Pipeline.finishInput at hfinish
          split_ifs at hfinish with hfinished hphase
          cases hfinish
          exact ⟨hinv, fun _ => rfl, fun _ => hends rfl⟩
      | .ok (byte :: bytes), hnext, hgood =>
        obtain ⟨hinv, -, -⟩ := hnext nofun
        replace hgood := hgood nofun
        dsimp only
        cases hfeed : r.pipeline.feed (byte :: bytes) with
        | error error => exact ⟨fun _ => hgood, nofun⟩
        | ok fed =>
          obtain ⟨accepted, p⟩ := fed
          have hfed : Good Inv Ended { reader := reader, pipeline := p } := by
            unfold Pipeline.feed at hfeed
            split_ifs at hfeed with hfinished hphase
            cases hfeed
            exact ⟨hinv, hgood.done, hgood.ended⟩
          dsimp only
          split_ifs
          · exact ⟨fun _ => hfed, nofun⟩
          · exact hfed

/-- **`Done` is reported at the end of the reader below**, whatever failed before. -/
theorem good_nextEvent (hsound : Sound Inv Ended Lost read) : ∀ {rounds : ℕ} {r r' : ArchiveReader F σ}
    {result : Except StreamError (Option ReaderEvent)}, Good Inv Ended r →
    nextEvent read rounds r = some (result, r') →
    (Kept Lost result → Good Inv Ended r') ∧ (result = .ok none → Ended r'.reader)
  | 0, _, _, _, _, h => by cases h
  | rounds + 1, r, r', result, hgood, h => by
    unfold nextEvent at h
    cases hpoll : r.pipeline.pollEvent rounds with
    | none =>
      rw [hpoll] at h
      cases h
    | some polled =>
      obtain ⟨answer, p⟩ := polled
      obtain ⟨hkeeps, hdone⟩ := Pipeline.keeps_pollEvent hgood.done hpoll
      have hnext := hgood.pipeline hkeeps
      rw [hpoll] at h
      match answer, hdone, h with
      | .error error, _, h =>
        cases h
        exact ⟨fun _ => hnext, nofun⟩
      | .ok .done, hdone, h =>
        cases h
        exact ⟨fun _ => hnext, fun _ => hnext.ended (hdone rfl)⟩
      | .ok (.event event), _, h =>
        cases h
        exact ⟨fun _ => hnext, nofun⟩
      | .ok .needInput, _, h =>
        have hturn := good_fill hsound hnext
        dsimp only at h
        cases hcase : fill read { r with pipeline := p } with
        | again r₁ =>
          rw [hcase] at h hturn
          exact good_nextEvent hsound hturn h
        | back result r₁ =>
          rw [hcase] at h hturn
          cases h
          exact ⟨hturn.1, fun hnone => absurd hnone hturn.2⟩

end ArchiveReader

end LibarchiveOxide.Stream.Reader
