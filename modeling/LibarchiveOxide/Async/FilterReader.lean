import LibarchiveOxide.Async.Writer

/-! # The asynchronous filter reader

`AsyncFilterReader` reads up to six bytes to tell the outer filter, decodes it, and looks for one byte more
when the decoder has reported its end. A poll is a function of the state; what is written into the buffer
of the caller is part of the answer. The codecs and the two decoders of the foreign package are parameters.
-/

namespace LibarchiveOxide.Async.FilterReader

open Core.Failure Core.Protocol Stream.Event Async.Writer

/-- `PREFIX`. -/
def PREFIX : ℕ := 6

/-- The outer filters. -/
inductive FilterId where
  | gzip
  | bzip2
  | zstd
  | xz
  | lz4
  | compress
  | lzip
deriving DecidableEq

/-! ### Inputs -/

/-- What is left of a source, and how it answers the next polls; it reads `n + 1` bytes if there are as many
and the buffer has the room. -/
structure Source where
  rest : List Byte
  answers : ℕ → Answer ℕ

/-- `poll_read` of a source. -/
def Source.pollRead (s : Source) (room : ℕ) : Answer (List Byte) × Source :=
  let answers := fun i => s.answers (i + 1)
  match s.answers 0 with
  | .pending => (.pending, ⟨s.rest, answers⟩)
  | .ready (.error e) => (.ready (.error e), ⟨s.rest, answers⟩)
  | .ready (.ok n) =>
    (.ready (.ok (s.rest.take (min room (n + 1)))), ⟨s.rest.drop (min room (n + 1)), answers⟩)

/-- An error on its way up: a `SourceError` around it, or not. -/
inductive Raised where
  | source (e : IoError)
  | plain (e : IoError)

/-- `codec_error`. -/
def codecError : Raised → IoError
  | .source e => e
  | .plain e => ⟨if e.kind = "OutOfMemory" then "OutOfMemory" else "InvalidData", e.message⟩

/-- The error as such. -/
def Raised.error : Raised → IoError
  | .source e => e
  | .plain e => e

/-- `archive_codec_error`. -/
def archiveCodecError (e : ArchiveError) : IoError :=
  let kind := match e.kind with
    | .limit => "OutOfMemory"
    | .unsupported => "Unsupported"
    | _ => "InvalidData"
  ⟨kind, ": ".intercalate e.context⟩

/-- What a poll of an inner reader answers. -/
inductive Poll (α : Type) where
  | pending
  | ready (r : Except Raised α)

/-- The answer with its errors seen in some way. -/
def Poll.answer {α : Type} (error : Raised → IoError) : Poll α → Answer α
  | .pending => .pending
  | .ready (.ok a) => .ready (.ok a)
  | .ready (.error e) => .ready (.error (error e))

/-- `PrefixReader`, with the bytes of the prefix that are left. -/
structure PrefixReader where
  ahead : List Byte
  input : Source
  wrapSourceErrors : Bool
  physicalRead : ℕ

/-- `poll_read`. -/
def PrefixReader.pollRead (p : PrefixReader) (room : ℕ) : Poll (List Byte) × PrefixReader :=
  if room = 0 then (.ready (.ok []), p)
  else if p.ahead ≠ [] then
    (.ready (.ok (p.ahead.take room)), { p with ahead := p.ahead.drop room })
  else
    match p.input.pollRead room with
    | (.pending, input) => (.pending, { p with input := input })
    | (.ready (.error e), input) =>
      (.ready (.error (if p.wrapSourceErrors then .source e else .plain e)), { p with input := input })
    | (.ready (.ok bytes), input) => (.ready (.ok bytes), { p with
        input := input
        physicalRead := min (p.physicalRead + bytes.length) u64Max })

/-- `Buffered`, with the bytes that are buffered. -/
structure Buffered where
  input : PrefixReader
  bytes : List Byte := []

/-- `poll_read`. -/
def Buffered.pollRead (b : Buffered) (room : ℕ) : Poll (List Byte) × Buffered :=
  if room = 0 then (.ready (.ok []), b)
  else if b.bytes ≠ [] then (.ready (.ok (b.bytes.take room)), { b with bytes := b.bytes.drop room })
  else
    match b.input.pollRead room with
    | (answer, input) => (answer, { b with input := input })

/-! ### Decoders -/

/-- `PipelineCodec`: `with_backend` and `poll_process`, whose step has the bytes that it put out. -/
structure Codecs (κ : Type) where
  withBackend : FilterId → Except ArchiveError κ
  pollProcess : κ → List Byte → ℕ → EndOfInput → Except ArchiveError (Option CodecStep) × κ

/-- The decoders of gzip and bzip2. -/
structure Foreign (φ : Type) where
  new : FilterId → Buffered → φ
  pollRead : φ → ℕ → Poll (List Byte) × φ
  intoInner : φ → Buffered

/-- `AsyncCodecReader`, with the bytes of its buffer that are not consumed. -/
structure AsyncCodecReader (κ : Type) where
  input : Buffered
  codec : κ
  compressed : List Byte := []
  eof : Bool := false
  done : Bool := false

variable {κ φ : Type}

/-- A read of the input once the buffer is used up. -/
def AsyncCodecReader.fill (r : AsyncCodecReader κ) : Poll Unit × AsyncCodecReader κ :=
  if r.compressed = [] ∧ r.eof = false then
    match r.input.pollRead BUFFER with
    | (.pending, input) => (.pending, { r with input := input })
    | (.ready (.error e), input) => (.ready (.error e), { r with input := input })
    | (.ready (.ok []), input) => (.ready (.ok ()), { r with input := input, eof := true })
    | (.ready (.ok (b :: bytes)), input) =>
      (.ready (.ok ()), { r with input := input, compressed := b :: bytes })
  else (.ready (.ok ()), r)

/-- The end of the input. -/
def AsyncCodecReader.endOfInput (r : AsyncCodecReader κ) : EndOfInput := if r.eof then .end else .more

/-- What is done with a step whose input is consumed. `none` goes on with the loop. -/
def AsyncCodecReader.settle (r : AsyncCodecReader κ) (step : CodecStep) :
    Option (Poll (List Byte)) × AsyncCodecReader κ :=
  if step.produced ≠ [] then (some (.ready (.ok step.produced)), r)
  else if step.status = .done then (some (.ready (.ok [])), { r with done := true })
  else if step.status = .needInput ∧ r.compressed = [] ∧ r.eof = false then (none, r)
  else if step.status = .needOutput ∧ step.consumed ≠ 0 then (none, r)
  else if step.status = .needInput ∧ r.eof then
    (some (.ready (.error (.plain ⟨"InvalidData", "codec requested input after the source ended"⟩))), r)
  else (some (.ready (.error (.plain ⟨"InvalidData", "async codec reader made no progress"⟩))), r)

/-- A call of the codec. -/
def AsyncCodecReader.process (cs : Codecs κ) (r : AsyncCodecReader κ) (room : ℕ) :
    Option (Poll (List Byte)) × AsyncCodecReader κ :=
  match cs.pollProcess r.codec r.compressed room r.endOfInput with
  | (.error e, codec) => (some (.ready (.error (.plain (archiveCodecError e)))), { r with codec := codec })
  | (.ok none, codec) => (some .pending, { r with codec := codec })
  | (.ok (some step), codec) =>
    match step.validate r.compressed.length room with
    | .error e => (some (.ready (.error (.plain (archiveCodecError e)))), { r with codec := codec })
    | .ok step => { r with codec := codec, compressed := r.compressed.drop step.consumed }.settle step

/-- The loop of `poll_read`. -/
def AsyncCodecReader.pollLoop (cs : Codecs κ) (room : ℕ) :
    ℕ → AsyncCodecReader κ → Option (Poll (List Byte) × AsyncCodecReader κ)
  | 0, _ => none
  | rounds + 1, r =>
    match r.fill with
    | (.pending, r) => some (.pending, r)
    | (.ready (.error e), r) => some (.ready (.error e), r)
    | (.ready (.ok ()), r) =>
      match r.process cs room with
      | (some answer, r) => some (answer, r)
      | (none, r) => pollLoop cs room rounds r

/-- Rounds that suffice. -/
def AsyncCodecReader.rounds (r : AsyncCodecReader κ) : ℕ :=
  2 * (r.input.bytes.length + r.input.input.ahead.length + r.input.input.input.rest.length) +
    r.compressed.length + (if r.eof then 0 else 1)

variable {r : AsyncCodecReader κ}

/-- Taking from a buffer or a source, not a byte is lost. -/
theorem Buffered.pollRead_bytes {b b' : Buffered} {room : ℕ} {bytes : List Byte}
    (h : b.pollRead room = (.ready (.ok bytes), b')) :
    b.bytes ++ b.input.ahead ++ b.input.input.rest =
      bytes ++ (b'.bytes ++ b'.input.ahead ++ b'.input.input.rest) := by
  unfold Buffered.pollRead PrefixReader.pollRead Source.pollRead at h
  by_cases hroom : room = 0
  · rw [if_pos hroom] at h
    cases h
    rfl
  rw [if_neg hroom] at h
  by_cases hbytes : b.bytes ≠ []
  · rw [if_pos hbytes] at h
    cases h
    simp [← List.append_assoc]
  rw [if_neg hbytes, if_neg hroom] at h
  rw [not_not] at hbytes
  by_cases hahead : b.input.ahead ≠ []
  · rw [if_pos hahead] at h
    cases h
    simp [hbytes, ← List.append_assoc]
  rw [if_neg hahead] at h
  rw [not_not] at hahead
  cases ha : b.input.input.answers 0 with
  | pending =>
    rw [ha] at h
    cases h
  | ready result =>
    cases result with
    | error e =>
      rw [ha] at h
      cases h
    | ok n =>
      rw [ha] at h
      cases h
      simp [hbytes, hahead]

theorem fill_ready {r' : AsyncCodecReader κ} (h : r.fill = (.ready (.ok ()), r')) :
    r'.rounds ≤ r.rounds ∧ (r'.compressed ≠ [] ∨ r'.eof = true) := by
  unfold AsyncCodecReader.fill at h
  split_ifs at h with hc
  · obtain ⟨hnil, heof⟩ := hc
    cases hread : r.input.pollRead BUFFER with
    | mk answer input =>
    rw [hread] at h
    have hbytes {bytes : List Byte} (ha : answer = .ready (.ok bytes)) :=
      Buffered.pollRead_bytes (ha ▸ hread)
    split at h
    · cases h
    · cases h
    · rename_i heq
      cases heq
      cases h
      have hlen := congrArg List.length (hbytes rfl)
      simp only [List.length_append, List.length_nil] at hlen
      refine ⟨?_, .inr rfl⟩
      simp only [AsyncCodecReader.rounds, heof]
      split_ifs <;> omega
    · rename_i heq
      cases heq
      cases h
      have hlen := congrArg List.length (hbytes rfl)
      simp only [List.length_append, List.length_cons] at hlen
      refine ⟨?_, .inl (List.cons_ne_nil _ _)⟩
      simp only [AsyncCodecReader.rounds, heof, hnil, List.length_cons, List.length_nil]
      omega
  · cases h
    refine ⟨le_rfl, ?_⟩
    cases he : r.eof with
    | true => exact .inr rfl
    | false => exact .inl fun hnil => hc ⟨hnil, he⟩

theorem validate_eq_ok {s s' : CodecStep} {inputLen outputLen : ℕ}
    (h : s.validate inputLen outputLen = .ok s') : s' = s ∧ s.consumed ≤ inputLen ∧
      s.produced.length ≤ outputLen ∧ (0 < outputLen → s.consumed = 0 → s.produced = [] → s.status ≠ .done →
        s.status = .needInput ∧ inputLen = 0) := by
  unfold CodecStep.validate at h
  split_ifs at h with h1 h2
  cases h
  simp only [Bool.or_eq_true, decide_eq_true_eq, not_or, Nat.not_lt] at h1
  refine ⟨rfl, h1.1, h1.2, fun hroom hc hp hd => ?_⟩
  by_contra hno
  refine h2 ?_
  simp only [hc, hp, List.length_nil, beq_self_eq_true, Bool.true_and, Bool.and_eq_true, bne_iff_ne, ne_eq, hd,
    not_false_eq_true, and_true, Bool.not_eq_true', Bool.and_eq_false_iff, beq_eq_false_iff_ne]
  constructor
  · exact not_and_or.mp hno
  · right
    omega

theorem settle_none {step : CodecStep} {r' : AsyncCodecReader κ} (h : r.settle step = (none, r')) :
    r' = r ∧ step.status ≠ .done ∧ (r.compressed = [] ∧ r.eof = false ∨ step.consumed ≠ 0) := by
  unfold AsyncCodecReader.settle at h
  by_cases h1 : step.produced ≠ []
  · rw [if_pos h1] at h
    cases h
  by_cases h2 : step.status = .done
  · rw [if_neg h1, if_pos h2] at h
    cases h
  rw [if_neg h1, if_neg h2] at h
  split_ifs at h with h3 h4
  all_goals cases h
  · exact ⟨rfl, h2, .inl h3.2⟩
  · exact ⟨rfl, h2, .inr h4.2⟩

theorem process_none {cs : Codecs κ} {room : ℕ} {r' : AsyncCodecReader κ}
    (hready : r.compressed ≠ [] ∨ r.eof = true) (h : r.process cs room = (none, r')) :
    r'.rounds < r.rounds := by
  unfold AsyncCodecReader.process at h
  split at h
  · cases h
  · cases h
  · split at h
    · cases h
    · rename_i step' hv
      obtain ⟨rfl, hle, -⟩ := validate_eq_ok hv
      obtain ⟨rfl, -, hmoved⟩ := settle_none h
      simp only [AsyncCodecReader.rounds]
      rcases hmoved with ⟨hnil, heof⟩ | hzero
      · have hpos := List.length_pos_iff.mpr (hready.resolve_right (by simp only at heof; simp [heof]))
        simp only at hnil
        rw [hnil, List.length_nil]
        omega
      · rw [List.length_drop]
        omega

/-- **The loop ends.** -/
theorem pollLoop_isSome (cs : Codecs κ) (room : ℕ) : ∀ (rounds : ℕ) (r : AsyncCodecReader κ),
    r.rounds < rounds → (r.pollLoop cs room rounds).isSome = true
  | 0, _, h => absurd h (Nat.not_lt_zero _)
  | rounds + 1, r, h => by
    rw [AsyncCodecReader.pollLoop]
    obtain ⟨⟨answer, r1⟩, hfill⟩ : ∃ x, r.fill = x := ⟨_, rfl⟩
    rw [hfill]
    match answer with
    | .pending => rfl
    | .ready (.error e) => rfl
    | .ready (.ok ()) =>
      obtain ⟨hle, hready⟩ := fill_ready hfill
      obtain ⟨⟨next, r2⟩, hprocess⟩ : ∃ x, r1.process cs room = x := ⟨_, rfl⟩
      simp only [hprocess]
      match next with
      | some answer => rfl
      | none => exact pollLoop_isSome cs room rounds r2 (by
          have := process_none hready hprocess
          omega)

/-- `poll_read`. -/
def AsyncCodecReader.pollRead (cs : Codecs κ) (r : AsyncCodecReader κ) (room : ℕ) :
    Poll (List Byte) × AsyncCodecReader κ :=
  if room = 0 ∨ r.done then (.ready (.ok []), r)
  else (r.pollLoop cs room (r.rounds + 1)).get (pollLoop_isSome cs room _ r (Nat.lt_succ_self _))

/-! ### The reader -/

/-- `ReaderInner` once the filter is detected. -/
inductive Selected (κ φ : Type) where
  | plain (input : Buffered)
  | foreign (filter : FilterId) (decoder : φ)
  | codec (filter : FilterId) (reader : AsyncCodecReader κ)
  | finished (input : Buffered) (filter : FilterId)
  | failed

/-- `ReaderInner`: before the detection, the input and the prefix so far, or after it. -/
inductive ReaderInner (κ φ : Type) where
  | detecting (input : Option Source) (found : List Byte) (eof : Bool)
  | selected (s : Selected κ φ)

/-- `AsyncFilterReader`. -/
structure AsyncFilterReader (κ φ : Type) where
  inner : ReaderInner κ φ
  decoded : ℕ := 0
  decodedLimit : Option ℕ

/-- `with_backend`. -/
def AsyncFilterReader.withBackend (input : Source) (decodedLimit : Option ℕ) : AsyncFilterReader κ φ where
  inner := .detecting (some input) [] false
  decodedLimit := decodedLimit

/-- The filter that a prefix tells. -/
def detected (available : List Byte) : Option FilterId :=
  if (bstr "LZIP").isPrefixOf available then some .lzip
  else if [0x1f, 0x8b].isPrefixOf available then some .gzip
  else if [0x1f, 0x9d].isPrefixOf available then some .compress
  else if (bstr "BZh").isPrefixOf available then some .bzip2
  else if [0x28, 0xb5, 0x2f, 0xfd].isPrefixOf available then some .zstd
  else if [0xfd, 0x37, 0x7a, 0x58, 0x5a, 0].isPrefixOf available then some .xz
  else if [0x04, 0x22, 0x4d, 0x18].isPrefixOf available then some .lz4
  else none

/-- The loop of `poll_detect` that reads the prefix. -/
def prefixLoop : ℕ → Source → List Byte → Bool → Answer Unit × Source × List Byte × Bool
  | 0, input, found, eof => (.ready (.ok ()), input, found, eof)
  | rounds + 1, input, found, eof =>
    if found.length = PREFIX ∨ eof then (.ready (.ok ()), input, found, eof)
    else
      match input.pollRead (PREFIX - found.length) with
      | (.pending, input) => (.pending, input, found, eof)
      | (.ready (.error e), input) => (.ready (.error e), input, found, eof)
      | (.ready (.ok []), input) => prefixLoop rounds input found true
      | (.ready (.ok (b :: bytes)), input) => prefixLoop rounds input (found ++ b :: bytes) eof

/-- The reader that the prefix selects. -/
def select (cs : Codecs κ) (foreign : Foreign φ) (input : Source) (found : List Byte) :
    Except IoError (Selected κ φ) :=
  let buffered (wrap : Bool) : Buffered := { input := ⟨found, input, wrap, found.length⟩ }
  match detected found with
  | none => .ok (.plain (buffered false))
  | some .gzip => .ok (.foreign .gzip (foreign.new .gzip (buffered true)))
  | some .bzip2 => .ok (.foreign .bzip2 (foreign.new .bzip2 (buffered true)))
  | some filter =>
    match cs.withBackend filter with
    | .ok codec => .ok (.codec filter { input := buffered true, codec := codec })
    | .error e => .error (archiveCodecError e)

/-- `poll_detect`. The input is gone if the codec cannot be set up. -/
def pollDetect (cs : Codecs κ) (foreign : Foreign φ) (input : Option Source) (found : List Byte)
    (eof : Bool) : Except (Answer Unit × ReaderInner κ φ) (Selected κ φ) :=
  match input with
  | none => .error (.ready (.error ⟨"Other", if found.length = PREFIX ∨ eof then
      "async filter input is missing" else "async filter input disappeared during detection"⟩),
      .detecting none found eof)
  | some input =>
    match prefixLoop (PREFIX + 1) input found eof with
    | (.ready (.ok ()), input, found, eof) =>
      match select cs foreign input found with
      | .ok s => .ok s
      | .error e => .error (.ready (.error e), .detecting none found eof)
    | (answer, input, found, eof) => .error (answer, .detecting (some input) found eof)

/-- The look for one byte more. -/
def probe (input : Buffered) (filter : FilterId) : Answer (List Byte) × Buffered :=
  match input.pollRead 1 with
  | (result, input) =>
    let answer := match result.answer codecError with
      | .ready (.ok []) =>
        if filter = .xz ∧ ¬ input.input.physicalRead % 4 = 0 then
          .ready (.error ⟨"InvalidData", "XZ stream padding is not a multiple of four bytes"⟩)
        else .ready (.ok [])
      | .ready (.ok _) => .ready (.error ⟨"InvalidData", "non-member trailing filter data"⟩)
      | other => other
    (answer, input)

/-- A round of `poll_decoded` after the detection, up to the end of the decoder. -/
def Selected.decode (cs : Codecs κ) (foreign : Foreign φ) (room : ℕ) :
    Selected κ φ → Except (Answer (List Byte) × Selected κ φ) (Buffered × FilterId)
  | .plain input =>
    match input.pollRead room with
    | (result, input) => .error (result.answer Raised.error, .plain input)
  | .foreign filter decoder =>
    match foreign.pollRead decoder room with
    | (.ready (.ok []), decoder) => .ok (foreign.intoInner decoder, filter)
    | (result, decoder) => .error (result.answer codecError, .foreign filter decoder)
  | .codec filter reader =>
    match reader.pollRead cs room with
    | (.ready (.ok []), reader) => .ok (reader.input, filter)
    | (result, reader) => .error (result.answer codecError, .codec filter reader)
  | .finished input filter => .ok (input, filter)
  | .failed =>
    .error (.ready (.error ⟨"InvalidData", "async filter reader is in a failed state"⟩), .failed)

/-- The rounds of `poll_decoded` up to the end of the decoder. -/
def ReaderInner.decode (cs : Codecs κ) (foreign : Foreign φ) (room : ℕ) :
    ReaderInner κ φ → Except (Answer (List Byte) × ReaderInner κ φ) (Buffered × FilterId)
  | .detecting input found eof =>
    match pollDetect cs foreign input found eof with
    | .ok s => (s.decode cs foreign room).mapError fun x => (x.1, .selected x.2)
    | .error (.ready (.error e), inner) => .error (.ready (.error e), inner)
    | .error (_, inner) => .error (.pending, inner)
  | .selected s => (s.decode cs foreign room).mapError fun x => (x.1, .selected x.2)

/-- `poll_decoded`. The end of the decoder is followed by a look for one byte more. -/
def ReaderInner.pollDecoded (cs : Codecs κ) (foreign : Foreign φ) (room : ℕ) (inner : ReaderInner κ φ) :
    Answer (List Byte) × ReaderInner κ φ :=
  match inner.decode cs foreign room with
  | .error x => x
  | .ok (input, filter) =>
    match probe input filter with
    | (answer, input) => (answer, .selected (.finished input filter))

/-- A read of some bytes that are allowed. -/
def AsyncFilterReader.pollAllowed (cs : Codecs κ) (foreign : Foreign φ) (r : AsyncFilterReader κ φ)
    (allowed : ℕ) : Answer (List Byte) × AsyncFilterReader κ φ :=
  match r.inner.pollDecoded cs foreign allowed with
  | (.ready (.ok bytes), inner) =>
    match checkedAdd r.decoded bytes.length with
    | some total => (.ready (.ok bytes), { r with inner := inner, decoded := total })
    | none => (.ready (.error ⟨"Other", "decoded stream size overflow"⟩), { r with inner := inner })
  | (answer, inner) => (answer, { r with inner := inner })

/-- `poll_read`. At the limit one byte more tells the end of the stream from an excess. -/
def AsyncFilterReader.pollRead (cs : Codecs κ) (foreign : Foreign φ) (r : AsyncFilterReader κ φ)
    (room : ℕ) : Answer (List Byte) × AsyncFilterReader κ φ :=
  if room = 0 then (.ready (.ok []), r)
  else
    match r.decodedLimit with
    | none => r.pollAllowed cs foreign room
    | some limit =>
      if limit - r.decoded = 0 then
        match r.inner.pollDecoded cs foreign 1 with
        | (.ready (.ok (_ :: _)), inner) =>
          (.ready (.error ⟨"Other", "decoded stream exceeds configured limit"⟩), { r with inner := inner })
        | (answer, inner) => (answer, { r with inner := inner })
      else r.pollAllowed cs foreign (min (limit - r.decoded) room)

end LibarchiveOxide.Async.FilterReader
