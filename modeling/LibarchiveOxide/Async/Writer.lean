import LibarchiveOxide.Core.Encode
import LibarchiveOxide.Stream.Event

/-! # The asynchronous writer

An operation of `AsyncArchiveWriter` is a future. It runs by itself up to the next await, where it
waits for the plain destination; the caller polls it again or drops it there. The states name the
place in the operation that is under way, and the labels are what the caller and the destination do.
The encoder is any encoder. -/

namespace LibarchiveOxide.Async.Writer

open Core.Failure Core.Metadata Core.Protocol Core.Encode Stream.Event

/-- `BUFFER`. -/
def BUFFER : ℕ := 64 * 1024

/-- The encoder of a format. -/
structure RuntimeEncoder (σ : Type) where
  step : EncodeFn σ
  setArchiveMetadata : σ → ArchiveMetadata → σ × Except ArchiveError Unit

/-- An operation. `writeData` holds the bytes that are left. -/
inductive Operation where
  | startEntry (metadata : EntryMetadata)
  | writeData (data : List Byte)
  | endEntry
  | finish
deriving DecidableEq

/-- The command of a round. -/
def Operation.command : Operation → EncodeCommand
  | .startEntry m => .beginEntry m
  | .writeData data => .data data
  | .endEntry => .endEntry
  | .finish => .finish

/-- Where an operation is: not polled yet, before a round of its loop, in `write_output` with the
bytes `rest` of the encoder's step, or in `finish_filter`. -/
inductive Point where
  | created (op : Operation)
  | round (op : Operation)
  | writing (op : Operation) (step : EncodeStep) (rest : List Byte)
  | flushing
deriving DecidableEq

/-- What goes on: nothing, an operation, or the writer is gone, with the result of `finish` or with
its dropped future. -/
inductive Activity where
  | idle
  | busy (p : Point)
  | closed (result : Except StreamError Unit)
  | gone
deriving DecidableEq

/-- The writer, what the destination received and what the encoder produced. -/
structure State (σ : Type) where
  encoder : σ
  failed : Bool := false
  activity : Activity := .idle
  received : List Byte := []
  encoded : List Byte := []

/-- What a poll of the destination answers. -/
inductive Answer (α : Type) where
  | pending
  | ready (r : Except IoError α)
deriving DecidableEq

/-- What happens next. The destination takes `n` of the offered bytes, or all if there are fewer. -/
inductive Label where
  | call (op : Operation)
  | setArchiveMetadata (m : ArchiveMetadata)
  | run
  | written (a : Answer ℕ)
  | flushed (a : Answer Unit)
  | drop

/-- An error of the protocol. -/
def protocolError (context : String) : StreamError :=
  .archive (({ kind := .protocol } : ArchiveError).withContext context)

/-- `write_output`, when the destination made no progress. -/
def writeZero : StreamError :=
  .io ⟨"WriteZero", "asynchronous archive destination made no progress"⟩

/-- `ensure_live`. -/
def ensureLive {σ : Type} (s : State σ) : Except StreamError Unit :=
  if s.failed then .error (protocolError "archive writer is poisoned by an earlier I/O error")
  else .ok ()

namespace State

variable {σ : Type}

/-- An operation returns. `finish` owns the writer. -/
def returns (s : State σ) (op : Operation) (result : Except StreamError Unit) : State σ :=
  { s with activity := if op = .finish then .closed result else .idle }

/-- The operation goes on. -/
def goTo (s : State σ) (p : Point) : State σ := { s with activity := .busy p }

/-- A round after its bytes were written. -/
def emitted (s : State σ) (op : Operation) (step : EncodeStep) : State σ :=
  match op with
  | .startEntry _ =>
    if step.consumed = 1 then s.returns op (.ok ())
    else if step.produced = [] ∧ step.status ≠ .needOutput then
      s.returns op (.error (protocolError "tar encoder did not accept begin-entry"))
    else s.goTo (.round op)
  | .writeData data =>
    if step.consumed = 0 ∧ step.produced = [] then
      s.returns op (.error (protocolError "tar encoder made no async write progress"))
    else s.goTo (.round (.writeData (data.drop step.consumed)))
  | .endEntry =>
    if step.consumed = 1 then s.returns op (.ok ())
    else if step.produced = [] then
      s.returns op (.error (protocolError "tar encoder did not accept end-entry"))
    else s.goTo (.round op)
  | .finish =>
    if step.status = .done then s.goTo .flushing
    else if step.consumed = 0 ∧ step.produced = [] then
      s.returns op (.error (protocolError "tar encoder made no async finish progress"))
    else s.goTo (.round op)

/-- The checks before the first round. -/
def begins (s : State σ) (op : Operation) : State σ :=
  match ensureLive s with
  | .error e => s.returns op (.error e)
  | .ok () =>
    match op with
    | .startEntry m =>
      match m.validate with
      | .error e => s.returns op (.error (.archive e))
      | .ok () => s.goTo (.round op)
    | _ => s.goTo (.round op)

/-- One step of the encoder. -/
def encodes (enc : RuntimeEncoder σ) (s : State σ) (op : Operation) : State σ :=
  match enc.step s.encoder op.command BUFFER with
  | (encoder, .error e) => ({ s with encoder } : State σ).returns op (.error (.archive e))
  | (encoder, .ok step) =>
    ({ s with encoder, encoded := s.encoded ++ step.produced } : State σ).goTo
      (.writing op step step.produced)

/-- The operation runs by itself. At an await it cannot. -/
def runs (enc : RuntimeEncoder σ) (s : State σ) : Point → Option (State σ)
  | .created op => some (s.begins op)
  | .round (.writeData []) => some (s.returns (.writeData []) (.ok ()))
  | .round op => some (s.encodes enc op)
  | .writing op step [] => some (s.emitted op step)
  | .writing _ _ (_ :: _) | .flushing => none

/-- The destination answers `poll_write`. -/
def accepts (s : State σ) (op : Operation) (step : EncodeStep) (rest : List Byte) :
    Answer ℕ → State σ
  | .pending => s
  | .ready (.error e) => ({ s with failed := true } : State σ).returns op (.error (.io e))
  | .ready (.ok n) =>
    if min n rest.length = 0 then
      ({ s with failed := true } : State σ).returns op (.error writeZero)
    else
      ({ s with received := s.received ++ rest.take n } : State σ).goTo
        (.writing op step (rest.drop n))

/-- The future is dropped before it is polled or at an await. -/
def dropped (s : State σ) : Point → Option (State σ)
  | .created op | .writing op _ (_ :: _) =>
    some { s with activity := if op = .finish then .gone else .idle }
  | .flushing => some { s with activity := .gone }
  | .round _ | .writing _ _ [] => none

/-- What a label does, where it can happen. -/
def next (enc : RuntimeEncoder σ) (s : State σ) : Label → Option (State σ)
  | .call op =>
    match s.activity with
    | .idle => some (s.goTo (.created op))
    | _ => none
  | .setArchiveMetadata m =>
    match s.activity with
    | .idle =>
      match ensureLive s with
      | .error _ => some s
      | .ok () => some { s with encoder := (enc.setArchiveMetadata s.encoder m).1 }
    | _ => none
  | .run =>
    match s.activity with
    | .busy p => s.runs enc p
    | _ => none
  | .written a =>
    match s.activity with
    | .busy (.writing op step (b :: rest)) => some (s.accepts op step (b :: rest) a)
    | _ => none
  | .flushed a =>
    match s.activity, a with
    | .busy .flushing, .pending => some s
    | .busy .flushing, .ready r => some (s.returns .finish (r.mapError .io))
    | _, _ => none
  | .drop =>
    match s.activity with
    | .busy p => s.dropped p
    | _ => none

/-- The state after the labels. -/
def after (enc : RuntimeEncoder σ) : State σ → List Label → Option (State σ)
  | s, [] => some s
  | s, l :: ls => (s.next enc l).bind fun s' => after enc s' ls

end State

end LibarchiveOxide.Async.Writer
