import LibarchiveOxide.Async.Writer

/-! # The asynchronous frame encoder

`AsyncFrameEncoder` cuts what is written into pieces of at most 64 KiB and puts out one frame for each. A
frame that the output has not taken yet waits in `pending`; while it does, no input is buffered, so
that `poll_flush` and `poll_close` have nothing to encode. The frame of a piece is any function. -/

namespace LibarchiveOxide.Async.FrameEncoder

open Core.Failure Stream.Event Async.Writer

/-- `AsyncFrameEncoder`, with what its output has received. -/
structure AsyncFrameEncoder where
  input : List Byte := []
  pending : List Byte := []
  pendingPosition : ℕ := 0
  wroteFrame : Bool := false
  closed : Bool := false
  received : List Byte := []

/-- What the output answers during a call: to the writes of the first drain and of the second one, and
to the last `poll_flush` or `poll_close`. -/
structure Output where
  write : ℕ → Answer ℕ
  again : ℕ → Answer ℕ
  finish : Answer Unit

/-- A call of the encoder. -/
inductive Call where
  | write (bytes : List Byte)
  | flush
  | close

variable (frame : List Byte → List Byte)

/-- `encode_frame`. -/
def AsyncFrameEncoder.encodeFrame (e : AsyncFrameEncoder) : AsyncFrameEncoder :=
  { e with pending := frame e.input, pendingPosition := 0, input := [], wroteFrame := true }

/-- The loop of `poll_drain`, while at most so many bytes are left. The output takes `n` of the offered
bytes, or all if there are fewer. -/
def drainLoop (write : ℕ → Answer ℕ) : ℕ → ℕ → AsyncFrameEncoder → AsyncFrameEncoder × Answer Unit
  | 0, _, e => (e, .ready (.ok ()))
  | left + 1, i, e =>
    if e.pendingPosition = e.pending.length then (e, .ready (.ok ()))
    else
      match write i with
      | .pending => (e, .pending)
      | .ready (.error error) => (e, .ready (.error error))
      | .ready (.ok 0) =>
        (e, .ready (.error ⟨"WriteZero", "frame output stopped accepting bytes"⟩))
      | .ready (.ok (n + 1)) =>
        let offered := e.pending.drop e.pendingPosition
        let written := min (n + 1) offered.length
        drainLoop write left (i + 1) { e with
          pendingPosition := e.pendingPosition + written
          received := e.received ++ offered.take written }

/-- `poll_drain`. -/
def AsyncFrameEncoder.pollDrain (e : AsyncFrameEncoder) (write : ℕ → Answer ℕ) :
    AsyncFrameEncoder × Answer Unit :=
  match drainLoop write (e.pending.length - e.pendingPosition) 0 e with
  | (e, .ready (.ok ())) => ({ e with pending := [], pendingPosition := 0 }, .ready (.ok ()))
  | other => other

/-- What `poll_write` does once an older frame is gone. -/
def AsyncFrameEncoder.accept (e : AsyncFrameEncoder) (bytes : List Byte) : AsyncFrameEncoder × ℕ :=
  let consumed := min (BUFFER - e.input.length) bytes.length
  let e := { e with input := e.input ++ bytes.take consumed }
  (if e.input.length = BUFFER then e.encodeFrame frame else e, consumed)

/-- `poll_write`. -/
def AsyncFrameEncoder.pollWrite (e : AsyncFrameEncoder) (output : Output) (bytes : List Byte) :
    AsyncFrameEncoder × Answer ℕ :=
  if e.closed then (e, .ready (.error ⟨"BrokenPipe", "frame encoder is closed"⟩))
  else if bytes = [] then (e, .ready (.ok 0))
  else
    match e.pollDrain output.write with
    | (e, .pending) => (e, .pending)
    | (e, .ready (.error error)) => (e, .ready (.error error))
    | (e, .ready (.ok ())) =>
      if e.input.length = BUFFER then
        match (e.encodeFrame frame).pollDrain output.again with
        | (e, .pending) => (e, .pending)
        | (e, .ready (.error error)) => (e, .ready (.error error))
        | (e, .ready (.ok ())) => ((e.accept frame bytes).1, .ready (.ok (e.accept frame bytes).2))
      else ((e.accept frame bytes).1, .ready (.ok (e.accept frame bytes).2))

/-- `poll_flush`. -/
def AsyncFrameEncoder.pollFlush (e : AsyncFrameEncoder) (output : Output) :
    AsyncFrameEncoder × Answer Unit :=
  let e := if e.pendingPosition = e.pending.length ∧ e.input ≠ [] then e.encodeFrame frame else e
  match e.pollDrain output.write with
  | (e, .ready (.ok ())) => (e, output.finish)
  | other => other

/-- `poll_close`. -/
def AsyncFrameEncoder.pollClose (e : AsyncFrameEncoder) (output : Output) :
    AsyncFrameEncoder × Answer Unit :=
  if e.closed then (e, .ready (.ok ()))
  else
    let e := if e.pendingPosition = e.pending.length ∧ (e.input ≠ [] ∨ e.wroteFrame = false) then
      e.encodeFrame frame else e
    match e.pollDrain output.write with
    | (e, .ready (.ok ())) =>
      match output.finish with
      | .ready (.ok ()) => ({ e with closed := true }, .ready (.ok ()))
      | other => (e, other)
    | other => other

/-- The answer of a call that accepts no bytes. -/
def accepting : Answer Unit → Answer ℕ
  | .pending => .pending
  | .ready (.error error) => .ready (.error error)
  | .ready (.ok ()) => .ready (.ok 0)

/-- A call, with the number of bytes it has accepted. -/
def AsyncFrameEncoder.poll (e : AsyncFrameEncoder) (output : Output) :
    Call → AsyncFrameEncoder × Answer ℕ
  | .write bytes => e.pollWrite frame output bytes
  | .flush => ((e.pollFlush frame output).1, accepting (e.pollFlush frame output).2)
  | .close => ((e.pollClose frame output).1, accepting (e.pollClose frame output).2)

/-- The bytes that a call has accepted. -/
def Call.accepted : Call → Answer ℕ → List Byte
  | .write bytes, .ready (.ok n) => bytes.take n
  | _, _ => []

/-- **What a caller can reach**, with the bytes accepted so far, whether a flush was called, and the
call that it repeats because it was answered `Pending`. It stops at an error. -/
inductive Reached : AsyncFrameEncoder → List Byte → Bool → Option Call → Prop
  | new : Reached {} [] false none
  | pending {e e' : AsyncFrameEncoder} {accepted : List Byte} {flushed : Bool} {retry : Option Call}
      (call : Call) (output : Output) (h : Reached e accepted flushed retry)
      (hc : ∀ c, retry = some c → call = c) (hp : e.poll frame output call = (e', .pending)) :
      Reached e' accepted (flushed || call matches .flush) (some call)
  | ready {e e' : AsyncFrameEncoder} {accepted : List Byte} {flushed : Bool} {retry : Option Call}
      {n : ℕ} (call : Call) (output : Output) (h : Reached e accepted flushed retry)
      (hc : ∀ c, retry = some c → call = c) (hp : e.poll frame output call = (e', .ready (.ok n))) :
      Reached e' (accepted ++ call.accepted (.ready (.ok n))) (flushed || call matches .flush) none

/-! ### Drains -/

variable {answer : Answer Unit}

variable {frame} {e e' : AsyncFrameEncoder}

/-- What the output has and will have of the frames so far. -/
def AsyncFrameEncoder.emitted (e : AsyncFrameEncoder) : List Byte :=
  e.received ++ e.pending.drop e.pendingPosition

/-- A drain moves bytes from the frame to the output, and nothing else. -/
structure Drains (e e' : AsyncFrameEncoder) : Prop where
  emitted : e'.emitted = e.emitted
  input : e'.input = e.input
  wroteFrame : e'.wroteFrame = e.wroteFrame
  closed : e'.closed = e.closed
  position : e'.pendingPosition ≤ e'.pending.length
  waits : e'.pendingPosition ≠ e'.pending.length → e.pendingPosition ≠ e.pending.length
  empty : e.pending = [] → e'.pending = []

theorem drainLoop_drains {write : ℕ → Answer ℕ} : ∀ (left i : ℕ) {e e' : AsyncFrameEncoder}
    {answer : Answer Unit}, e.pendingPosition ≤ e.pending.length →
    e.pending.length - e.pendingPosition ≤ left → drainLoop write left i e = (e', answer) →
    Drains e e' ∧ (answer = .ready (.ok ()) → e'.pendingPosition = e'.pending.length)
  | 0, i, e, e', answer, hp, hl, h => by
    obtain ⟨rfl, rfl⟩ := Prod.mk.inj h
    exact ⟨⟨rfl, rfl, rfl, rfl, hp, id, id⟩, fun _ => by omega⟩
  | left + 1, i, e, e', answer, hp, hl, h => by
    rw [drainLoop] at h
    by_cases he : e.pendingPosition = e.pending.length
    · rw [if_pos he] at h
      obtain ⟨rfl, rfl⟩ := Prod.mk.inj h
      exact ⟨⟨rfl, rfl, rfl, rfl, hp, id, id⟩, fun _ => he⟩
    · rw [if_neg he] at h
      match hw : write i, h with
      | .pending, h =>
        obtain ⟨rfl, rfl⟩ := Prod.mk.inj h
        exact ⟨⟨rfl, rfl, rfl, rfl, hp, id, id⟩, nofun⟩
      | .ready (.error _), h =>
        obtain ⟨rfl, rfl⟩ := Prod.mk.inj h
        exact ⟨⟨rfl, rfl, rfl, rfl, hp, id, id⟩, nofun⟩
      | .ready (.ok 0), h =>
        obtain ⟨rfl, rfl⟩ := Prod.mk.inj h
        exact ⟨⟨rfl, rfl, rfl, rfl, hp, id, id⟩, nofun⟩
      | .ready (.ok (n + 1)), h =>
        have hlen : (e.pending.drop e.pendingPosition).length = e.pending.length - e.pendingPosition :=
          List.length_drop
        obtain ⟨hd, ha⟩ := drainLoop_drains left (i + 1) (by simp only; omega) (by simp only; omega) h
        refine ⟨⟨hd.emitted.trans ?_, hd.input, hd.wroteFrame, hd.closed, hd.position,
          fun _ => he, hd.empty⟩, ha⟩
        simp only [AsyncFrameEncoder.emitted]
        rw [List.append_assoc, ← List.drop_drop, List.take_append_drop]

/-- **A drain** that succeeds leaves no frame. -/
theorem pollDrain_drains {write : ℕ → Answer ℕ} (hp : e.pendingPosition ≤ e.pending.length)
    (h : e.pollDrain write = (e', answer)) :
    Drains e e' ∧ (answer = .ready (.ok ()) → e'.pending = []) := by
  unfold AsyncFrameEncoder.pollDrain at h
  match hl : drainLoop write (e.pending.length - e.pendingPosition) 0 e, h with
  | (d, .ready (.ok ())), h =>
    obtain ⟨rfl, rfl⟩ := Prod.mk.inj h
    obtain ⟨hd, ha⟩ := drainLoop_drains _ 0 hp le_rfl hl
    refine ⟨⟨?_, hd.input, hd.wroteFrame, hd.closed, le_rfl, fun h => absurd rfl h, fun _ => rfl⟩,
      fun _ => rfl⟩
    rw [← hd.emitted]
    simp [AsyncFrameEncoder.emitted, ha rfl]
  | (d, .pending), h =>
    obtain ⟨rfl, rfl⟩ := Prod.mk.inj h
    exact ⟨(drainLoop_drains _ 0 hp le_rfl hl).1, nofun⟩
  | (d, .ready (.error _)), h =>
    obtain ⟨rfl, rfl⟩ := Prod.mk.inj h
    exact ⟨(drainLoop_drains _ 0 hp le_rfl hl).1, nofun⟩

/-! ### The invariant -/

/-- **How the accepted bytes are cut**: into pieces that are not empty, or into one empty piece at the
close of an encoder that has accepted none. Without a flush they are full, except for the last one at
the close. -/
structure Cut (flushed closing : Bool) (accepted : List Byte) (pieces : List (List Byte)) : Prop where
  fits : ∀ piece ∈ pieces, piece.length ≤ BUFFER
  filled : (∀ piece ∈ pieces, piece ≠ []) ∨ closing = true ∧ accepted = [] ∧ pieces = [[]]
  full : flushed = false →
    ∀ piece ∈ (if closing then pieces.dropLast else pieces), piece.length = BUFFER

variable (frame) in
/-- **The encoder between two calls**: the output has, or will get from the waiting frame, the frames of
the pieces, and what they lack of the accepted bytes is buffered. -/
structure Inv (flushed closing : Bool) (accepted : List Byte) (pieces : List (List Byte))
    (e : AsyncFrameEncoder) : Prop where
  emitted : e.emitted = (pieces.map frame).flatten
  buffered : pieces.flatten ++ e.input = accepted
  room : e.input.length < BUFFER
  position : e.pendingPosition ≤ e.pending.length
  waiting : e.pendingPosition ≠ e.pending.length → e.input = [] ∧ e.wroteFrame = true
  wrote : e.wroteFrame = false ↔ pieces = []
  ends : closing = true → e.input = [] ∧ e.wroteFrame = true
  shut : e.closed = true → closing = true ∧ e.pending = []
  cut : Cut flushed closing accepted pieces

theorem BUFFER_pos : 0 < BUFFER := by decide

variable {flushed closing : Bool} {accepted : List Byte} {pieces : List (List Byte)}

theorem Inv.new : Inv frame false false [] [] {} where
  emitted := rfl
  buffered := rfl
  room := BUFFER_pos
  position := le_rfl
  waiting h := absurd rfl h
  wrote := ⟨fun _ => rfl, fun _ => rfl⟩
  ends := nofun
  shut := nofun
  cut := ⟨nofun, .inl nofun, fun _ => nofun⟩

theorem Inv.drains (h : Inv frame flushed closing accepted pieces e) (hd : Drains e e') :
    Inv frame flushed closing accepted pieces e' where
  emitted := hd.emitted.trans h.emitted
  buffered := by rw [hd.input, h.buffered]
  room := by rw [hd.input]; exact h.room
  position := hd.position
  waiting hw := by rw [hd.input, hd.wroteFrame]; exact h.waiting (hd.waits hw)
  wrote := by rw [hd.wroteFrame]; exact h.wrote
  ends hc := by rw [hd.input, hd.wroteFrame]; exact h.ends hc
  shut hc := ⟨(h.shut (hd.closed ▸ hc)).1, hd.empty (h.shut (hd.closed ▸ hc)).2⟩
  cut := h.cut

/-- A weaker statement on the pieces. -/
theorem Cut.toClosing (h : Cut flushed false accepted pieces) : Cut flushed true accepted pieces where
  fits := h.fits
  filled := h.filled.imp_right fun h => absurd h.1 Bool.false_ne_true
  full hf piece hp := h.full hf piece (List.mem_of_mem_dropLast (by simpa using hp))

theorem Cut.toFlushed (h : Cut flushed closing accepted pieces) : Cut true closing accepted pieces :=
  ⟨h.fits, h.filled, nofun⟩

/-- A frame of what is buffered, when no other one waits. -/
theorem Inv.encodeFrame (h : Inv frame flushed false accepted pieces e)
    (hp : e.pendingPosition = e.pending.length) {flushed' closing' : Bool} (hc : e.closed = false)
    (hcut : Cut flushed' closing' accepted (pieces ++ [e.input])) :
    Inv frame flushed' closing' accepted (pieces ++ [e.input]) (e.encodeFrame frame) where
  emitted := by
    have hem := h.emitted
    simp only [AsyncFrameEncoder.emitted, hp, List.drop_length, List.append_nil] at hem
    simp [AsyncFrameEncoder.emitted, AsyncFrameEncoder.encodeFrame, hem]
  buffered := by simpa [AsyncFrameEncoder.encodeFrame] using h.buffered
  room := BUFFER_pos
  position := Nat.zero_le _
  waiting _ := ⟨rfl, rfl⟩
  wrote := by simp [AsyncFrameEncoder.encodeFrame]
  ends _ := ⟨rfl, rfl⟩
  shut hcl := absurd hcl (by simp [AsyncFrameEncoder.encodeFrame, hc])
  cut := hcut

/-- A piece behind the others. -/
theorem Cut.push (h : Cut flushed false accepted pieces) {piece accepted' : List Byte} (hne : piece ≠ [])
    (hle : piece.length ≤ BUFFER) {flushed' closing' : Bool} (hf : flushed' = false → flushed = false)
    (hfull : flushed' = false → closing' = false → piece.length = BUFFER) :
    Cut flushed' closing' accepted' (pieces ++ [piece]) where
  fits := by
    intro p hp
    rcases List.mem_append.mp hp with hp | hp
    · exact h.fits p hp
    · rw [List.mem_singleton.mp hp]
      exact hle
  filled := by
    refine .inl fun p hp => ?_
    rcases List.mem_append.mp hp with hp | hp
    · rcases h.filled with hfill | hfill
      · exact hfill p hp
      · exact absurd hfill.1 Bool.false_ne_true
    · rw [List.mem_singleton.mp hp]
      exact hne
  full := by
    intro hf' p hp
    have hall := h.full (hf hf')
    cases closing' with
    | true =>
      rw [if_pos rfl, List.dropLast_concat] at hp
      exact hall p hp
    | false =>
      rw [if_neg Bool.false_ne_true] at hp
      rcases List.mem_append.mp hp with hp | hp
      · exact hall p hp
      · rw [List.mem_singleton.mp hp]
        exact hfull hf' rfl

/-- Bytes are taken when no frame waits. -/
theorem Inv.accept (h : Inv frame flushed false accepted pieces e) (hp : e.pending = [])
    (hc : e.closed = false) (bytes : List Byte) :
    ∃ pieces', Inv frame flushed false (accepted ++ bytes.take (e.accept frame bytes).2) pieces'
      (e.accept frame bytes).1 := by
  have hroom := h.room
  have hpos : e.pendingPosition = e.pending.length := by
    have := h.position
    rw [hp, List.length_nil] at this ⊢
    omega
  have hlen : (e.input ++ bytes.take (min (BUFFER - e.input.length) bytes.length)).length ≤ BUFFER := by
    simp only [List.length_append, List.length_take]
    omega
  have hbuf : pieces.flatten ++ (e.input ++ bytes.take (min (BUFFER - e.input.length) bytes.length)) =
      accepted ++ bytes.take (min (BUFFER - e.input.length) bytes.length) := by
    rw [← List.append_assoc, h.buffered]
  simp only [AsyncFrameEncoder.accept]
  by_cases hfull : (e.input ++ bytes.take (min (BUFFER - e.input.length) bytes.length)).length = BUFFER
  · rw [if_pos hfull]
    refine ⟨pieces ++ [e.input ++ bytes.take (min (BUFFER - e.input.length) bytes.length)],
      ?_, ?_, BUFFER_pos, Nat.zero_le _, fun _ => ⟨rfl, rfl⟩, ?_, nofun, ?_, ?_⟩
    · have hem := h.emitted
      simp only [AsyncFrameEncoder.emitted, hp, List.drop_nil, List.append_nil] at hem
      simp [AsyncFrameEncoder.emitted, AsyncFrameEncoder.encodeFrame, hem]
    · simpa [AsyncFrameEncoder.encodeFrame] using hbuf
    · simp [AsyncFrameEncoder.encodeFrame]
    · intro hcl
      exact absurd hcl (by simp [AsyncFrameEncoder.encodeFrame, hc])
    · refine h.cut.push (fun hnil => ?_) hlen id fun _ _ => hfull
      rw [hnil] at hfull
      exact absurd hfull (by decide)
  · rw [if_neg hfull]
    refine ⟨pieces, h.emitted, hbuf, lt_of_le_of_ne hlen hfull, h.position, fun hw => absurd hpos hw,
      h.wrote, nofun, fun hcl => absurd hcl (by simp [hc]), ?_⟩
    exact ⟨h.cut.fits, h.cut.filled.imp_right fun h => absurd h.1 Bool.false_ne_true, h.cut.full⟩

/-- **A write.** -/
theorem Inv.pollWrite (h : Inv frame flushed closing accepted pieces e) {output : Output}
    {bytes : List Byte} {answer : Answer ℕ} (hc : e.closed = false → closing = false)
    (hp : e.pollWrite frame output bytes = (e', answer)) :
    answer = .pending ∧ closing = false ∧ Inv frame flushed closing accepted pieces e' ∨
    (∃ error, answer = .ready (.error error)) ∨
    ∃ n pieces', answer = .ready (.ok n) ∧ closing = false ∧
      Inv frame flushed closing (accepted ++ bytes.take n) pieces' e' := by
  unfold AsyncFrameEncoder.pollWrite at hp
  by_cases hcl : e.closed = true
  · rw [if_pos hcl] at hp
    exact .inr (.inl ⟨_, (Prod.mk.inj hp).2.symm⟩)
  rw [if_neg hcl] at hp
  obtain rfl := hc (by simpa using hcl)
  by_cases hb : bytes = []
  · rw [if_pos hb] at hp
    obtain ⟨rfl, rfl⟩ := Prod.mk.inj hp
    exact .inr (.inr ⟨0, pieces, rfl, rfl, by simpa using h⟩)
  rw [if_neg hb] at hp
  match hd : e.pollDrain output.write, hp with
  | (d, .pending), hp =>
    obtain ⟨rfl, rfl⟩ := Prod.mk.inj hp
    exact .inl ⟨rfl, rfl, h.drains (pollDrain_drains h.position hd).1⟩
  | (d, .ready (.error error)), hp => exact .inr (.inl ⟨_, (Prod.mk.inj hp).2.symm⟩)
  | (d, .ready (.ok ())), hp =>
    obtain ⟨hdrain, hnil⟩ := pollDrain_drains h.position hd
    have hinv := h.drains hdrain
    simp only at hp
    rw [if_neg (Nat.ne_of_lt hinv.room)] at hp
    obtain ⟨rfl, rfl⟩ := Prod.mk.inj hp
    obtain ⟨pieces', hinv'⟩ := hinv.accept (hnil rfl) (hdrain.closed.trans (by simpa using hcl)) bytes
    exact .inr (.inr ⟨_, pieces', rfl, rfl, hinv'⟩)

/-- **A flush.** -/
theorem Inv.pollFlush (h : Inv frame flushed closing accepted pieces e) {output : Output}
    (hp : e.pollFlush frame output = (e', answer)) :
    (∃ pieces', Inv frame true closing accepted pieces' e') ∧ e'.closed = e.closed := by
  have hstart : ∃ pieces', Inv frame true closing accepted pieces'
      (if e.pendingPosition = e.pending.length ∧ e.input ≠ [] then e.encodeFrame frame else e) := by
    by_cases he : e.pendingPosition = e.pending.length ∧ e.input ≠ []
    · rw [if_pos he]
      have hclosing : closing = false := by
        rw [← Bool.not_eq_true]
        exact fun hc => he.2 (h.ends hc).1
      subst hclosing
      have hcl : e.closed = false := by
        rw [← Bool.not_eq_true]
        exact fun hc => absurd (h.shut hc).1 Bool.false_ne_true
      exact ⟨_, h.encodeFrame he.1 hcl (h.cut.push he.2 (Nat.le_of_lt h.room) nofun nofun)⟩
    · rw [if_neg he]
      exact ⟨pieces, { h with cut := h.cut.toFlushed }⟩
  have hsame : (if e.pendingPosition = e.pending.length ∧ e.input ≠ [] then e.encodeFrame frame
      else e).closed = e.closed := by
    split_ifs
    · rfl
    · rfl
  obtain ⟨pieces', hinv⟩ := hstart
  unfold AsyncFrameEncoder.pollFlush at hp
  generalize (if e.pendingPosition = e.pending.length ∧ e.input ≠ [] then e.encodeFrame frame else e)
    = start at hp hinv hsame
  obtain ⟨⟨d, drained⟩, hd⟩ : ∃ r, start.pollDrain output.write = r := ⟨_, rfl⟩
  have hdrain := (pollDrain_drains hinv.position hd).1
  have hinv' : (∃ pieces', Inv frame true closing accepted pieces' d) ∧ d.closed = e.closed :=
    ⟨⟨pieces', hinv.drains hdrain⟩, hdrain.closed.trans hsame⟩
  simp only [hd] at hp
  match drained, hp with
  | .pending, hp =>
    obtain ⟨rfl, rfl⟩ := Prod.mk.inj hp
    exact hinv'
  | .ready (.error error), hp =>
    obtain ⟨rfl, rfl⟩ := Prod.mk.inj hp
    exact hinv'
  | .ready (.ok ()), hp =>
    obtain ⟨rfl, rfl⟩ := Prod.mk.inj hp
    exact hinv'

/-- **A close.** When it succeeds, no frame waits. -/
theorem Inv.pollClose (h : Inv frame flushed closing accepted pieces e) {output : Output}
    (hp : e.pollClose frame output = (e', answer)) :
    ∃ pieces', Inv frame flushed true accepted pieces' e' ∧
      (answer = .ready (.ok ()) → e'.pending = [] ∧ e'.closed = true) := by
  unfold AsyncFrameEncoder.pollClose at hp
  by_cases hcl : e.closed = true
  · rw [if_pos hcl] at hp
    obtain ⟨rfl, rfl⟩ := Prod.mk.inj hp
    obtain ⟨rfl, hnil⟩ := h.shut hcl
    exact ⟨pieces, h, fun _ => ⟨hnil, hcl⟩⟩
  rw [if_neg hcl] at hp
  have hopen : e.closed = false := by simpa using hcl
  have hstart : ∃ pieces', Inv frame flushed true accepted pieces'
      (if e.pendingPosition = e.pending.length ∧ (e.input ≠ [] ∨ e.wroteFrame = false) then
        e.encodeFrame frame else e) := by
    by_cases he : e.pendingPosition = e.pending.length ∧ (e.input ≠ [] ∨ e.wroteFrame = false)
    · rw [if_pos he]
      have hclosing : closing = false := by
        rw [← Bool.not_eq_true]
        intro hc
        obtain ⟨h1, h2⟩ := h.ends hc
        rcases he.2 with h3 | h3
        · exact h3 h1
        · exact absurd h3 (by simp [h2])
      subst hclosing
      refine ⟨_, h.encodeFrame he.1 hopen ?_⟩
      by_cases hin : e.input = []
      · -- nothing was written
        have hnone := h.wrote.mp (he.2.resolve_left (absurd hin))
        have hacc : accepted = [] := by rw [← h.buffered, hnone, hin]; rfl
        rw [hnone, hin]
        exact ⟨by simp, .inr ⟨rfl, hacc, rfl⟩, by simp⟩
      · exact h.cut.push hin (Nat.le_of_lt h.room) id nofun
    · rw [if_neg he]
      have hempty : e.input = [] ∧ e.wroteFrame = true := by
        by_cases hpos : e.pendingPosition = e.pending.length
        · simpa [hpos] using he
        · exact h.waiting hpos
      refine ⟨pieces, { h with ends := fun _ => hempty, shut := fun hc => absurd hc hcl, cut := ?_ }⟩
      cases closing with
      | true => exact h.cut
      | false => exact h.cut.toClosing
  obtain ⟨pieces', hinv⟩ := hstart
  generalize (if e.pendingPosition = e.pending.length ∧ (e.input ≠ [] ∨ e.wroteFrame = false) then
    e.encodeFrame frame else e) = start at hp hinv
  refine ⟨pieces', ?_⟩
  obtain ⟨⟨d, drained⟩, hd⟩ : ∃ r, start.pollDrain output.write = r := ⟨_, rfl⟩
  obtain ⟨hdrain, hnil⟩ := pollDrain_drains hinv.position hd
  have hinv' := hinv.drains hdrain
  simp only [hd] at hp
  match drained, hp, hnil with
  | .pending, hp, _ =>
    obtain ⟨rfl, rfl⟩ := Prod.mk.inj hp
    exact ⟨hinv', nofun⟩
  | .ready (.error error), hp, _ =>
    obtain ⟨rfl, rfl⟩ := Prod.mk.inj hp
    exact ⟨hinv', nofun⟩
  | .ready (.ok ()), hp, hnil =>
    match output.finish, hp with
    | .ready (.ok ()), hp =>
      obtain ⟨rfl, rfl⟩ := Prod.mk.inj hp
      exact ⟨{ hinv' with shut := fun _ => ⟨rfl, hnil rfl⟩ }, fun _ => ⟨hnil rfl, rfl⟩⟩
    | .pending, hp =>
      obtain ⟨rfl, rfl⟩ := Prod.mk.inj hp
      exact ⟨hinv', nofun⟩
    | .ready (.error error), hp =>
      obtain ⟨rfl, rfl⟩ := Prod.mk.inj hp
      exact ⟨hinv', nofun⟩

/-! ### Runs -/

theorem accepting_ok {n : ℕ} (h : accepting answer = .ready (.ok n)) :
    answer = .ready (.ok ()) := by
  match answer, h with
  | .ready (.ok ()), _ => rfl

/-- Only a close goes on where a close was answered `Pending`. -/
theorem not_closing {retry : Option Call} {call : Call} (hc : ∀ c, retry = some c → call = c)
    (hcall : call ≠ .close) (h : closing = true → retry = some .close ∨ e.closed = true)
    (he : e.closed = false) : closing = false := by
  rw [← Bool.not_eq_true]
  intro hcl
  rcases h hcl with hr | hr
  · exact hcall (hc _ hr)
  · exact absurd hr (by simp [he])

/-- **Every reachable encoder** keeps the invariant. The caller is closing when it repeats a close, or
when one has succeeded. -/
theorem inv_of_reached {retry : Option Call} (h : Reached frame e accepted flushed retry) :
    ∃ pieces closing, Inv frame flushed closing accepted pieces e ∧
      (closing = true → retry = some .close ∨ e.closed = true) := by
  induction h with
  | new => exact ⟨[], false, .new, nofun⟩
  | @pending e e' accepted flushed retry call output h hc hp ih =>
    obtain ⟨pieces, closing, hinv, hclosing⟩ := ih
    cases call with
    | write bytes =>
      rcases hinv.pollWrite (not_closing hc nofun hclosing) hp with ⟨-, rfl, hw⟩ | ⟨_, he⟩ | ⟨_, _, he, -⟩
      · exact ⟨pieces, false, by simpa using hw, nofun⟩
      · cases he
      · cases he
    | flush =>
      obtain ⟨⟨d, answer⟩, hd⟩ : ∃ r, e.pollFlush frame output = r := ⟨_, rfl⟩
      obtain ⟨⟨pieces', hw⟩, hsame⟩ := hinv.pollFlush hd
      simp only [AsyncFrameEncoder.poll, hd, Prod.mk.injEq] at hp
      obtain ⟨rfl, -⟩ := hp
      refine ⟨pieces', closing, by simpa using hw, fun hcl => .inr (hsame.trans ?_)⟩
      exact Bool.of_not_eq_false fun he => absurd (not_closing hc nofun hclosing he) (by simp [hcl])
    | close =>
      obtain ⟨⟨d, answer⟩, hd⟩ : ∃ r, e.pollClose frame output = r := ⟨_, rfl⟩
      obtain ⟨pieces', hw, -⟩ := hinv.pollClose hd
      simp only [AsyncFrameEncoder.poll, hd, Prod.mk.injEq] at hp
      obtain ⟨rfl, -⟩ := hp
      exact ⟨pieces', true, by simpa using hw, fun _ => .inl rfl⟩
  | @ready e e' accepted flushed retry n call output h hc hp ih =>
    obtain ⟨pieces, closing, hinv, hclosing⟩ := ih
    cases call with
    | write bytes =>
      rcases hinv.pollWrite (not_closing hc nofun hclosing) hp with ⟨he, -⟩ | ⟨_, he⟩ |
        ⟨m, pieces', he, rfl, hw⟩
      · cases he
      · cases he
      · obtain rfl : n = m := by simpa using he
        exact ⟨pieces', false, by simpa [Call.accepted] using hw, nofun⟩
    | flush =>
      obtain ⟨⟨d, answer⟩, hd⟩ : ∃ r, e.pollFlush frame output = r := ⟨_, rfl⟩
      obtain ⟨⟨pieces', hw⟩, hsame⟩ := hinv.pollFlush hd
      simp only [AsyncFrameEncoder.poll, hd, Prod.mk.injEq] at hp
      obtain ⟨rfl, -⟩ := hp
      refine ⟨pieces', closing, by simpa [Call.accepted] using hw, fun hcl => .inr (hsame.trans ?_)⟩
      exact Bool.of_not_eq_false fun he => absurd (not_closing hc nofun hclosing he) (by simp [hcl])
    | close =>
      obtain ⟨⟨d, answer⟩, hd⟩ : ∃ r, e.pollClose frame output = r := ⟨_, rfl⟩
      obtain ⟨pieces', hw, hok⟩ := hinv.pollClose hd
      simp only [AsyncFrameEncoder.poll, hd, Prod.mk.injEq] at hp
      obtain ⟨rfl, ha⟩ := hp
      exact ⟨pieces', true, by simpa [Call.accepted] using hw, fun _ => .inr (hok (accepting_ok ha)).2⟩

/-- **Nothing is lost**: when a close has succeeded, the output has the frames of pieces of the accepted
bytes, none of them empty but for the one of an encoder that accepted nothing, and without a flush all
full except for the last one. -/
theorem closed_frames (frame : List Byte → List Byte) (output : Output) {e e' : AsyncFrameEncoder}
    {accepted : List Byte} {flushed : Bool} {retry : Option Call}
    (h : Reached frame e accepted flushed retry)
    (hp : e.pollClose frame output = (e', .ready (.ok ()))) :
    ∃ pieces : List (List Byte), e'.received = (pieces.map frame).flatten ∧
      pieces.flatten = accepted ∧ (∀ piece ∈ pieces, piece.length ≤ BUFFER) ∧
      (if accepted = [] then pieces = [[]] else ∀ piece ∈ pieces, piece ≠ []) ∧
      (flushed = false → ∀ piece ∈ pieces.dropLast, piece.length = BUFFER) := by
  obtain ⟨pieces, closing, hinv, -⟩ := inv_of_reached h
  obtain ⟨pieces', hclose, hok⟩ := hinv.pollClose hp
  obtain ⟨hin, hwrote⟩ := hclose.ends rfl
  have hflat : pieces'.flatten = accepted := by
    rw [← hclose.buffered, hin, List.append_nil]
  have hsome : pieces' ≠ [] := fun hnil => by
    rw [hclose.wrote.mpr hnil] at hwrote
    exact Bool.false_ne_true hwrote
  refine ⟨pieces', ?_, hflat, hclose.cut.fits, ?_, hclose.cut.full⟩
  · rw [← hclose.emitted, AsyncFrameEncoder.emitted, (hok rfl).1, List.drop_nil, List.append_nil]
  · by_cases hacc : accepted = []
    · rw [if_pos hacc]
      rcases hclose.cut.filled with hfill | hfill
      · -- the first piece would be empty
        obtain ⟨piece, hmem⟩ := List.exists_mem_of_ne_nil _ hsome
        rw [hacc, List.flatten_eq_nil_iff] at hflat
        exact absurd (hflat piece hmem) (hfill piece hmem)
      · exact hfill.2.2
    · rw [if_neg hacc]
      exact hclose.cut.filled.resolve_right fun hfill => hacc hfill.2.1

/-- An output that takes one byte of each frame, and then is not ready. -/
def slow : Output := ⟨fun i => if i = 0 then .ready (.ok 1) else .pending, fun _ => .pending, .pending⟩

/-- An output that takes what it is offered, two bytes at a time. -/
def quick : Output := ⟨fun _ => .ready (.ok 2), fun _ => .pending, .ready (.ok ())⟩

/-- Three bytes in a frame of five, put out in two polls of the close. -/
theorem closed_frames_short : ∃ pieces : List (List Byte),
    [9, 1, 2, 3, 9] = (pieces.map fun piece => 9 :: (piece ++ [9])).flatten ∧
      pieces.flatten = [1, 2, 3] ∧ (∀ piece ∈ pieces, piece.length ≤ BUFFER) ∧
      (if ([1, 2, 3] : List Byte) = [] then pieces = [[]] else ∀ piece ∈ pieces, piece ≠ []) ∧
      (false = false → ∀ piece ∈ pieces.dropLast, piece.length = BUFFER) := by
  have hwrite : Reached (fun piece => 9 :: (piece ++ [9])) { input := [1, 2, 3] } [1, 2, 3] false none :=
    .ready (.write [1, 2, 3]) slow .new nofun rfl
  have hclose : Reached (fun piece => 9 :: (piece ++ [9]))
      ⟨[], [9, 1, 2, 3, 9], 1, true, false, [9]⟩ [1, 2, 3] false (some .close) :=
    .pending .close slow hwrite nofun rfl
  exact closed_frames _ quick hclose rfl

end LibarchiveOxide.Async.FrameEncoder
