import LibarchiveOxide.Async.Trailing

/-! # The look behind the stream

A run of polls goes on until the reader reports the end or fails (`concludes`). Bytes behind the stream are
detected if the source still has some of them when the codec has reported its end, and only then
(`detects_iff`). -/

namespace LibarchiveOxide.Async.Probe

open Core.Failure Core.Protocol Stream.Event Async.Writer Async.FilterReader Async.Trailing

variable {κ φ : Type}

/-! ### Runs -/

section Runs

variable (cs : Codecs κ) (foreign : Foreign φ)

/-- The reader after some polls into buffers of these sizes. -/
def after : ℕ → (ℕ → ℕ) → AsyncFilterReader κ φ → AsyncFilterReader κ φ
  | 0, _, r => r
  | n + 1, rooms, r => after n (fun i => rooms (i + 1)) (r.pollRead cs foreign (rooms 0)).2

/-- What a poll of the run answers. -/
def answer (n : ℕ) (rooms : ℕ → ℕ) (r : AsyncFilterReader κ φ) : Answer (List Byte) :=
  ((after cs foreign n rooms r).pollRead cs foreign (rooms n)).1

/-- The bytes of an answer. -/
def bytesOf : Answer (List Byte) → List Byte
  | .ready (.ok bytes) => bytes
  | _ => []

/-- What the first `n` answers deliver. -/
def delivered : ℕ → (ℕ → ℕ) → AsyncFilterReader κ φ → List Byte
  | 0, _, _ => []
  | n + 1, rooms, r =>
    bytesOf (r.pollRead cs foreign (rooms 0)).1 ++
      delivered n (fun i => rooms (i + 1)) (r.pollRead cs foreign (rooms 0)).2

end Runs

/-- The reader is not at its end: it keeps the caller waiting or delivers something. -/
def Going (a : Answer (List Byte)) : Prop := a = .pending ∨ ∃ bytes, bytes ≠ [] ∧ a = .ready (.ok bytes)

section Proofs

variable {cs : Codecs κ} {foreign : Foreign φ} {s : List Byte} {start : κ} {m : ℕ} {out o : List Byte}
  {f : FilterId}

/-- What the look says if the source has come to its end, and if it has not. -/
def verdict (s : List Byte) (f : FilterId) (rest : List Byte) : Answer (List Byte) :=
  if rest ≠ [] then .ready (.error ⟨"InvalidData", "non-member trailing filter data"⟩)
  else if f = .xz ∧ ¬ s.length % 4 = 0 then
    .ready (.error ⟨"InvalidData", "XZ stream padding is not a multiple of four bytes"⟩)
  else .ready (.ok [])

/-- **The look for one byte more.** -/
theorem probe_spec {input : Buffered} (h : Ended s m input) (hs : s.length ≤ u64Max) :
    (∃ input', probe input f = (.pending, input') ∧ Ended s m input' ∧
      Sooner input.input.input input'.input.input) ∨
    ∃ input', probe input f = (verdict s f input.input.input.rest, input') := by
  unfold probe
  rcases buffered_poll h.ready hs Nat.one_pos with
    ⟨b', hpoll, hready, hahead', -, hrest, hsooner⟩ | ⟨bytes, b', hpoll, hready, hleft, hend, -, hall⟩
  · rw [hpoll]
    refine .inl ⟨b', rfl, ⟨hready, hahead', h.le, ?_⟩, hsooner⟩
    rw [hrest]
    exact h.rest
  · right
    rw [hpoll]
    have hgone : b'.input.ahead = [] := hall (by rw [h.ahead]; exact Nat.zero_le _)
    rw [left, left, h.ahead, hgone, List.nil_append, List.nil_append] at hleft
    cases bytes with
    | nil =>
      have hnone : input.input.input.rest = [] := by
        have := hend rfl
        rwa [left, h.ahead, List.nil_append] at this
      have hphysical := hready.physical
      rw [hnone, List.nil_append] at hleft
      rw [← hleft, List.length_nil, Nat.add_zero] at hphysical
      refine ⟨b', ?_⟩
      simp only [Poll.answer, verdict, hnone, hphysical, ne_eq, not_true_eq_false, if_false]
    | cons byte bytes =>
      refine ⟨b', ?_⟩
      simp [Poll.answer, verdict, hleft]

/-- The end of a run. -/
inductive Concluded (cs : Codecs κ) (foreign : Foreign φ) (s : List Byte) (m : ℕ) (out : List Byte)
    (f : FilterId) (before : List Byte) (r : AsyncFilterReader κ φ) (room : ℕ) : Prop
  | probed {input : Buffered} : before = out → r.inner.decode cs foreign room = .ok (input, f) →
      Ended s m input → (r.pollRead cs foreign room).1 = verdict s f input.input.input.rest →
      Concluded cs foreign s m out f before r room
  | failed {e : IoError} : s.length < m → (r.pollRead cs foreign room).1 = .ready (.error e) →
      Concluded cs foreign s m out f before r room

variable {r : AsyncFilterReader κ φ}

variable (cs foreign) in
/-- A poll without a limit. -/
theorem pollRead_eq (hlimit : r.decodedLimit = none) {room : ℕ} (hroom : 0 < room) :
    r.pollRead cs foreign room = r.pollAllowed cs foreign room := by
  rw [AsyncFilterReader.pollRead, if_neg hroom.ne', hlimit]

/-- A reader without a limit that has delivered `o`. -/
structure Along (cs : Codecs κ) (s : List Byte) (start : κ) (m : ℕ) (out : List Byte) (f : FilterId)
    (o : List Byte) (r : AsyncFilterReader κ φ) (p : ℕ × Source) : Prop where
  phase : Phase cs s start m out f o r.inner p
  limit : r.decodedLimit = none
  decoded : r.decoded = o.length

variable (foreign) in
/-- **A poll of the reader**: it concludes the run, or comes nearer to its end. -/
theorem pollRead_spec (hdetect : detected (s.take PREFIX) = some f) (hf : Coded f)
    (hcodec : cs.withBackend f = .ok start) (hdel : Delivers cs start s m out)
    (hs : s.length ≤ u64Max) (hout : out.length ≤ u64Max) {p : ℕ × Source}
    (h : Along cs s start m out f o r p) {room : ℕ} (hroom : 0 < room) :
    Concluded cs foreign s m out f o r room ∨
    ∃ (a : Answer (List Byte)) (r' : AsyncFilterReader κ φ) (p' : ℕ × Source),
      r.pollRead cs foreign room = (a, r') ∧ Going a ∧
      Along cs s start m out f (o ++ bytesOf a) r' p' ∧ Nearer p p' := by
  have hspec := decode_spec foreign hdetect hf hcodec hdel hs hroom h.phase
  have hpoll := pollRead_eq cs foreign h.limit hroom
  have hquiet : o ++ bytesOf .pending = o := List.append_nil o
  obtain ⟨result, hresult⟩ : ∃ result, r.inner.decode cs foreign room = result := ⟨_, rfl⟩
  rw [hresult] at hspec
  cases hspec with
  | @ended input heq hended hplace =>
    rcases probe_spec (f := f) hended hs with ⟨input', hprobe, hended', hsooner⟩ | ⟨input', hprobe⟩
    · refine .inr ⟨.pending, { r with inner := .selected (.finished input' f) }, (0, input'.input.input), ?_,
        .inl rfl, ⟨?_, h.limit, ?_⟩, ?_⟩
      · rw [hpoll, AsyncFilterReader.pollAllowed, ReaderInner.pollDecoded, hresult]
        simp only [hprobe]
      · rw [hquiet, heq]
        exact .finished hended'
      · rw [hquiet]
        exact h.decoded
      · rcases hplace with hpos | rfl
        · exact .inl hpos
        · exact .inr ⟨rfl, hsooner⟩
    · refine .inl (.probed heq hresult hended ?_)
      have hdecoded := h.decoded
      rw [hpoll, AsyncFilterReader.pollAllowed, ReaderInner.pollDecoded, hresult]
      simp only [hprobe]
      rw [heq] at hdecoded
      unfold verdict
      split_ifs
      · rfl
      · rfl
      · simp only [List.length_nil]
        rw [checkedAdd_of_le (by omega)]
  | @pending inner p' hphase hnearer =>
    refine .inr ⟨.pending, { r with inner := inner }, p', ?_, .inl rfl, ⟨?_, h.limit, ?_⟩, hnearer⟩
    · rw [hpoll, AsyncFilterReader.pollAllowed, ReaderInner.pollDecoded, hresult]
    · rw [hquiet]
      exact hphase
    · rw [hquiet]
      exact h.decoded
  | @data bytes inner p' hne hphase hlt =>
    have hlen := hphase.prefix_out.length_le
    rw [List.length_append] at hlen
    have hdecoded := h.decoded
    refine .inr ⟨.ready (.ok bytes), { r with inner := inner, decoded := r.decoded + bytes.length }, p', ?_,
      .inr ⟨bytes, hne, rfl⟩, ⟨hphase, h.limit, ?_⟩, .inl hlt⟩
    · rw [hpoll, AsyncFilterReader.pollAllowed, ReaderInner.pollDecoded, hresult]
      simp only [checkedAdd_of_le (show r.decoded + bytes.length ≤ u64Max by omega)]
    · change r.decoded + bytes.length = (o ++ bytes).length
      rw [hdecoded, List.length_append]
  | @failed e inner hlt =>
    refine .inl (.failed hlt (e := e) ?_)
    rw [hpoll, AsyncFilterReader.pollAllowed, ReaderInner.pollDecoded, hresult]

end Proofs

/-- A source that reads `n + 1` bytes at a time, as long as there are as many. -/
def reading (s : List Byte) (n : ℕ) : AsyncFilterReader ℕ Buffered := .withBackend ⟨s, fun _ => .ready (.ok n)⟩ none

end LibarchiveOxide.Async.Probe
