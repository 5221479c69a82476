import LibarchiveOxide.Core.Metadata
import LibarchiveOxide.Lib.Driving
import LibarchiveOxide.Lib.Result

/-! # Calls of a byte codec

A `Codec` is driven by calls of `process`; `call` is one of them as the rules for driven codecs see
it. -/

namespace LibarchiveOxide.Codecs.Calls

open Core.Failure Core.Protocol Lib

variable {σ : Type}

/-- `Codec::process`: the step and the codec after it, on the bytes offered, the room of the output
and the end of the input. -/
abbrev Process (σ : Type) :=
  σ → List Byte → ℕ → EndOfInput → Except ArchiveError (CodecStep × σ)

/-- The word of the caller about the end. -/
def endOfInput (last : Bool) : EndOfInput := if last then .end else .more

/-- What a step reports. -/
def progress (s : CodecStep) : Driving.Progress Byte := ⟨s.consumed, s.produced, s.status == .done⟩

/-- One call. -/
def call (process : Process σ) (c : σ) (piece : List Byte) (room : ℕ) (last : Bool) :
    Except ArchiveError (Driving.Progress Byte × σ) :=
  (process c piece room (endOfInput last)).map fun s => (progress s.1, s.2)

variable {process : Process σ}

theorem call_eq_ok {c c' : σ} {piece : List Byte} {room : ℕ} {last : Bool}
    {p : Driving.Progress Byte} (h : call process c piece room last = .ok (p, c')) :
    ∃ s, process c piece room (endOfInput last) = .ok (s, c') ∧ p = progress s := by
  obtain ⟨⟨s, c''⟩, hs, heq⟩ := Result.map_eq_ok.mp h
  cases heq
  exact ⟨s, hs, rfl⟩

theorem call_eq_error {c : σ} {piece : List Byte} {room : ℕ} {last : Bool} {e : ArchiveError}
    (h : call process c piece room last = .error e) :
    process c piece room (endOfInput last) = .error e := by
  unfold call at h
  cases hp : process c piece room (endOfInput last) with
  | error e' => rw [hp] at h; cases h; rfl
  | ok s => rw [hp] at h; cases h

theorem last_of_end {last : Bool} (h : endOfInput last = .end) : last = true := by
  cases last with
  | true => rfl
  | false => cases h

/-- What a step of a codec does that keeps to a future. -/
structure Steps (Inv : σ → List Byte → Prop)
    (future : σ → List Byte → List Byte × Option ArchiveError) (c : σ) (piece behind : List Byte)
    (room : ℕ) (last : EndOfInput) (s : CodecStep) (c' : σ) : Prop where
  bounds : s.consumed ≤ piece.length ∧ s.produced.length ≤ room
  inv : Inv c' (piece.drop s.consumed ++ behind)
  future_eq : future c (piece ++ behind) =
    (s.produced ++ (future c' (piece.drop s.consumed ++ behind)).1,
      (future c' (piece.drop s.consumed ++ behind)).2)
  finished : s.status = .done → piece.drop s.consumed ++ behind = [] ∧ future c' [] = ([], none)
  moves : 0 < room → s.status ≠ .done → s.consumed = 0 → s.produced = [] → piece = [] ∧ last = .more

/-- **A codec whose steps keep to a future** keeps to it. -/
theorem keeps_of_steps {Inv : σ → List Byte → Prop}
    {future : σ → List Byte → List Byte × Option ArchiveError}
    (h : ∀ {c piece behind last} room, Inv c (piece ++ behind) → (last = .end → behind = []) →
      (∃ s c', process c piece room last = .ok (s, c') ∧
        Steps Inv future c piece behind room last s c') ∨
      ∃ e, process c piece room last = .error e ∧ (future c (piece ++ behind)).2 = some e) :
    Driving.Keeps (call process) Inv future := by
  have hsteps : ∀ {c : σ} {piece behind : List Byte} {room : ℕ} {last : Bool}
      {p : Driving.Progress Byte} {c' : σ}, Inv c (piece ++ behind) →
      (last = true → behind = []) → call process c piece room last = .ok (p, c') →
      ∃ s, p = progress s ∧ Steps Inv future c piece behind room (endOfInput last) s c' := by
    intro c piece behind room last p c' hinv hlast hcall
    obtain ⟨s, hs, rfl⟩ := call_eq_ok hcall
    rcases h room hinv (fun h => hlast (last_of_end h)) with
      ⟨s', c'', hs', hsteps⟩ | ⟨e, he, -⟩
    · rw [hs] at hs'
      cases hs'
      exact ⟨s, rfl, hsteps⟩
    · rw [hs] at he
      cases he
  refine ⟨?_, ?_, ?_, ?_, ?_⟩
  · intro c piece behind room last p c' hinv hlast hcall
    obtain ⟨s, rfl, hs⟩ := hsteps hinv hlast hcall
    exact hs.bounds
  · intro c piece behind room last p c' hinv hlast hcall _
    obtain ⟨s, rfl, hs⟩ := hsteps hinv hlast hcall
    exact ⟨hs.inv, hs.future_eq⟩
  · intro c piece behind room last p c' hinv hlast hcall hdone
    obtain ⟨s, rfl, hs⟩ := hsteps hinv hlast hcall
    obtain ⟨hnil, hc'⟩ := hs.finished (beq_iff_eq.mp hdone)
    refine ⟨hnil, ?_⟩
    rw [hs.future_eq, hnil, hc', List.append_nil]
    rfl
  · intro c piece behind room last e hinv hlast hcall
    rcases h room hinv (fun h => hlast (last_of_end h)) with ⟨s, c', hs, -⟩ | ⟨e', he', hfut⟩
    · rw [call_eq_error hcall] at hs
      cases hs
    · rw [call_eq_error hcall] at he'
      cases he'
      exact hfut
  · intro c piece behind room last p c' hinv hlast hpos hcall hdone hc hp
    obtain ⟨s, rfl, hs⟩ := hsteps hinv hlast hcall
    have hno : s.status ≠ .done := fun heq => by
      rw [progress, heq] at hdone
      cases hdone
    obtain ⟨hpiece, hmore⟩ := hs.moves hpos hno hc hp
    refine ⟨hpiece, ?_⟩
    cases last with
    | false => rfl
    | true => cases hmore

end LibarchiveOxide.Codecs.Calls
