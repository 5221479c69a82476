import LibarchiveOxide.Core.Metadata
import LibarchiveOxide.Lib.Slice

/-! # Driving a decoder over a byte string

A `Cutting` of the input says, for every call, how many bytes have been supplied so far, how large
the scratch buffer is and whether the caller declares the end of input. A call is given the supplied
bytes the decoder has not consumed yet. A run stops at the first failure and after `Done`. -/

namespace LibarchiveOxide.Core.Drive

open Core.Failure Core.Metadata Core.Protocol Lib.Slice

/-- The step of an archive decoder with states `σ`. -/
abbrev DecodeFn (σ : Type) :=
  σ → List Byte → ℕ → EndOfInput → Except ArchiveError (DecodeStep × σ)

/-- A way of handing `B` to a decoder, call by call. The end is declared only once all of `B` has
been supplied. -/
structure Cutting (B : List Byte) where
  supplied : ℕ → ℕ
  outputLen : ℕ → ℕ
  eoi : ℕ → EndOfInput
  supplied_le_succ : ∀ i, supplied i ≤ supplied (i + 1)
  supplied_le : ∀ i, supplied i ≤ B.length
  supplied_of_end : ∀ i, eoi i = .end → supplied i = B.length

namespace Cutting

variable {B : List Byte}

/-- Every scratch buffer is non-empty. -/
def Scratch (c : Cutting B) : Prop := ∀ i, 0 < c.outputLen i

/-- From some call on the end of input is declared. -/
def Ends (c : Cutting B) : Prop := ∃ n, ∀ i, n ≤ i → c.eoi i = .end

/-- All of `B` in the first call. -/
def whole (B : List Byte) (outputLen : ℕ → ℕ) : Cutting B where
  supplied _ := B.length
  outputLen := outputLen
  eoi _ := .end
  supplied_le_succ _ := le_rfl
  supplied_le _ := le_rfl
  supplied_of_end _ _ := rfl

end Cutting

/-- A run so far: the decoder, the bytes it consumed, its events and its failure. -/
structure Run (σ : Type) where
  decoder : σ
  consumed : ℕ
  events : List DecodeEvent
  failure : Option ArchiveError

namespace Run

variable {σ : Type}

/-- The last event was `Done`. -/
def done (r : Run σ) : Bool := r.events.getLast? == some .done

/-- Nothing more is called after a failure or `Done`. -/
def halted (r : Run σ) : Bool := r.failure.isSome || r.done

/-- One call on the input supplied so far. -/
def advance (step : DecodeFn σ) (B : List Byte) (supplied outputLen : ℕ) (eoi : EndOfInput)
    (r : Run σ) : Run σ :=
  if r.halted then r
  else match step r.decoder (window B r.consumed supplied) outputLen eoi with
    | .error e => { r with failure := some e }
    | .ok (s, d) => ⟨d, r.consumed + s.consumed, r.events ++ [s.event], none⟩

end Run

/-- The run of a decoder after `n` calls. -/
def run {σ : Type} (step : DecodeFn σ) (d : σ) {B : List Byte} (c : Cutting B) : ℕ → Run σ
  | 0 => ⟨d, 0, [], none⟩
  | n + 1 => (run step d c n).advance step B (c.supplied n) (c.outputLen n) (c.eoi n)

/-- What the events say apart from how the data was cut: a data window is the sequence of its
bytes, and requests for input or output are left out. Two runs have the same atoms if and only if
they have the same events with adjacent data coalesced. -/
inductive Atom where
  | archiveMetadata (m : ArchiveMetadata)
  | entry (m : EntryMetadata)
  | byte (b : Byte)
  | endEntry
deriving DecidableEq

/-- The atoms of an event. -/
def atoms : DecodeEvent → List Atom
  | .needInput | .needOutput | .done => []
  | .archiveMetadata m => [.archiveMetadata m]
  | .entry m => [.entry m]
  | .data bytes => bytes.map .byte
  | .endEntry => [.endEntry]

/-- The atoms of a run. -/
def Run.atoms {σ : Type} (r : Run σ) : List Atom := r.events.flatMap Drive.atoms

section
variable {σ : Type} {step : DecodeFn σ} {d : σ} {B : List Byte} {c : Cutting B}

variable {Inv : σ → Prop} {rank : σ → ℕ}

/-- **Induction along a run.** What holds of the start and is kept by every successful step that
does not follow `Done` holds of every run. -/
theorem run_induction {P : σ → List DecodeEvent → Prop} (h0 : P d [])
    (hstep : ∀ {d evs input outputLen eoi s d'}, P d evs → evs.getLast? ≠ some .done →
      step d input outputLen eoi = .ok (s, d') → P d' (evs ++ [s.event])) :
    ∀ n, P (run step d c n).decoder (run step d c n).events
  | 0 => h0
  | n + 1 => by
    have ih := run_induction h0 hstep n
    rw [run, Run.advance]
    split_ifs with hh
    · exact ih
    · split
      · exact ih
      · next hs =>
        refine hstep ih ?_ hs
        intro hl
        exact hh (by simp [Run.halted, Run.done, hl])

variable {n : ℕ}

theorem run_succ_of_halted (h : (run step d c n).halted = true) :
    run step d c (n + 1) = run step d c n := by
  rw [run, Run.advance, if_pos h]

theorem run_of_halted {m : ℕ} (h : (run step d c n).halted = true) (hm : n ≤ m) :
    run step d c m = run step d c n := by
  induction m, hm using Nat.le_induction with
  | base => rfl
  | succ m _ ih => rw [run_succ_of_halted (by rw [ih]; exact h), ih]

theorem run_succ_of_ok {k : ℕ} {d0 d' : σ} {evs : List DecodeEvent} {s : DecodeStep}
    (h : run step d c n = ⟨d0, k, evs, none⟩) (hd : evs.getLast? ≠ some .done)
    (hs : step d0 (window B k (c.supplied n)) (c.outputLen n) (c.eoi n) = .ok (s, d')) :
    run step d c (n + 1) = ⟨d', k + s.consumed, evs ++ [s.event], none⟩ := by
  rw [run, h, Run.advance, if_neg (by simpa [Run.halted, Run.done] using hd), hs]

theorem run_succ_of_error {k : ℕ} {d0 : σ} {evs : List DecodeEvent} {e : ArchiveError}
    (h : run step d c n = ⟨d0, k, evs, none⟩) (hd : evs.getLast? ≠ some .done)
    (hs : step d0 (window B k (c.supplied n)) (c.outputLen n) (c.eoi n) = .error e) :
    run step d c (n + 1) = ⟨d0, k, evs, some e⟩ := by
  rw [run, h, Run.advance, if_neg (by simpa [Run.halted, Run.done] using hd), hs]

theorem events_prefix {m : ℕ} (h : n ≤ m) :
    (run step d c n).events <+: (run step d c m).events := by
  induction m, h using Nat.le_induction with
  | base => exact List.prefix_rfl
  | succ m _ ih =>
    refine ih.trans ?_
    rw [run, Run.advance]
    split_ifs
    · exact List.prefix_rfl
    · split
      · exact List.prefix_rfl
      · exact List.prefix_append _ _

/-- A call that added an event was a successful step. -/
theorem advance_append {r : Run σ} {supplied outputLen : ℕ} {eoi : EndOfInput} {ev : DecodeEvent}
    (h : (r.advance step B supplied outputLen eoi).events = r.events ++ [ev]) :
    ∃ s d', step r.decoder (window B r.consumed supplied) outputLen eoi = .ok (s, d') ∧
      s.event = ev ∧ r.advance step B supplied outputLen eoi =
        ⟨d', r.consumed + s.consumed, r.events ++ [ev], none⟩ := by
  have hne : r.events ≠ r.events ++ [ev] := by simp
  rw [Run.advance] at h ⊢
  split_ifs at h ⊢ with hh
  · exact absurd h hne
  · cases hs : step r.decoder (window B r.consumed supplied) outputLen eoi with
    | error e => rw [hs] at h; exact absurd h hne
    | ok res =>
      obtain ⟨s, d'⟩ := res
      rw [hs] at h
      obtain rfl : s.event = ev := by simpa using List.append_cancel_left h
      exact ⟨s, d', rfl, rfl, rfl⟩

/-- A decoder that cannot idle: a step that is given input, or told that there is none, consumes
some of it, lowers the rank or is the last one. -/
structure Progress (step : DecodeFn σ) (Inv : σ → Prop) (rank : σ → ℕ) : Prop where
  inv : ∀ {d input outputLen eoi s d'}, Inv d → step d input outputLen eoi = .ok (s, d') → Inv d'
  consumed_le : ∀ {d input outputLen eoi s d'}, step d input outputLen eoi = .ok (s, d') →
    s.consumed ≤ input.length
  decreases : ∀ {d input outputLen eoi s d'}, Inv d → 0 < outputLen →
    (input ≠ [] ∨ eoi = .end) → step d input outputLen eoi = .ok (s, d') →
    s.event = .done ∨ 0 < s.consumed ∨ rank d' < rank d

/-- A decoder that comes to an end: a step that is told that there is no more input consumes some of
it, lowers the rank or is the last one. -/
structure Ending (step : DecodeFn σ) (Inv : σ → Prop) (rank : σ → ℕ) : Prop where
  inv : ∀ {d input outputLen eoi s d'}, Inv d → step d input outputLen eoi = .ok (s, d') → Inv d'
  consumed_le : ∀ {d input outputLen eoi s d'}, Inv d → step d input outputLen eoi = .ok (s, d') →
    s.consumed ≤ input.length
  decreases : ∀ {d input outputLen s d'}, Inv d → 0 < outputLen →
    step d input outputLen .end = .ok (s, d') →
    s.event = .done ∨ 0 < s.consumed ∨ rank d' < rank d

/-- A decoder that cannot idle comes to an end. -/
theorem Progress.ending (hp : Progress step Inv rank) :
    Ending step Inv rank where
  inv := hp.inv
  consumed_le _ := hp.consumed_le
  decreases h hout := hp.decreases h hout (.inr rfl)

theorem run_inv (hp : Ending step Inv rank) (h0 : Inv d) (n : ℕ) : Inv (run step d c n).decoder :=
  run_induction (P := fun d _ => Inv d) h0 (fun h _ hs => hp.inv h hs) n

/-- Only supplied bytes are consumed. -/
theorem run_consumed_le (hp : Ending step Inv rank) (h0 : Inv d) (n : ℕ) :
    (run step d c n).consumed ≤ c.supplied n ∧ (run step d c (n + 1)).consumed ≤ c.supplied n := by
  have hsucc : ∀ n, (run step d c n).consumed ≤ c.supplied n →
      (run step d c (n + 1)).consumed ≤ c.supplied n := by
    intro n ih
    rw [run, Run.advance]
    split_ifs
    · exact ih
    · split
      · exact ih
      · next s d' hs =>
        have := hp.consumed_le (run_inv hp h0 n) hs
        rw [length_window] at this
        simp only
        omega
  have h : (run step d c n).consumed ≤ c.supplied n := by
    induction n with
    | zero => exact Nat.zero_le _
    | succ n ih => exact (hsucc n ih).trans (c.supplied_le_succ n)
  exact ⟨h, hsucc n h⟩

/-- **A decoder that comes to an end halts** on every cutting that ends. -/
theorem run_halts (hp : Ending step Inv rank) (h0 : Inv d) (hout : c.Scratch) (hend : c.Ends) :
    ∃ n, (run step d c n).halted = true := by
  obtain ⟨N, hN⟩ := hend
  -- past `N` every call consumes a byte, or lowers the rank, or halts
  have key : ∀ (left r n : ℕ), N ≤ n → B.length - (run step d c n).consumed ≤ left →
      rank (run step d c n).decoder ≤ r → ∃ m, (run step d c m).halted = true := by
    intro left
    induction left using Nat.strong_induction_on with
    | _ left ihl =>
      intro r
      induction r using Nat.strong_induction_on with
      | _ r ihr =>
        intro n hn hl hr
        by_cases hh : (run step d c n).halted = true
        · exact ⟨n, hh⟩
        cases hs : step (run step d c n).decoder
            (window B (run step d c n).consumed (c.supplied n)) (c.outputLen n) (c.eoi n) with
        | error e =>
          refine ⟨n + 1, ?_⟩
          rw [run, Run.advance, if_neg hh, hs]
          rfl
        | ok res =>
          obtain ⟨s, d'⟩ := res
          have hrun : run step d c (n + 1) = ⟨d', (run step d c n).consumed + s.consumed,
              (run step d c n).events ++ [s.event], none⟩ := by
            rw [run, Run.advance, if_neg hh, hs]
          have hcl := (run_consumed_le (d := d) (c := c) hp h0 n).2
          have hsl := c.supplied_le n
          rw [hrun] at hcl
          simp only at hcl
          rw [hN n hn] at hs
          rcases hp.decreases (run_inv hp h0 n) (hout n) hs with he | hk | hlt
          · refine ⟨n + 1, ?_⟩
            rw [hrun]
            simp [Run.halted, Run.done, he]
          · refine ihl (left - 1) (by omega) (rank d') (n + 1) (by omega) ?_ ?_
            · rw [hrun]; simp only; omega
            · rw [hrun]
          · refine ihr (rank d') (by omega) (n + 1) (by omega) ?_ ?_
            · rw [hrun]; simp only; omega
            · rw [hrun]
  exact key _ _ N le_rfl le_rfl le_rfl

end

end LibarchiveOxide.Core.Drive
