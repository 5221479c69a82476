import Mathlib.Tactic

/-! # Codecs driven piece by piece

A codec is called again and again, each time with a piece of the input that is left, with the room of
an output buffer, and with the word whether the piece is the last one. Its `future` from a state on
says what is still to come out of it and how it ends. If every call keeps to the future, the outcome
of a run does not depend on the calls (`Keeps.done`, `Keeps.failed`); if a call gets nowhere only when
it was given nothing, every fair run has an outcome (`Keeps.outcome`). -/

namespace LibarchiveOxide.Lib.Driving

variable {σ α β ε : Type*}

/-- What a call reports. -/
structure Progress (β : Type*) where
  consumed : ℕ
  produced : List β
  done : Bool

/-- What the caller decides: how much of the rest it offers, the room for the output, and whether it
says so if nothing is left behind what it offers. -/
structure Call where
  offer : ℕ
  room : ℕ
  last : Bool

/-- Where a run is: going on, done with what was not consumed, or failed. -/
inductive Run (σ α β ε : Type*) where
  | running (s : σ) (rest : List α) (out : List β)
  | done (rest : List α) (out : List β)
  | failed (e : ε) (out : List β)

/-- The output buffer is never empty, and again and again there is an offer and the last word. -/
structure Fair (calls : ℕ → Call) : Prop where
  room : ∀ n, 0 < (calls n).room
  offers : ∀ n, ∃ m ≥ n, 0 < (calls m).offer
  ends : ∀ n, ∃ m ≥ n, (calls m).last = true

/-- The same call again and again. -/
theorem fair_constant {c : Call} (hroom : 0 < c.room) (hoffer : 0 < c.offer) (hlast : c.last = true) :
    Fair fun _ => c :=
  ⟨fun _ => hroom, fun n => ⟨n, le_rfl, hoffer⟩, fun n => ⟨n, le_rfl, hlast⟩⟩

section Runs

variable (step : σ → List α → ℕ → Bool → Except ε (Progress β × σ))

/-- One call. -/
def next (c : Call) : Run σ α β ε → Run σ α β ε
  | .running s rest out =>
    match step s (rest.take c.offer) c.room (c.last && decide (rest.length ≤ c.offer)) with
    | .error e => .failed e out
    | .ok (p, s') =>
      if p.done then .done (rest.drop p.consumed) (out ++ p.produced)
      else .running s' (rest.drop p.consumed) (out ++ p.produced)
  | r => r

/-- The run after `n` calls. -/
def drive (calls : ℕ → Call) (s : σ) (input : List α) : ℕ → Run σ α β ε
  | 0 => .running s input []
  | n + 1 => next step (calls n) (drive calls s input n)

/-- Runs agree if all of their calls do. -/
theorem drive_congr {step' : σ → List α → ℕ → Bool → Except ε (Progress β × σ)} {calls : ℕ → Call}
    (h : ∀ n s piece last, step s piece (calls n).room last = step' s piece (calls n).room last)
    (s : σ) (input : List α) : ∀ n, drive step calls s input n = drive step' calls s input n
  | 0 => rfl
  | n + 1 => by
    rw [drive, drive, drive_congr h s input n]
    cases drive step' calls s input n with
    | running s₁ rest out => simp only [next, h]
    | done rest out => rfl
    | failed e out => rfl

/-- The calls keep to a future: what comes out, and the failure if there is one. `behind` is what
the caller holds back. -/
structure Keeps (Inv : σ → List α → Prop) (future : σ → List α → List β × Option ε) : Prop where
  bounds : ∀ {s piece behind room last p s'}, Inv s (piece ++ behind) →
    (last = true → behind = []) → step s piece room last = .ok (p, s') →
    p.consumed ≤ piece.length ∧ p.produced.length ≤ room
  running : ∀ {s piece behind room last p s'}, Inv s (piece ++ behind) →
    (last = true → behind = []) → step s piece room last = .ok (p, s') → p.done = false →
    Inv s' (piece.drop p.consumed ++ behind) ∧
      future s (piece ++ behind) = (p.produced ++ (future s' (piece.drop p.consumed ++ behind)).1,
        (future s' (piece.drop p.consumed ++ behind)).2)
  finished : ∀ {s piece behind room last p s'}, Inv s (piece ++ behind) →
    (last = true → behind = []) → step s piece room last = .ok (p, s') → p.done = true →
    piece.drop p.consumed ++ behind = [] ∧ future s (piece ++ behind) = (p.produced, none)
  error : ∀ {s piece behind room last e}, Inv s (piece ++ behind) →
    (last = true → behind = []) → step s piece room last = .error e →
    (future s (piece ++ behind)).2 = some e
  moves : ∀ {s piece behind room last p s'}, Inv s (piece ++ behind) →
    (last = true → behind = []) → 0 < room → step s piece room last = .ok (p, s') →
    p.done = false → p.consumed = 0 → p.produced = [] → piece = [] ∧ last = false

end Runs

variable {step : σ → List α → ℕ → Bool → Except ε (Progress β × σ)} {Inv : σ → List α → Prop}
  {future : σ → List α → List β × Option ε} {calls : ℕ → Call} {s s' : σ} {input rest : List α}
  {out : List β} {e : ε} {n : ℕ}

/-- The word that the piece is the last is true. -/
theorem behind_nil (rest : List α) (c : Call) (h : (c.last && decide (rest.length ≤ c.offer)) = true) :
    rest.drop c.offer = [] := by
  rw [Bool.and_eq_true, decide_eq_true_eq] at h
  exact List.drop_eq_nil_of_le h.2

/-- What is left of the rest is what is left of the piece, and what is behind it. -/
theorem drop_piece {k m : ℕ} (h : m ≤ (rest.take k).length) :
    rest.drop m = (rest.take k).drop m ++ rest.drop k := by
  rw [List.length_take] at h
  rw [← List.drop_append_of_le_length (by rw [List.length_take]; exact h), List.take_append_drop]

/-- The run is an account of the future of its start. -/
def Accounted (Inv : σ → List α → Prop) (future : σ → List α → List β × Option ε)
    (whole : List β × Option ε) : Run σ α β ε → Prop
  | .running s rest out => Inv s rest ∧ whole = (out ++ (future s rest).1, (future s rest).2)
  | .done rest out => rest = [] ∧ whole = (out, none)
  | .failed e out => whole.2 = some e ∧ out <+: whole.1

/-- **One call keeps the account.** -/
theorem Keeps.next (h : Keeps step Inv future) {whole : List β × Option ε} {r : Run σ α β ε}
    (c : Call) (hr : Accounted Inv future whole r) :
    Accounted Inv future whole (next step c r) := by
  cases r with
  | done rest out => exact hr
  | failed e out => exact hr
  | running s rest out =>
    obtain ⟨hinv, hwhole⟩ := hr
    rw [Driving.next]
    rw [← List.take_append_drop c.offer rest] at hinv hwhole
    have hlast := behind_nil rest c
    cases hs : step s (rest.take c.offer) c.room (c.last && decide (rest.length ≤ c.offer)) with
    | error e =>
      refine ⟨?_, ?_⟩
      · rw [hwhole]
        exact h.error hinv hlast hs
      · rw [hwhole]
        exact List.prefix_append _ _
    | ok x =>
      obtain ⟨p, s'⟩ := x
      have hle := (h.bounds hinv hlast hs).1
      dsimp only
      rw [drop_piece hle]
      cases hdone : p.done with
      | true =>
        obtain ⟨hnil, hfuture⟩ := h.finished hinv hlast hs hdone
        exact ⟨hnil, by rw [hwhole, hfuture]⟩
      | false =>
        obtain ⟨hinv', hfuture⟩ := h.running hinv hlast hs hdone
        refine ⟨hinv', ?_⟩
        rw [hwhole, hfuture, List.append_assoc]

/-- **Every run keeps the account.** -/
theorem Keeps.drive (h : Keeps step Inv future) (hinv : Inv s input) (calls : ℕ → Call) :
    ∀ n, Accounted Inv future (future s input) (drive step calls s input n)
  | 0 => ⟨hinv, rfl⟩
  | n + 1 => h.next (calls n) (h.drive hinv calls n)

/-- A run that is done has produced all there was to come. -/
theorem Keeps.done (h : Keeps step Inv future) (hinv : Inv s input)
    (hd : Driving.drive step calls s input n = .done rest out) :
    rest = [] ∧ future s input = (out, none) := by
  have := h.drive hinv calls n
  rwa [hd] at this

/-- A run fails with the failure that was to come, after a part of the output. -/
theorem Keeps.failed (h : Keeps step Inv future) (hinv : Inv s input)
    (hf : Driving.drive step calls s input n = .failed e out) :
    (future s input).2 = some e ∧ out <+: (future s input).1 := by
  have := h.drive hinv calls n
  rwa [hf] at this

/-! ### Fair runs -/

/-- What is to come in and out. -/
def toCome (future : σ → List α → List β × Option ε) (s : σ) (rest : List α) : ℕ :=
  rest.length + (future s rest).1.length

/-- A call that is given something gets on. -/
theorem Keeps.next_running (h : Keeps step Inv future) {c : Call} (hinv : Inv s rest)
    (hroom : 0 < c.room) {rest' : List α} {out' : List β}
    (hn : Driving.next step c (.running s rest out) = .running s' rest' out') :
    toCome future s' rest' < toCome future s rest ∨
      toCome future s' rest' = toCome future s rest ∧ rest' = rest ∧
        (rest ≠ [] → c.offer = 0) ∧ (rest = [] → c.last = false) := by
  rw [Driving.next] at hn
  have hlast := behind_nil rest c
  have hinv' := hinv
  rw [← List.take_append_drop c.offer rest] at hinv'
  cases hs : step s (rest.take c.offer) c.room (c.last && decide (rest.length ≤ c.offer)) with
  | error e => rw [hs] at hn; cases hn
  | ok x =>
    obtain ⟨p, s''⟩ := x
    rw [hs] at hn
    dsimp only at hn
    cases hdone : p.done with
    | true => rw [if_pos hdone] at hn; cases hn
    | false =>
      rw [if_neg (by rw [hdone]; decide)] at hn
      obtain ⟨rfl, rfl, -⟩ := Run.running.inj hn
      have hle := (h.bounds hinv' hlast hs).1
      have hfuture := congrArg (fun f => f.1.length) (h.running hinv' hlast hs hdone).2
      rw [← drop_piece hle, List.take_append_drop] at hfuture
      simp only [List.length_append] at hfuture
      rw [List.length_take] at hle
      unfold toCome
      rw [List.length_drop]
      by_cases hidle : p.consumed = 0 ∧ p.produced = []
      · obtain ⟨hc, hp⟩ := hidle
        obtain ⟨hpiece, hword⟩ := h.moves hinv' hlast hroom hs hdone hc hp
        rw [hc, hp, List.length_nil] at hfuture
        rw [hc]
        refine .inr ⟨by omega, List.drop_zero, fun hne => ?_, fun hnil => ?_⟩
        · exact (List.take_eq_nil_iff.mp hpiece).resolve_right hne
        · rw [hnil, List.length_nil] at hword
          simpa using hword
      · left
        have : p.produced.length ≠ 0 ∨ p.consumed ≠ 0 := by
          by_contra hno
          push Not at hno
          exact hidle ⟨hno.2, List.length_eq_zero_iff.mp hno.1⟩
        omega

/-- A run that is going on after `n` calls gets on some day, or has an outcome. -/
theorem Keeps.advances (h : Keeps step Inv future) (hfair : Fair calls) (hinv : Inv s input)
    {s₁ : σ} {rest₁ : List α} {out₁ : List β}
    (hn : Driving.drive step calls s input n = .running s₁ rest₁ out₁) :
    ∃ m, ∀ {s₂ rest₂ out₂}, Driving.drive step calls s input m = .running s₂ rest₂ out₂ →
      toCome future s₂ rest₂ < toCome future s₁ rest₁ := by
  by_contra hno
  push Not at hno
  -- nothing moves from `n` on
  have hstay : ∀ k, ∃ s₂ out₂, Driving.drive step calls s input (n + k) = .running s₂ rest₁ out₂ ∧
      toCome future s₂ rest₁ = toCome future s₁ rest₁ ∧
      (k ≠ 0 → (rest₁ ≠ [] → (calls (n + k - 1)).offer = 0) ∧
        (rest₁ = [] → (calls (n + k - 1)).last = false)) := by
    intro k
    induction k with
    | zero => exact ⟨s₁, out₁, hn, rfl, fun hk => absurd rfl hk⟩
    | succ k ih =>
      obtain ⟨s₂, out₂, hk, heq, -⟩ := ih
      obtain ⟨s₃, rest₃, out₃, hk', hge⟩ := hno (n + k + 1)
      have hacc := h.drive hinv calls (n + k)
      rw [hk] at hacc
      have hstep := hk'
      rw [Driving.drive, hk] at hstep
      rcases h.next_running hacc.1 (hfair.room _) hstep with hlt | ⟨heq', rfl, hoffer, hword⟩
      · omega
      · exact ⟨s₃, out₃, hk', heq'.trans heq, fun _ => ⟨hoffer, hword⟩⟩
  by_cases hnil : rest₁ = []
  · obtain ⟨m, hm, hword⟩ := hfair.ends n
    obtain ⟨-, -, -, -, hk⟩ := hstay (m - n + 1)
    have := (hk (by omega)).2 hnil
    rw [show n + (m - n + 1) - 1 = m by omega, hword] at this
    cases this
  · obtain ⟨m, hm, hoffer⟩ := hfair.offers n
    obtain ⟨-, -, -, -, hk⟩ := hstay (m - n + 1)
    have := (hk (by omega)).1 hnil
    rw [show n + (m - n + 1) - 1 = m by omega] at this
    omega

/-- **Every fair run has the outcome of its future**: it is done with all of the output, or it fails
after a part of it. -/
theorem Keeps.outcome (h : Keeps step Inv future) (hfair : Fair calls) (hinv : Inv s input) :
    ∃ n, (∃ out, Driving.drive step calls s input n = .done [] out ∧ future s input = (out, none)) ∨
      ∃ e out, Driving.drive step calls s input n = .failed e out ∧
        (future s input).2 = some e ∧ out <+: (future s input).1 := by
  have hend : ∀ (bound n : ℕ) {s₁ rest₁ out₁},
      Driving.drive step calls s input n = .running s₁ rest₁ out₁ →
      toCome future s₁ rest₁ ≤ bound →
      ∃ m, ∀ s₂ rest₂ out₂, Driving.drive step calls s input m ≠ .running s₂ rest₂ out₂ := by
    intro bound
    induction bound with
    | zero =>
      intro n s₁ rest₁ out₁ hn hle
      obtain ⟨m, hm⟩ := h.advances hfair hinv hn
      exact ⟨m, fun s₂ rest₂ out₂ heq => by have := hm heq; omega⟩
    | succ bound ih =>
      intro n s₁ rest₁ out₁ hn hle
      obtain ⟨m, hm⟩ := h.advances hfair hinv hn
      by_cases hrun : ∃ s₂ rest₂ out₂, Driving.drive step calls s input m = .running s₂ rest₂ out₂
      · obtain ⟨s₂, rest₂, out₂, heq⟩ := hrun
        exact ih m heq (by have := hm heq; omega)
      · push Not at hrun
        exact ⟨m, hrun⟩
  obtain ⟨m, hm⟩ := hend (toCome future s input) 0 rfl le_rfl
  refine ⟨m, ?_⟩
  cases hd : Driving.drive step calls s input m with
  | running s₂ rest₂ out₂ => exact absurd hd (hm _ _ _)
  | done rest out =>
    obtain ⟨rfl, hout⟩ := h.done hinv hd
    exact .inl ⟨out, rfl, hout⟩
  | failed e out => exact .inr ⟨e, out, rfl, h.failed hinv hd⟩

end LibarchiveOxide.Lib.Driving
