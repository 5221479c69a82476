import LibarchiveOxide.Core.Metadata

/-! # Driving an encoder over a script

A caller presents one command after the other, each until the encoder has consumed it, with output
buffers of any size. An encoder that stages bytes and drains them into these buffers realizes an
effect on the commands (`Realizes`); then the output of a script is what the effect writes, whatever
the buffers are (`writes_of_encodes`). -/

namespace LibarchiveOxide.Core.Encode

open Core.Failure Core.Metadata Core.Protocol

/-- The step of an archive encoder with states `σ`. A failed step keeps its state. -/
abbrev EncodeFn (σ : Type) :=
  σ → EncodeCommand → ℕ → σ × Except ArchiveError EncodeStep

/-- `drain_pending`, which all encoders share: the bytes put into the output, and the staged bytes
and the position in them after that. -/
def drain (pending : List Byte) (pos outputLen : ℕ) : List Byte × List Byte × ℕ :=
  let count := min (pending.length - pos) outputLen
  let out := (pending.drop pos).take count
  if pos + count = pending.length then (out, [], 0) else (out, pending, pos + count)

theorem drain_owed (pending : List Byte) (pos n : ℕ) :
    pending.drop pos = (drain pending pos n).1 ++
      (drain pending pos n).2.1.drop (drain pending pos n).2.2 := by
  unfold drain
  dsimp only
  split_ifs with h
  · rw [List.drop_nil, List.append_nil, List.take_of_length_le]
    rw [List.length_drop]
    omega
  · rw [← List.drop_drop, List.take_append_drop]

theorem drain_pos {pending : List Byte} {pos : ℕ} (n : ℕ) (h : pending = [] → pos = 0)
    (hd : (drain pending pos n).2.1 = []) : (drain pending pos n).2.2 = 0 := by
  unfold drain at hd ⊢
  dsimp only at hd ⊢
  split_ifs at hd ⊢ with hc
  · rfl
  · subst hd
    exact absurd (by rw [h rfl]; rfl) hc

/-- A large buffer takes all staged bytes. -/
theorem drain_all (pending : List Byte) : drain pending 0 pending.length = (pending, [], 0) := by
  unfold drain
  dsimp only
  rw [Nat.sub_zero, Nat.min_self, List.drop_zero, List.take_length, if_pos (Nat.zero_add _)]

/-- The commands that are left after a call: what is not consumed of the first one is presented
again. -/
def resume (c : EncodeCommand) (s : EncodeStep) (cs : List EncodeCommand) : List EncodeCommand :=
  match c with
  | .data bytes =>
    if s.consumed = bytes.length then cs else .data (bytes.drop s.consumed) :: cs
  | .finish => if s.status = .done then cs else .finish :: cs
  | .beginEntry _ | .endEntry => if s.consumed = 0 then c :: cs else cs

/-- **The encoder accepts the script** and writes these bytes, with some output buffers. -/
inductive Encodes {σ : Type} (step : EncodeFn σ) : σ → List EncodeCommand → List Byte → Prop
  | nil (e : σ) : Encodes step e [] []
  | call {e e' : σ} {c : EncodeCommand} {cs : List EncodeCommand} {n : ℕ} {s : EncodeStep}
      {out : List Byte} (h : step e c n = (e', .ok s)) (hrest : Encodes step e' (resume c s cs) out) :
      Encodes step e (c :: cs) (s.produced ++ out)

/-- The commands of an entry with its payload. -/
def entryCommands (x : EntryMetadata × List Byte) : List EncodeCommand :=
  [.beginEntry x.1, .data x.2, .endEntry]

/-- The script of an archive. -/
def script (xs : List (EntryMetadata × List Byte)) : List EncodeCommand :=
  xs.flatMap entryCommands ++ [.finish]

/-- What a command does to an encoder that owes no bytes, and the bytes it writes. -/
abbrev Effect (σ : Type) := σ → EncodeCommand → Option (σ × List Byte)

section
variable {σ : Type} {step : EncodeFn σ} {effect : Effect σ}

/-- The bytes a script writes. -/
def writes (effect : Effect σ) : σ → List EncodeCommand → Option (List Byte)
  | _, [] => some []
  | e, c :: cs => do
    let (e', out) ← effect e c
    let rest ← writes effect e' cs
    return out ++ rest

theorem writes_cons {e : σ} {c : EncodeCommand} {cs : List EncodeCommand} {w : List Byte}
    (h : writes effect e (c :: cs) = some w) : ∃ e' out rest, effect e c = some (e', out) ∧
      writes effect e' cs = some rest ∧ w = out ++ rest := by
  obtain ⟨⟨e', out⟩, he, h⟩ := Option.bind_eq_some_iff.mp h
  obtain ⟨rest, hr, h⟩ := Option.bind_eq_some_iff.mp h
  cases h
  exact ⟨e', out, rest, he, hr, rfl⟩

/-- A step writes a part of what the effects of the commands write. The bytes that are staged are
owed. -/
structure Realizes (step : EncodeFn σ) (effect : Effect σ) (owed : σ → List Byte)
    (flushed : σ → σ) (Inv : σ → Prop) : Prop where
  inv : ∀ {e c n e' s}, Inv e → step e c n = (e', .ok s) → Inv e'
  call : ∀ {e c n e' s cs w}, Inv e → step e c n = (e', .ok s) →
    writes effect (flushed e') (resume c s cs) = some w →
    ∃ w', writes effect (flushed e) (c :: cs) = some w' ∧
      owed e ++ w' = s.produced ++ (owed e' ++ w)
  last : ∀ {e n e' s}, Inv e → step e .finish n = (e', .ok s) → s.status = .done → owed e' = []

/-- A command is done with or presented again. -/
theorem resume_cases (c : EncodeCommand) (s : EncodeStep) (cs : List EncodeCommand) :
    (resume c s cs = cs ∧ (c = .finish → s.status = .done)) ∨
      ∃ c', resume c s cs = c' :: cs ∧ (c = .finish → c' = .finish) := by
  cases c with
  | beginEntry m =>
    simp only [resume]
    split_ifs
    · exact .inr ⟨_, rfl, nofun⟩
    · exact .inl ⟨rfl, nofun⟩
  | data bytes =>
    simp only [resume]
    split_ifs
    · exact .inl ⟨rfl, nofun⟩
    · exact .inr ⟨_, rfl, nofun⟩
  | endEntry =>
    simp only [resume]
    split_ifs
    · exact .inr ⟨_, rfl, nofun⟩
    · exact .inl ⟨rfl, nofun⟩
  | finish =>
    simp only [resume]
    split_ifs with hd
    · exact .inl ⟨rfl, fun _ => hd⟩
    · exact .inr ⟨_, rfl, fun _ => rfl⟩

/-- **The buffers do not matter.** -/
theorem writes_of_encodes {owed : σ → List Byte} {flushed : σ → σ} {Inv : σ → Prop}
    (h : Realizes step effect owed flushed Inv) {e : σ} {cs : List EncodeCommand} {out : List Byte}
    (hi : Inv e) (he : Encodes step e cs out) (hcs : cs.getLast? = some .finish) :
    ∃ w, writes effect (flushed e) cs = some w ∧ out = owed e ++ w := by
  induction he with
  | nil => cases hcs
  | @call e e' c cs n s out hs hrest ih =>
    have hgo : (resume c s cs).getLast? = some .finish →
        ∃ w, writes effect (flushed e) (c :: cs) = some w ∧ s.produced ++ out = owed e ++ w := by
      intro hlast
      obtain ⟨w, hw, rfl⟩ := ih (h.inv hi hs) hlast
      obtain ⟨w', hw', heq⟩ := h.call hi hs hw
      exact ⟨w', hw', heq.symm⟩
    rcases resume_cases c s cs with ⟨hres, hd⟩ | ⟨c', hres, hc'⟩
    · cases cs with
      | cons c'' cs =>
        rw [List.getLast?_cons_cons] at hcs
        exact hgo (by rw [hres]; exact hcs)
      | nil =>
        -- the answer to the last command
        rw [List.getLast?_singleton, Option.some.injEq] at hcs
        subst hcs
        rw [hres] at hrest
        cases hrest
        obtain ⟨w, hw, heq⟩ := @Realizes.call _ _ _ _ _ _ h _ _ _ _ _ [] [] hi hs
          (by rw [hres]; rfl)
        refine ⟨w, hw, ?_⟩
        rw [heq, h.last hi hs (hd rfl)]
        rfl
    · refine hgo ?_
      rw [hres]
      cases cs with
      | cons c'' cs =>
        rw [List.getLast?_cons_cons] at hcs ⊢
        exact hcs
      | nil =>
        rw [List.getLast?_singleton, Option.some.injEq] at hcs
        rw [List.getLast?_singleton, hc' hcs]

end

end LibarchiveOxide.Core.Encode
