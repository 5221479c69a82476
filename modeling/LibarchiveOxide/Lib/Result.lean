import Mathlib.Tactic

/-! # Results that may fail

How the operations of `Except` compose: a chain succeeds exactly if each of its parts does. -/

namespace LibarchiveOxide.Lib.Result

universe u v

variable {ε δ : Type u} {α β : Type v} {x : Except ε α} {f : α → Except ε β}

theorem bind_eq_ok {b : β} : (x >>= f) = .ok b ↔ ∃ a, x = .ok a ∧ f a = .ok b := by
  cases x with
  | error e => exact ⟨nofun, nofun⟩
  | ok a => exact ⟨fun h => ⟨a, rfl, h⟩, fun ⟨_, h, hf⟩ => by cases h; exact hf⟩

theorem bind_eq_error {e : ε} :
    (x >>= f) = .error e ↔ x = .error e ∨ ∃ a, x = .ok a ∧ f a = .error e := by
  cases x with
  | error e' =>
    refine ⟨fun h => .inl ?_, ?_⟩
    · cases h; rfl
    · rintro (h | ⟨_, h, _⟩)
      · cases h; rfl
      · cases h
  | ok a =>
    refine ⟨fun h => .inr ⟨a, rfl, h⟩, ?_⟩
    rintro (h | ⟨_, h, hf⟩)
    · cases h
    · cases h; exact hf

@[simp] theorem ok_bind (a : α) (f : α → Except ε β) : (Except.ok a >>= f) = f a := rfl

@[simp] theorem error_bind (e : ε) (f : α → Except ε β) : (Except.error e >>= f) = .error e := rfl

@[simp] theorem pure_eq_ok (a : α) : (pure a : Except ε α) = .ok a := rfl

@[simp] theorem throw_eq_error (e : ε) : (throw e : Except ε α) = .error e := rfl

@[simp] theorem mapError_ok (f : ε → δ) (a : α) : (Except.ok a).mapError f = .ok a := rfl

@[simp] theorem mapError_error (f : ε → δ) (e : ε) :
    (Except.error e : Except ε α).mapError f = .error (f e) := rfl

theorem mapError_eq_ok {f : ε → δ} {a : α} : x.mapError f = .ok a ↔ x = .ok a := by
  cases x with
  | error e => exact ⟨nofun, nofun⟩
  | ok b => simp only [mapError_ok, Except.ok.injEq]

theorem map_eq_ok {f : α → β} {b : β} : x.map f = .ok b ↔ ∃ a, x = .ok a ∧ f a = b := by
  cases x with
  | error e => exact ⟨nofun, nofun⟩
  | ok a => simp only [Except.map, Except.ok.injEq, exists_eq_left']

/-- A guarded failure in front of a chain, as `do` spells it. -/
theorem guard_eq_ok {p : Prop} [Decidable p] {e : ε} {g : Except ε β} {b : β} :
    (if p then throw e >>= f else g) = .ok b ↔ ¬ p ∧ g = .ok b := by
  split_ifs with h
  · exact ⟨nofun, fun h' => absurd h h'.1⟩
  · exact ⟨fun h' => ⟨h, h'⟩, fun h' => h'.2⟩

end LibarchiveOxide.Lib.Result

/-! # The errors of a computation

`Raises P x`: if `x` fails, then with an error for which `P` holds. A chain of computations raises what
its parts do, the later parts on what the earlier ones returned. -/

namespace LibarchiveOxide.Lib.Errors

open Lib.Result

variable {ε α β : Type} {P : ε → Prop}

/-- Any error satisfies `P`. -/
def Raises (P : ε → Prop) (x : Except ε α) : Prop := ∀ e, x = .error e → P e

theorem raises_ok (a : α) : Raises P (.ok a) := nofun

theorem raises_pure (a : α) : Raises P (pure a) := nofun

theorem raises_error {e : ε} (h : P e) : Raises P (.error e : Except ε α) := by
  intro e' he
  cases he
  exact h

theorem raises_bind {x : Except ε α} {f : α → Except ε β} (hx : Raises P x)
    (hf : ∀ a, x = .ok a → Raises P (f a)) : Raises P (x >>= f) := by
  intro e he
  rcases bind_eq_error.mp he with h | ⟨a, ha, h⟩
  · exact hx e h
  · exact hf a ha e h

theorem raises_map {x : Except ε α} (f : α → β) (hx : Raises P x) : Raises P (x.map f) := by
  intro e he
  cases x with
  | error e' =>
    cases he
    exact hx _ rfl
  | ok a => cases he

/-- A guard, as `do` spells it. -/
theorem raises_guard {p : Prop} [Decidable p] {e : ε} {f : α → Except ε β} {g : Except ε β}
    (h : p → P e) (hg : ¬ p → Raises P g) : Raises P (if p then throw e >>= f else g) := by
  split_ifs with hp
  · exact raises_error (h hp)
  · exact hg hp

/-- A last guard of a block. -/
theorem raises_check {p : Prop} [Decidable p] {e : ε} (h : p → P e) :
    Raises P (if p then throw e else pure PUnit.unit) := by
  split_ifs with hp
  · exact raises_error (h hp)
  · exact raises_pure _

theorem raises_ite {p : Prop} [Decidable p] {x y : Except ε α} (hx : p → Raises P x)
    (hy : ¬ p → Raises P y) : Raises P (if p then x else y) := by
  split_ifs with hp
  · exact hx hp
  · exact hy hp

theorem raises_forM {f : α → Except ε PUnit} (hf : ∀ a, Raises P (f a)) :
    ∀ as : List α, Raises P (as.forM f)
  | [] => raises_pure _
  | a :: as => raises_bind (hf a) fun _ _ => raises_forM hf as

theorem raises_mapM {f : α → Except ε β} (hf : ∀ a, Raises P (f a)) (as : List α) :
    Raises P (as.mapM f) := by
  induction as with
  | nil => exact raises_pure _
  | cons a as ih =>
    rw [List.mapM_cons]
    exact raises_bind (hf a) fun _ _ => raises_bind ih fun _ _ => raises_pure _

end LibarchiveOxide.Lib.Errors
