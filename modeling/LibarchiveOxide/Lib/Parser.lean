import LibarchiveOxide.Lib.Result

/-! # Parsers

A parser is a function of a state that may fail. A chain of parsers succeeds exactly if each of them
does on what the one before it left. -/

namespace LibarchiveOxide.Lib.Parser

variable {σ ε α β : Type} {x : StateT σ (Except ε) α} {f : α → StateT σ (Except ε) β}

theorem bind_apply (x : StateT σ (Except ε) α) (f : α → StateT σ (Except ε) β) (s : σ) :
    (x >>= f) s = (x s >>= fun p => f p.1 p.2) := rfl

theorem bind_eq_ok {s : σ} {r : β × σ} :
    (x >>= f) s = .ok r ↔ ∃ a s', x s = .ok (a, s') ∧ f a s' = .ok r := by
  rw [bind_apply, Result.bind_eq_ok]
  exact ⟨fun ⟨p, h, hf⟩ => ⟨p.1, p.2, h, hf⟩, fun ⟨a, s', h, hf⟩ => ⟨(a, s'), h, hf⟩⟩

theorem bind_of_ok {s s' : σ} {a : α} (h : x s = .ok (a, s')) : (x >>= f) s = f a s' := by
  rw [bind_apply, h, Result.ok_bind]

theorem bind_of_error {s : σ} {e : ε} (h : x s = .error e) : (x >>= f) s = .error e := by
  rw [bind_apply, h, Result.error_bind]

theorem pure_apply (a : α) (s : σ) : (pure a : StateT σ (Except ε) α) s = .ok (a, s) := rfl

theorem throw_apply (e : ε) (s : σ) : (throw e : StateT σ (Except ε) α) s = .error e := rfl

theorem lift_apply (x : Except ε α) (s : σ) :
    (liftM x : StateT σ (Except ε) α) s = (x >>= fun a => .ok (a, s)) := rfl

theorem lift_eq_ok {x : Except ε α} {s : σ} {r : α × σ} :
    (liftM x : StateT σ (Except ε) α) s = .ok r ↔ x = .ok r.1 ∧ r.2 = s := by
  rw [lift_apply, Result.bind_eq_ok]
  constructor
  · rintro ⟨a, ha, h⟩
    cases h
    exact ⟨ha, rfl⟩
  · rintro ⟨ha, rfl⟩
    exact ⟨r.1, ha, rfl⟩

/-- The guard at the head of a chain, as `do` spells it. -/
theorem guard_eq_ok {p : Prop} [Decidable p] {e : ε} {g : StateT σ (Except ε) β} {s : σ}
    {r : β × σ} : (if p then throw e >>= f else g) s = .ok r ↔ ¬ p ∧ g s = .ok r := by
  split_ifs with h
  · rw [bind_of_error (throw_apply e s)]
    exact ⟨nofun, fun h' => absurd h h'.1⟩
  · exact ⟨fun h' => ⟨h, h'⟩, fun h' => h'.2⟩

/-- The results of a parser run `n` times. -/
def times (p : StateT σ (Except ε) α) : ℕ → StateT σ (Except ε) (List α)
  | 0 => pure []
  | n + 1 => do
    let a ← p
    let as ← times p n
    pure (a :: as)

theorem length_times {p : StateT σ (Except ε) α} : ∀ {n : ℕ} {s : σ} {as : List α} {s' : σ},
    times p n s = .ok (as, s') → as.length = n
  | 0, _, _, _, h => by
    cases h
    rfl
  | n + 1, s, as, s', h => by
    rw [times, bind_eq_ok] at h
    obtain ⟨a, s1, -, h⟩ := h
    obtain ⟨as', s2, has, h⟩ := bind_eq_ok.mp h
    cases h
    rw [List.length_cons, length_times has]

/-- Each of the results was parsed. -/
theorem exists_of_mem_times {p : StateT σ (Except ε) α} {a : α} : ∀ {n : ℕ} {s : σ} {as : List α}
    {s' : σ}, times p n s = .ok (as, s') → a ∈ as → ∃ before after, p before = .ok (a, after)
  | 0, _, _, _, h, hmem => by
    cases h
    exact absurd hmem List.not_mem_nil
  | n + 1, s, as, s', h, hmem => by
    rw [times, bind_eq_ok] at h
    obtain ⟨b, s1, hb, h⟩ := h
    obtain ⟨as', s2, has, h⟩ := bind_eq_ok.mp h
    cases h
    rcases List.mem_cons.mp hmem with rfl | hmem
    · exact ⟨s, s1, hb⟩
    · exact exists_of_mem_times has hmem

end LibarchiveOxide.Lib.Parser

/-! # Two calls side by side

Two calls agree at a pair of states if they both succeed, with related values in related states, or
both fail, with related errors. Agreement is kept by sequencing, so two programs of the same shape
agree if their steps do. -/

namespace LibarchiveOxide.Lib.Relational

variable {σ τ ε δ α β γ κ : Type}

/-- **Two results agree.** -/
def Agree (V : α → β → Prop) (R : σ → τ → Prop) (E : ε → δ → Prop) :
    Except ε (α × σ) → Except δ (β × τ) → Prop
  | .ok p, .ok q => V p.1 q.1 ∧ R p.2 q.2
  | .error e, .error d => E e d
  | .ok _, .error _ => False
  | .error _, .ok _ => False

variable {V : α → β → Prop} {W : γ → κ → Prop} {R : σ → τ → Prop} {S : σ → τ → Prop}
  {E : ε → δ → Prop} {s : σ} {t : τ}

theorem Agree.bind {x : StateT σ (Except ε) α} {y : StateT τ (Except δ) β}
    {f : α → StateT σ (Except ε) γ} {g : β → StateT τ (Except δ) κ} (h : Agree V R E (x s) (y t))
    (hf : ∀ a b s' t', V a b → R s' t' → Agree W S E (f a s') (g b t')) :
    Agree W S E ((x >>= f) s) ((y >>= g) t) := by
  cases hx : x s with
  | error e =>
    cases hy : y t with
    | error d =>
      rw [Parser.bind_of_error hx, Parser.bind_of_error hy]
      rw [hx, hy] at h
      exact h
    | ok q =>
      rw [hx, hy] at h
      exact h.elim
  | ok p =>
    cases hy : y t with
    | error d =>
      rw [hx, hy] at h
      exact h.elim
    | ok q =>
      rw [hx, hy] at h
      rw [Parser.bind_of_ok hx, Parser.bind_of_ok hy]
      exact hf _ _ _ _ h.1 h.2

theorem Agree.get_bind {f : σ → StateT σ (Except ε) γ} {g : τ → StateT τ (Except δ) κ}
    (h : Agree W S E (f s s) (g t t)) : Agree W S E ((get >>= f) s) ((get >>= g) t) := h

theorem Agree.modify_bind {m : σ → σ} {m' : τ → τ} {f : PUnit → StateT σ (Except ε) γ}
    {g : PUnit → StateT τ (Except δ) κ} (h : Agree W S E (f ⟨⟩ (m s)) (g ⟨⟩ (m' t))) :
    Agree W S E ((modify m >>= f) s) ((modify m' >>= g) t) := h

theorem Agree.ite {p q : Prop} [Decidable p] [Decidable q] {x x' : StateT σ (Except ε) α}
    {y y' : StateT τ (Except δ) β} (hpq : p ↔ q) (hpos : p → Agree V R E (x s) (y t))
    (hneg : ¬ p → Agree V R E (x' s) (y' t)) :
    Agree V R E ((if p then x else x') s) ((if q then y else y') t) := by
  by_cases hp : p
  · rw [if_pos hp, if_pos (hpq.mp hp)]
    exact hpos hp
  · rw [if_neg hp, if_neg fun hq => hp (hpq.mpr hq)]
    exact hneg hp

/-- The same outcome of two calls, lifted. -/
theorem Agree.lift (x : Except ε α) {E : ε → ε → Prop} (hE : ∀ e, E e e) (hR : R s t) :
    Agree Eq R E ((liftM x : StateT σ (Except ε) α) s) ((liftM x : StateT τ (Except ε) α) t) := by
  cases x with
  | error e => exact hE e
  | ok a => exact ⟨rfl, hR⟩

end LibarchiveOxide.Lib.Relational
