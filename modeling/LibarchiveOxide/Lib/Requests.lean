import Mathlib.Tactic

/-! # Requests served piece by piece

A request for `n` units from a position on is served in rounds, each of which gives a piece of what is
still missing. The rounds serve a function of the positions if each piece is a stretch of it; then
the pieces together are the whole stretch, however they were cut. Whether a request is served is
decided position by position. -/

namespace LibarchiveOxide.Lib.Requests

variable {σ α β ε : Type*}

/-- The values of `f` at the `n` positions from `p` on. -/
def span (f : ℕ → β) (p n : ℕ) : List β := (List.range n).map fun i => f (p + i)

@[simp] theorem length_span (f : ℕ → β) (p n : ℕ) : (span f p n).length = n := by simp [span]

@[simp] theorem span_zero (f : ℕ → β) (p : ℕ) : span f p 0 = [] := rfl

theorem span_add (f : ℕ → β) (p m n : ℕ) : span f p (m + n) = span f p m ++ span f (p + m) n := by
  unfold span
  rw [List.range_add, List.map_append, List.map_map]
  congr 1
  refine List.map_congr_left fun i _ => ?_
  rw [Function.comp_apply, Nat.add_assoc]

theorem span_congr {f g : ℕ → β} {p q n : ℕ} (h : ∀ i < n, f (p + i) = g (q + i)) :
    span f p n = span g q n :=
  List.map_congr_left fun i hi => h i (List.mem_range.mp hi)

theorem getElem?_span (f : ℕ → β) (p n i : ℕ) :
    (span f p n)[i]? = if i < n then some (f (p + i)) else none := by
  unfold span
  rw [List.getElem?_map]
  split_ifs with h
  · rw [List.getElem?_range h, Option.map_some]
  · rw [List.getElem?_eq_none (by simpa using h), Option.map_none]

/-- The pieces of a request for `n` units; `none` while it is still being served as the fuel runs
out. -/
def serve (round : σ → ℕ → Except ε (α × σ)) (size : α → ℕ) :
    ℕ → σ → ℕ → Option (Except ε (List α))
  | _, _, 0 => some (.ok [])
  | 0, _, _ + 1 => none
  | fuel + 1, s, n + 1 =>
    match round s (n + 1) with
    | .error e => some (.error e)
    | .ok (a, s') => (serve round size fuel s' (n + 1 - size a)).map fun r => r.map (a :: ·)

/-- The rounds serve `f`: each gives a stretch of it that is not empty, and fails only if some
position that was asked for is bad. The state is at `pos`, as long as something is missing. -/
structure Serves (round : σ → ℕ → Except ε (α × σ)) (size : α → ℕ) (values : α → List β)
    (f : ℕ → β) (pos : σ → ℕ) (Inv : σ → ℕ → Prop) (Good : ℕ → Prop) (Sound : α → Prop) : Prop where
  ok : ∀ {s n a s'}, Inv s n → 0 < n → round s n = .ok (a, s') →
    (0 < size a ∧ size a ≤ n) ∧ values a = span f (pos s) (size a) ∧
    (∀ i < size a, Good (pos s + i)) ∧ Sound a ∧
    (size a < n → pos s' = pos s + size a ∧ Inv s' (n - size a))
  error : ∀ {s n e}, Inv s n → 0 < n → round s n = .error e → ∃ i < n, ¬ Good (pos s + i)

variable {round : σ → ℕ → Except ε (α × σ)} {size : α → ℕ} {values : α → List β} {f : ℕ → β}
  {pos : σ → ℕ} {Inv : σ → ℕ → Prop} {Good : ℕ → Prop} {Sound : α → Prop}

/-- What has been served stays so with more fuel. -/
theorem serve_mono : ∀ {fuel fuel' n : ℕ} {s : σ} {r : Except ε (List α)},
    serve round size fuel s n = some r → fuel ≤ fuel' → serve round size fuel' s n = some r
  | _, _, 0, _, _, h, _ => by
    unfold serve at h ⊢
    exact h
  | 0, _, _ + 1, _, _, h, _ => by cases h
  | fuel + 1, 0, _ + 1, _, _, _, hle => by omega
  | fuel + 1, fuel' + 1, n + 1, s, r, h, hle => by
    rw [serve] at h ⊢
    cases hround : round s (n + 1) with
    | error e => rw [hround] at h; exact h
    | ok x =>
      rw [hround] at h
      obtain ⟨r', hr', rfl⟩ := Option.map_eq_some_iff.mp h
      rw [Option.map_eq_some_iff]
      exact ⟨r', serve_mono hr' (by omega), rfl⟩

/-- Rounds whose pieces are not empty come to an end. -/
theorem serve_isSome (h : ∀ s n x, 0 < n → round s n = .ok x → 0 < size x.1) :
    ∀ {fuel n : ℕ} {s : σ}, n ≤ fuel → (Requests.serve round size fuel s n).isSome
  | _, 0, _, _ => by rw [Requests.serve]; rfl
  | 0, _ + 1, _, hle => by omega
  | fuel + 1, n + 1, s, hle => by
    rw [Requests.serve]
    cases hround : round s (n + 1) with
    | error e => rfl
    | ok x =>
      have hpos := h s (n + 1) x (by omega) hround
      rw [Option.isSome_map]
      exact serve_isSome h (by omega)

/-- **Every request is served in at most as many rounds as it has units**: with the stretch that was
asked for if all its positions are good, and with a failure otherwise. -/
theorem Serves.serve (h : Serves round size values f pos Inv Good Sound) :
    ∀ {fuel n : ℕ} {s : σ}, n ≤ fuel → (n ≠ 0 → Inv s n) →
      (∃ as, serve round size fuel s n = some (.ok as) ∧ as.flatMap values = span f (pos s) n ∧
        (as.map size).sum = n ∧ (∀ a ∈ as, Sound a) ∧ ∀ i < n, Good (pos s + i)) ∨
      ∃ e, serve round size fuel s n = some (.error e) ∧ ∃ i < n, ¬ Good (pos s + i)
  | _, 0, s, _, _ => .inl ⟨[], by rw [Requests.serve], rfl, rfl, by simp, by simp⟩
  | 0, n + 1, s, hle, _ => by omega
  | fuel + 1, n + 1, s, hle, hinv => by
    have hinv := hinv (by omega)
    rw [Requests.serve]
    cases hround : round s (n + 1) with
    | error e => exact .inr ⟨e, rfl, h.error hinv (by omega) hround⟩
    | ok x =>
      obtain ⟨a, s'⟩ := x
      obtain ⟨⟨hpos, hsize⟩, hvalues, hgood, hsound, hnext⟩ := h.ok hinv (by omega) hround
      have hinv' : n + 1 - size a ≠ 0 → Inv s' (n + 1 - size a) := fun hne =>
        (hnext (by omega)).2
      have hsplit : n + 1 = size a + (n + 1 - size a) := by omega
      -- what is left starts where this piece ends
      have hshift : ∀ i < n + 1 - size a, pos s' + i = pos s + (size a + i) := fun i hi => by
        rw [(hnext (by omega)).1, Nat.add_assoc]
      have hle' : n + 1 - size a ≤ fuel := by omega
      rcases h.serve hle' hinv' with
        ⟨as, hserve, hspan, hsum, hall, hrest⟩ | ⟨e, hserve, i, hi, hbad⟩
      · refine .inl ⟨a :: as, by simp only [hserve]; rfl, ?_, ?_, ?_, ?_⟩
        · rw [List.flatMap_cons, hvalues, hspan, hsplit, span_add, ← hsplit]
          congr 1
          exact span_congr fun i hi => by rw [hshift i hi, Nat.add_assoc]
        · rw [List.map_cons, List.sum_cons, hsum]
          omega
        · rintro b (_ | ⟨_, hb⟩)
          · exact hsound
          · exact hall b hb
        · intro i hi
          by_cases hlt : i < size a
          · exact hgood i hlt
          · have := hrest (i - size a) (by omega)
            rw [hshift _ (by omega)] at this
            rwa [show size a + (i - size a) = i by omega] at this
      · refine .inr ⟨e, by simp only [hserve]; rfl, size a + i, by omega, ?_⟩
        rw [← hshift i hi]
        exact hbad

/-- A round that gives all that is asked for is the only one. -/
theorem serve_one {fuel n : ℕ} {s : σ} {as : List α} (hn : 0 < n)
    (hall : ∀ a s', round s n = .ok (a, s') → size a = n)
    (h : Requests.serve round size fuel s n = some (.ok as)) : ∃ a, as = [a] ∧ size a = n := by
  obtain ⟨n, rfl⟩ : ∃ m, n = m + 1 := ⟨n - 1, by omega⟩
  cases fuel with
  | zero => cases h
  | succ fuel =>
    rw [Requests.serve] at h
    cases hround : round s (n + 1) with
    | error e => rw [hround] at h; cases h
    | ok x =>
      obtain ⟨a, s'⟩ := x
      have hsize := hall a s' hround
      have hlast : Requests.serve round size fuel s' (n + 1 - size a) = some (.ok []) := by
        rw [hsize, Nat.sub_self, Requests.serve]
      rw [hround] at h
      simp only [hlast] at h
      cases h
      exact ⟨a, rfl, hsize⟩

end LibarchiveOxide.Lib.Requests
