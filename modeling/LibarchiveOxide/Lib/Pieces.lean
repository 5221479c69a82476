import Mathlib.Tactic

/-! # Cutting a list at separators

`pieces p l` are the maximal parts of `l` without a separator, empty ones included, and
`breakLast p l` is `l` cut at its last separator. -/

namespace LibarchiveOxide.Lib.Pieces

variable {α : Type*} {p : α → Bool}

/-- The parts between separators. -/
def pieces (p : α → Bool) : List α → List (List α)
  | [] => [[]]
  | a :: l =>
    if p a then [] :: pieces p l
    else match pieces p l with
      | [] => [[a]]
      | w :: ws => (a :: w) :: ws

/-- The parts before and after the last separator. -/
def breakLast (p : α → Bool) : List α → Option (List α × List α)
  | [] => none
  | a :: l =>
    match breakLast p l with
    | some (x, y) => some (a :: x, y)
    | none => if p a then some ([], l) else none

theorem pieces_ne_nil : ∀ l : List α, pieces p l ≠ []
  | [] => by simp [pieces]
  | a :: l => by
    rw [pieces]
    split_ifs
    · simp
    · split
      · simp
      · simp

/-- No separator is left. -/
theorem not_sep_of_mem_pieces : ∀ {l w : List α}, w ∈ pieces p l → ∀ a ∈ w, p a = false
  | [], w, h => by
    rw [pieces, List.mem_singleton] at h
    simp [h]
  | b :: l, w, h => by
    rw [pieces] at h
    split_ifs at h with hb
    · rcases List.mem_cons.mp h with rfl | h
      · simp
      · exact not_sep_of_mem_pieces h
    · split at h
      · next hp => exact absurd hp (pieces_ne_nil l)
      · next v vs hp =>
        have hv := not_sep_of_mem_pieces (l := l) (w := v) (by rw [hp]; exact List.mem_cons_self)
        rcases List.mem_cons.mp h with rfl | h
        · intro a ha
          rcases List.mem_cons.mp ha with rfl | ha
          · simpa using hb
          · exact hv a ha
        · refine not_sep_of_mem_pieces (l := l) ?_
          rw [hp]
          exact List.mem_cons_of_mem _ h

theorem pieces_of_not_sep : ∀ {l : List α}, (∀ a ∈ l, p a = false) → pieces p l = [l]
  | [], _ => rfl
  | a :: l, h => by
    obtain ⟨ha, hl⟩ := List.forall_mem_cons.mp h
    rw [pieces, if_neg (by simp [ha]), pieces_of_not_sep hl]

/-- A separator ends a piece. -/
theorem pieces_append {s : α} (hs : p s = true) : ∀ (l r : List α),
    pieces p (l ++ s :: r) = pieces p l ++ pieces p r
  | [], r => by
    show (if p s then [] :: pieces p r else _) = _
    rw [if_pos hs]
    rfl
  | a :: l, r => by
    rw [List.cons_append, pieces, pieces, pieces_append hs l r]
    split_ifs
    · rfl
    · cases hl : pieces p l with
      | nil => exact absurd hl (pieces_ne_nil l)
      | cons w ws => rfl

theorem breakLast_eq_none : ∀ {l : List α}, breakLast p l = none → ∀ a ∈ l, p a = false
  | [], _ => by simp
  | a :: l, h => by
    rw [breakLast] at h
    split at h
    · cases h
    · next hl =>
      split_ifs at h with ha
      intro b hb
      rcases List.mem_cons.mp hb with rfl | hb
      · simpa using ha
      · exact breakLast_eq_none hl b hb

theorem breakLast_eq_some : ∀ {l x y : List α}, breakLast p l = some (x, y) →
    (∀ a ∈ y, p a = false) ∧ ∃ s, p s = true ∧ l = x ++ s :: y
  | [], x, y, h => by simp [breakLast] at h
  | a :: l, x, y, h => by
    rw [breakLast] at h
    split at h
    · next x' y' hl =>
      cases h
      obtain ⟨hy, s, hs, rfl⟩ := breakLast_eq_some hl
      exact ⟨hy, s, hs, rfl⟩
    · next hl =>
      split_ifs at h with ha
      cases h
      exact ⟨breakLast_eq_none hl, a, ha, rfl⟩

end LibarchiveOxide.Lib.Pieces
