import Mathlib.Tactic

/-! # The last occurrence of a pattern

`lastOccurrence p l` is the largest position of `l` at which the pattern `p` starts. What stands
before a part that contains the pattern does not matter; so the occurrence at the beginning of a part
is the last one exactly if the pattern is not found in the rest of it. -/

namespace LibarchiveOxide.Lib.Search

variable {α : Type*} [DecidableEq α]

/-- The last position at which the pattern starts. -/
def lastOccurrence (p : List α) : List α → Option ℕ
  | [] => if p = [] then some 0 else none
  | a :: l =>
    match lastOccurrence p l with
    | some i => some (i + 1)
    | none => if (a :: l).take p.length = p then some 0 else none

theorem lastOccurrence_eq_none {p : List α} : ∀ {l : List α}, p ≠ [] →
    (lastOccurrence p l = none ↔ ¬ p <:+: l)
  | [], hp => by
    rw [lastOccurrence, if_neg hp, List.infix_nil]
    exact ⟨fun _ => hp, fun _ => rfl⟩
  | a :: l, hp => by
    have ih := @lastOccurrence_eq_none p l hp
    rw [lastOccurrence, List.infix_cons_iff]
    cases h : lastOccurrence p l with
    | some i =>
      have hin : p <:+: l := by
        by_contra hnot
        rw [ih.mpr hnot] at h
        cases h
      exact ⟨nofun, fun hnot => absurd (.inr hin) hnot⟩
    | none =>
      have hnot := ih.mp h
      dsimp only
      split_ifs with hstart
      · exact ⟨nofun, fun hn => absurd (.inl (hstart ▸ List.take_prefix _ _)) hn⟩
      · refine ⟨fun _ hor => ?_, fun _ => rfl⟩
        rcases hor with hpre | hin
        · exact hstart (List.prefix_iff_eq_take.mp hpre).symm
        · exact hnot hin

theorem lastOccurrence_append {p l : List α} {i : ℕ} (h : lastOccurrence p l = some i) :
    ∀ pre : List α, lastOccurrence p (pre ++ l) = some (pre.length + i)
  | [] => by rw [List.nil_append, h, List.length_nil, Nat.zero_add]
  | a :: pre => by
    rw [List.cons_append, lastOccurrence, lastOccurrence_append h pre, List.length_cons]
    exact congrArg some (by omega)

/-- An occurrence at the beginning of a part is the last one if the rest contains none. -/
theorem lastOccurrence_part {p pre l : List α} (hp : p ≠ []) (hl : p <+: l)
    (hrest : ¬ p <:+: l.tail) : lastOccurrence p (pre ++ l) = some pre.length := by
  cases l with
  | nil => exact absurd (List.prefix_nil.mp hl) hp
  | cons a l =>
    have hnone : lastOccurrence p l = none := (lastOccurrence_eq_none hp).mpr hrest
    have hlast : lastOccurrence p (a :: l) = some 0 := by
      rw [lastOccurrence, hnone]
      exact if_pos (List.prefix_iff_eq_take.mp hl).symm
    exact lastOccurrence_append hlast pre

/-- **The last occurrence** is at the beginning of a part exactly if the rest contains none. -/
theorem lastOccurrence_part_iff {p pre l : List α} (hp : p ≠ []) (hl : p <+: l) :
    lastOccurrence p (pre ++ l) = some pre.length ↔ ¬ p <:+: l.tail := by
  refine ⟨fun h hin => ?_, lastOccurrence_part hp hl⟩
  cases l with
  | nil => exact hp (List.infix_nil.mp hin)
  | cons a l =>
    cases hlast : lastOccurrence p l with
    | none => exact (lastOccurrence_eq_none hp).mp hlast hin
    | some i =>
      have hwhole := lastOccurrence_append hlast (pre ++ [a])
      rw [List.append_assoc, List.singleton_append, h, Option.some.injEq, List.length_append,
        List.length_singleton] at hwhole
      omega

end LibarchiveOxide.Lib.Search
