import Mathlib.Tactic

/-! # Chains of intervals

Intervals in a list of which each one starts right behind the one before it, or, if it is marked, at
its last number. Then any two of them share at most one number (`Before`), and together they leave no
hole (`covered`). -/

namespace LibarchiveOxide.Lib.Intervals

variable {α : Type*} {lo hi : α → ℕ} {mark : α → Prop}

/-- The second interval starts where the first one ends. -/
def Follows (lo hi : α → ℕ) (mark : α → Prop) (a b : α) : Prop :=
  hi a + 1 = lo b ∨ (mark b ∧ hi a = lo b)

/-- The second interval is behind the first one; if it is marked, they may share a number. -/
structure Before (lo hi : α → ℕ) (mark : α → Prop) (a b : α) : Prop where
  proper : lo b ≤ hi b
  le : hi a ≤ lo b
  marked : hi a = lo b → mark b

theorem Follows.before {a b : α} (h : Follows lo hi mark a b) (hb : lo b ≤ hi b) :
    Before lo hi mark a b := by
  rcases h with h | ⟨hm, h⟩
  · exact ⟨hb, by omega, fun _ => by omega⟩
  · exact ⟨hb, h.le, fun _ => hm⟩

theorem Before.trans {a b c : α} (h : Before lo hi mark a b) (h' : Before lo hi mark b c) :
    Before lo hi mark a c := by
  have h1 := h.le
  have h2 := h.proper
  have h3 := h'.le
  refine ⟨h'.proper, by omega, fun he => h'.marked (by omega)⟩

/-- **Any two intervals of a chain** are one behind the other. -/
theorem pairwise_before {l : List α} (h : l.IsChain (Follows lo hi mark))
    (hp : ∀ a ∈ l, lo a ≤ hi a) : l.Pairwise (Before lo hi mark) := by
  let _ : Trans (Before lo hi mark) (Before lo hi mark) (Before lo hi mark) := ⟨Before.trans⟩
  refine List.isChain_iff_pairwise.mp ?_
  induction l with
  | nil => exact .nil
  | cons a l ih =>
    cases l with
    | nil => exact .singleton a
    | cons b l =>
      obtain ⟨hab, hl⟩ := List.isChain_cons_cons.mp h
      refine List.isChain_cons_cons.mpr ⟨hab.before (hp b (by simp)), ih hl fun c hc => ?_⟩
      exact hp c (List.mem_cons_of_mem _ hc)

/-- **A chain has no hole**: it has every number between two of its numbers. -/
theorem covered {l : List α} (h : l.IsChain (Follows lo hi mark)) (hp : ∀ a ∈ l, lo a ≤ hi a)
    {a b : α} (ha : a ∈ l) (hb : b ∈ l) {x : ℕ} (hax : lo a ≤ x) (hxb : x ≤ hi b) :
    ∃ c ∈ l, lo c ≤ x ∧ x ≤ hi c := by
  -- it is enough to start at the head: what is before it ends before `x`
  have key : ∀ l : List α, l.IsChain (Follows lo hi mark) → b ∈ l →
      (∀ c, l.head? = some c → lo c ≤ x) → ∃ c ∈ l, lo c ≤ x ∧ x ≤ hi c := by
    intro l
    induction l with
    | nil => intro _ hb; exact absurd hb List.not_mem_nil
    | cons c l ih =>
      intro h hb hc
      by_cases hx : x ≤ hi c
      · exact ⟨c, List.mem_cons_self, hc c rfl, hx⟩
      · have hbl : b ∈ l := by
          rcases List.mem_cons.mp hb with rfl | hbl
          · exact absurd hxb hx
          · exact hbl
        obtain ⟨d, hd, hdx⟩ := ih h.tail hbl fun d hd => by
          cases l with
          | nil => cases hd
          | cons e l =>
            cases hd
            rcases (List.isChain_cons_cons.mp h).1 with h1 | ⟨-, h1⟩ <;> omega
        exact ⟨d, List.mem_cons_of_mem _ hd, hdx⟩
  refine key l h hb fun c hc => ?_
  cases l with
  | nil => cases hc
  | cons e l =>
    cases hc
    rcases List.mem_cons.mp ha with rfl | ha
    · exact hax
    · have hbef := List.rel_of_pairwise_cons (pairwise_before h hp) ha
      have h1 := hp c List.mem_cons_self
      have h2 := hbef.le
      omega

end LibarchiveOxide.Lib.Intervals
