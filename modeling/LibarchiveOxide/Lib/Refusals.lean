import Mathlib.Tactic

/-! # Refused calls

A machine answers every call with a result or with an error. A run can be compared with the one in which
the refused calls are left out (`survivors`): if no refused call leaves a trace that later calls can
observe (`Same`), then both give the same answers (`answers_survivors`). -/

namespace LibarchiveOxide.Lib.Refusals

variable {σ ι ε ο : Type} {step : σ → ι → σ × Except ε ο}

/-- The answers to calls that are made one after the other. -/
def answers (step : σ → ι → σ × Except ε ο) : σ → List ι → List (Except ε ο)
  | _, [] => []
  | s, c :: cs => (step s c).2 :: answers step (step s c).1 cs

/-- The state after the calls. -/
def after (step : σ → ι → σ × Except ε ο) : σ → List ι → σ
  | s, [] => s
  | s, c :: cs => after step (step s c).1 cs

/-- The calls that are not refused. -/
def survivors (step : σ → ι → σ × Except ε ο) : σ → List ι → List ι
  | _, [] => []
  | s, c :: cs =>
    if (step s c).2.isOk then c :: survivors step (step s c).1 cs
    else survivors step (step s c).1 cs

/-- Every refused call meets a condition, in the state in which it is refused. -/
def Refused (step : σ → ι → σ × Except ε ο) (Meets : σ → ι → Prop) : σ → List ι → Prop
  | _, [] => True
  | s, c :: cs => ((step s c).2.isOk = false → Meets s c) ∧ Refused step Meets (step s c).1 cs

/-- No calls tell the states apart. -/
def Same (step : σ → ι → σ × Except ε ο) (s s' : σ) : Prop :=
  ∀ cs, answers step s cs = answers step s' cs

theorem same_refl (s : σ) : Same step s s := fun _ => rfl

theorem answers_append (s : σ) (cs ds : List ι) :
    answers step s (cs ++ ds) = answers step s cs ++ answers step (after step s cs) ds := by
  induction cs generalizing s with
  | nil => rfl
  | cons c cs ih =>
    rw [List.cons_append, answers, ih]
    rfl

/-- **Bisimilar states are the same.** -/
theorem same_of_bisimilar {R : σ → σ → Prop}
    (h : ∀ s s' c, R s s' → (step s c).2 = (step s' c).2 ∧ R (step s c).1 (step s' c).1) {s s' : σ}
    (hr : R s s') : Same step s s' := by
  intro cs
  induction cs generalizing s s' with
  | nil => rfl
  | cons c cs ih =>
    obtain ⟨hanswer, hnext⟩ := h s s' c hr
    rw [answers, answers, hanswer, ih hnext]

/-- **Refused calls can be left out** of a run: the other calls get the same answers, and so do all
later ones. -/
theorem answers_survivors {Meets : σ → ι → Prop}
    (h : ∀ s c, Meets s c → (step s c).2.isOk = false → Same step s (step s c).1) {s : σ}
    {cs : List ι} (hrun : Refused step Meets s cs) (later : List ι) :
    answers step s (survivors step s cs ++ later) =
      (answers step s cs).filter Except.isOk ++ answers step (after step s cs) later := by
  induction cs generalizing s with
  | nil => rfl
  | cons c cs ih =>
    obtain ⟨hmeets, hrest⟩ := hrun
    rw [survivors, answers, after]
    by_cases hok : (step s c).2.isOk = true
    · rw [if_pos hok, List.cons_append, answers, ih hrest, List.filter_cons_of_pos hok]
      rfl
    · have hrefused : (step s c).2.isOk = false := Bool.eq_false_iff.mpr hok
      rw [if_neg hok, List.filter_cons_of_neg hok, ← ih hrest]
      exact h s c (hmeets hrefused) hrefused _

end LibarchiveOxide.Lib.Refusals
