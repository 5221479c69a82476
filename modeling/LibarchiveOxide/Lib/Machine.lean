import Mathlib.Tactic

/-! # Deterministic machines with output

A machine either takes a step, with some output, or halts. Since it is deterministic, every partial
run is a prefix of the halting one (`Halts.of_steps`), and a configuration halts in at most one way
(`Halts.unique`). -/

namespace LibarchiveOxide.Lib.Machine

/-- What a machine does in a configuration. -/
inductive Next (C A O : Type*) where
  | next (out : List A) (c : C)
  | halt (o : O)

variable {C A O : Type*} {M : C → Next C A O} {c c' c'' : C} {as bs : List A}

/-- Finitely many steps and their output. -/
inductive Steps (M : C → Next C A O) : C → List A → C → Prop
  | refl (c : C) : Steps M c [] c
  | head {c c' c'' : C} {as bs : List A} (h : M c = .next as c') (hs : Steps M c' bs c'') :
      Steps M c (as ++ bs) c''

/-- The machine reaches a halting configuration. -/
def Halts (M : C → Next C A O) (c : C) (as : List A) (o : O) : Prop :=
  ∃ c', Steps M c as c' ∧ M c' = .halt o

theorem Steps.single (h : M c = .next as c') : Steps M c as c' := by
  simpa using Steps.head h (.refl c')

theorem Steps.trans (h : Steps M c as c') (h' : Steps M c' bs c'') : Steps M c (as ++ bs) c'' := by
  induction h with
  | refl c => exact h'
  | head h _ ih => rw [List.append_assoc]; exact .head h (ih h')

/-- Silent steps before some steps. -/
theorem Steps.silent_trans (h : Steps M c [] c') (h' : Steps M c' bs c'') :
    Steps M c bs c'' := h.trans h'

theorem Halts.of_halt {o : O} (h : M c = .halt o) : Halts M c [] o := ⟨c, .refl c, h⟩

theorem Halts.prepend {o : O} (hs : Steps M c as c') (h : Halts M c' bs o) :
    Halts M c (as ++ bs) o := by
  obtain ⟨c'', h1, h2⟩ := h
  exact ⟨c'', hs.trans h1, h2⟩

/-- **A partial run is a prefix of the halting run.** -/
theorem Halts.of_steps {o : O} (h : Halts M c as o) (hs : Steps M c bs c') :
    ∃ cs, as = bs ++ cs ∧ Halts M c' cs o := by
  induction hs generalizing as with
  | refl c => exact ⟨as, rfl, h⟩
  | @head c c1 c2 as1 bs1 h1 _ ih =>
    obtain ⟨d, hd, ho⟩ := h
    cases hd with
    | refl => rw [h1] at ho; cases ho
    | @head _ c1' _ as2 bs2 h2 hs2 =>
      rw [h1] at h2
      cases h2
      obtain ⟨cs, hcs, hh⟩ := ih ⟨d, hs2, ho⟩
      exact ⟨cs, by rw [hcs, List.append_assoc], hh⟩

/-- **A configuration halts in one way.** -/
theorem Halts.unique {o p : O} (h : Halts M c as o) (h' : Halts M c bs p) : as = bs ∧ o = p := by
  obtain ⟨c', hs, hp⟩ := h'
  obtain ⟨cs, hcs, d, hd, ho⟩ := h.of_steps hs
  cases hd with
  | refl => rw [ho] at hp; cases hp; exact ⟨by simpa using hcs, rfl⟩
  | head h1 _ => rw [h1] at hp; cases hp

/-- **A run halts in one configuration.** -/
theorem Steps.halt_unique {o p : O} (h : Steps M c as c') (hh : M c' = .halt o)
    (h' : Steps M c bs c'') (hh' : M c'' = .halt p) : c' = c'' := by
  induction h generalizing bs with
  | refl c =>
    cases h' with
    | refl => rfl
    | head h1 _ => rw [hh] at h1; cases h1
  | head h1 _ ih =>
    cases h' with
    | refl => rw [hh'] at h1; cases h1
    | head h2 hs2 =>
      rw [h1] at h2
      cases h2
      exact ih hh hs2

/-- What is read from the second configuration is what is left from the first one after some
output. -/
def Continues (M : C → Next C A O) (c : C) (as : List A) (c' : C) : Prop :=
  ∀ bs o, Halts M c' bs o → Halts M c (as ++ bs) o

theorem Continues.refl (c : C) : Continues M c [] c := fun _ _ h => h

theorem Continues.of_steps (h : Steps M c as c') : Continues M c as c' :=
  fun _ _ h' => h'.prepend h

theorem Continues.trans (h : Continues M c as c') (h' : Continues M c' bs c'') :
    Continues M c (as ++ bs) c'' := by
  intro cs o hc
  rw [List.append_assoc]
  exact h _ o (h' cs o hc)

/-- Two configurations in which the machine does the same. -/
theorem Continues.of_eq (h : M c = M c') : Continues M c [] c' := by
  rintro bs o ⟨c'', hs, ho⟩
  cases hs with
  | refl => exact .of_halt (h.trans ho)
  | head h1 hs =>
    rw [List.nil_append]
    exact ⟨c'', .head (h.trans h1) hs, ho⟩

/-- Two configurations whose next ones are the same, with different outputs. -/
theorem Continues.of_next (h : M c = .next (as ++ bs) c'') (h' : M c' = .next bs c'') :
    Continues M c as c' := by
  rintro cs o ⟨e, hs, ho⟩
  cases hs with
  | refl =>
    rw [h'] at ho
    cases ho
  | head h1 hs =>
    rw [h'] at h1
    cases h1
    rw [← List.append_assoc]
    exact ⟨e, .head h hs, ho⟩

end LibarchiveOxide.Lib.Machine
