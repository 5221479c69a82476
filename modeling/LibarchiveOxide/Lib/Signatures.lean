import Mathlib.Tactic

/-! # Tables of signatures

A table gives names to words, and a list has the name of the first word that it starts with. If no word
of the table starts a word with another name, this is the name of every word that the list starts with;
so elements behind the list do not change it (`first_append`). `shortest` is the least length at which a
list that is still too short could get a name. -/

namespace LibarchiveOxide.Lib.Signatures

variable {ι α : Type*} {table : List (ι × List α)} {p s : List α} {x : ι}

/-- No word starts a word with another name. -/
def Apart (table : List (ι × List α)) : Prop :=
  ∀ a ∈ table, ∀ b ∈ table, a.2 <+: b.2 → a.1 = b.1

/-- No word starts the list, and the list starts no word. -/
def Foreign (table : List (ι × List α)) (p : List α) : Prop :=
  ∀ e ∈ table, ¬ e.2 <+: p ∧ ¬ p <+: e.2

/-- Two words that start the same list have the same name. -/
theorem Apart.name_eq (h : Apart table) {a b : ι × List α} (ha : a ∈ table) (hb : b ∈ table)
    (hpa : a.2 <+: p) (hpb : b.2 <+: p) : a.1 = b.1 := by
  rcases List.prefix_or_prefix_of_prefix hpa hpb with hab | hba
  · exact h a ha b hb hab
  · exact (h b hb a ha hba).symm

theorem Foreign.append (h : Foreign table p) (s : List α) : Foreign table (p ++ s) := by
  intro e he
  refine ⟨fun hpre => ?_, fun hpre => (h e he).2 ((List.prefix_append p s).trans hpre)⟩
  rcases List.prefix_or_prefix_of_prefix hpre (List.prefix_append p s) with hle | hge
  · exact (h e he).1 hle
  · exact (h e he).2 hge

variable [DecidableEq α]

instance [DecidableEq ι] (table : List (ι × List α)) : Decidable (Apart table) :=
  inferInstanceAs (Decidable (∀ a ∈ table, ∀ b ∈ table, a.2 <+: b.2 → a.1 = b.1))

/-- The name of the first word that a list starts with. -/
def first (table : List (ι × List α)) (p : List α) : Option ι :=
  (table.find? fun e => e.2.isPrefixOf p).map Prod.fst

/-- The smaller of a length and that of a word, if the list starts the word and does not reach it. -/
def nearer (p : List α) (m : ℕ) (e : ι × List α) : ℕ :=
  if p.length < e.2.length ∧ p.isPrefixOf e.2 then min m e.2.length else m

/-- The least length of a word that the list starts and does not reach. -/
def shortest (table : List (ι × List α)) (p : List α) (least : ℕ) : ℕ :=
  table.foldl (nearer p) least

/-! ### The name -/

theorem first_eq_none_iff : first table p = none ↔ ∀ e ∈ table, ¬ e.2 <+: p := by
  simp [first, List.isPrefixOf_iff_prefix]

theorem exists_of_first (h : first table p = some x) : ∃ e ∈ table, e.1 = x ∧ e.2 <+: p := by
  obtain ⟨e, he, rfl⟩ := Option.map_eq_some_iff.mp h
  exact ⟨e, List.mem_of_find?_eq_some he, rfl,
    List.isPrefixOf_iff_prefix.mp (by simpa using List.find?_some he)⟩

theorem Apart.first_eq (h : Apart table) {e : ι × List α} (he : e ∈ table) (hp : e.2 <+: p) :
    first table p = some e.1 := by
  cases hfirst : first table p with
  | none => exact absurd hp (first_eq_none_iff.mp hfirst e he)
  | some y =>
    obtain ⟨e', he', rfl, hp'⟩ := exists_of_first hfirst
    rw [h.name_eq he he' hp hp']

/-- A name stays. -/
theorem Apart.first_append (h : Apart table) (hp : first table p = some x) :
    first table (p ++ s) = some x := by
  obtain ⟨e, he, rfl, hpre⟩ := exists_of_first hp
  exact h.first_eq he (hpre.trans (List.prefix_append p s))

/-- A list that is as long as every word has its name, or will never have one. -/
theorem first_append_of_long (h : ∀ e ∈ table, e.2.length ≤ p.length) :
    first table (p ++ s) = first table p := by
  unfold first
  congr 1
  induction table with
  | nil => rfl
  | cons e table ih =>
    have hhead : e.2.isPrefixOf (p ++ s) = e.2.isPrefixOf p := by
      rw [Bool.eq_iff_iff, List.isPrefixOf_iff_prefix, List.isPrefixOf_iff_prefix]
      exact ⟨fun hp => List.prefix_of_prefix_length_le hp (List.prefix_append p s)
        (h e List.mem_cons_self), fun hp => hp.trans (List.prefix_append p s)⟩
    rw [List.find?_cons, List.find?_cons, hhead, ih fun e he => h e (List.mem_cons_of_mem _ he)]

theorem first_append_table (table' : List (ι × List α)) :
    first (table ++ table') p = (first table p).or (first table' p) := by
  unfold first
  rw [List.find?_append]
  cases table.find? fun e => e.2.isPrefixOf p <;> rfl

theorem Foreign.first_eq (h : Foreign table p) : first table p = none :=
  first_eq_none_iff.mpr fun e he => (h e he).1

/-! ### The length that could decide -/

theorem nearer_le (m : ℕ) (e : ι × List α) : nearer p m e ≤ m := by
  unfold nearer
  split
  · exact min_le_left _ _
  · exact le_rfl

theorem shortest_le (least : ℕ) : shortest table p least ≤ least := by
  induction table generalizing least with
  | nil => exact le_rfl
  | cons e table ih => exact (ih _).trans (nearer_le least e)

/-- A length that comes from the table is not reached. -/
theorem shortest_eq_or_lt (table : List (ι × List α)) (p : List α) (least : ℕ) :
    shortest table p least = least ∨ p.length < shortest table p least := by
  induction table generalizing least with
  | nil => exact .inl rfl
  | cons e table ih =>
    rcases ih (nearer p least e) with heq | hlt
    · rw [shortest, List.foldl_cons]
      rw [shortest] at heq
      rw [heq]
      unfold nearer
      split
      · rename_i h
        rcases Nat.le_total least e.2.length with hle | hle
        · exact .inl (min_eq_left hle)
        · rw [min_eq_right hle]
          exact .inr h.1
      · exact .inl rfl
    · exact .inr hlt

theorem shortest_le_length {e : ι × List α} (he : e ∈ table) (hlt : p.length < e.2.length)
    (hpre : p <+: e.2) (least : ℕ) : shortest table p least ≤ e.2.length := by
  induction table generalizing least with
  | nil => simp at he
  | cons e' table ih =>
    rcases List.mem_cons.mp he with rfl | he
    · have hnear : nearer p least e = min least e.2.length :=
        if_pos ⟨hlt, List.isPrefixOf_iff_prefix.mpr hpre⟩
      calc shortest table p (nearer p least e) ≤ nearer p least e := shortest_le _
        _ ≤ e.2.length := hnear ▸ min_le_right _ _
    · exact ih he _

/-- Without a word to reach the length stays. -/
theorem shortest_eq (h : ∀ e ∈ table, p.length < e.2.length → ¬ p <+: e.2) (least : ℕ) :
    shortest table p least = least := by
  induction table generalizing least with
  | nil => rfl
  | cons e table ih =>
    have hsame : nearer p least e = least :=
      if_neg fun hnear => h e List.mem_cons_self hnear.1 (List.isPrefixOf_iff_prefix.mp hnear.2)
    rw [shortest, List.foldl_cons, hsame]
    exact ih (fun e he => h e (List.mem_cons_of_mem _ he)) _

end LibarchiveOxide.Lib.Signatures
