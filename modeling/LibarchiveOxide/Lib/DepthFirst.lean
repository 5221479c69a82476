import LibarchiveOxide.Lib.Result
import Mathlib.Data.Fintype.Order

/-! # Depth-first search

A depth-first search from a vertex lists the vertices it depends on, dependencies first. It stops
early at a cycle, or where it is not allowed to go deeper. The second never happens if it may go as
deep as there are vertices (`visit_ne_depth`); the first happens exactly if a cycle can be reached
(`visit_eq_ok_iff`). If everything but a root is needed by something, what the root does not depend
on leads to a cycle apart from it (`exists_cycle_apart`). -/

namespace LibarchiveOxide.Lib.DepthFirst

open Lib.Result Relation

variable {V : Type} {deps : V → List V}

/-- Why a search stops. -/
inductive Stop where
  | cycle
  | depth
deriving DecidableEq

/-- Visits a vertex on the way down from those of the `stack`, after those of the `order`. -/
def visit [DecidableEq V] (deps : V → List V) : ℕ → List V → V → List V → Except Stop (List V)
  | 0, _, _, _ => .error .depth
  | depth + 1, stack, v, order =>
    if v ∈ order then .ok order
    else if v ∈ stack then .error .cycle
    else do
      let order ← (deps v).foldlM (fun order d => visit deps depth (v :: stack) d order) order
      .ok (order ++ [v])

/-- A vertex depends on another. -/
def Depends (deps : V → List V) (v d : V) : Prop := d ∈ deps v

/-- Every vertex of the order comes once, after all it depends on. -/
def Ordered (deps : V → List V) (order : List V) : Prop :=
  ∀ before v after, order = before ++ v :: after → v ∉ before ∧ ∀ d ∈ deps v, d ∈ before

/-! ### Orders -/

variable {order : List V}

theorem ordered_nil : Ordered deps [] := by
  intro before v after h
  simp at h

theorem Ordered.push {v : V} (h : Ordered deps order) (hv : v ∉ order)
    (hdeps : ∀ d ∈ deps v, d ∈ order) : Ordered deps (order ++ [v]) := by
  intro before x after heq
  rcases List.eq_nil_or_concat after with rfl | ⟨init, last, rfl⟩
  · obtain ⟨rfl, hx⟩ := List.append_inj' heq rfl
    cases hx
    exact ⟨hv, hdeps⟩
  · rw [List.concat_eq_append, ← List.cons_append, ← List.append_assoc] at heq
    obtain ⟨rfl, -⟩ := List.append_inj' heq rfl
    exact h before x init rfl

theorem Ordered.init {v : V} (h : Ordered deps (order ++ [v])) :
    Ordered deps order ∧ v ∉ order ∧ ∀ d ∈ deps v, d ∈ order := by
  refine ⟨fun before x after heq => h before x (after ++ [v]) ?_, h order v [] rfl⟩
  rw [heq, List.append_assoc, List.cons_append]

theorem Ordered.nodup (h : Ordered deps order) : order.Nodup := by
  induction order using List.reverseRecOn with
  | nil => exact List.nodup_nil
  | append_singleton order v ih =>
    obtain ⟨hinit, hv, -⟩ := h.init
    exact (List.nodup_append_comm.mp (List.nodup_cons.mpr ⟨hv, ih hinit⟩ : (v :: order).Nodup))

theorem Ordered.closed (h : Ordered deps order) {v d : V} (hv : v ∈ order) (hd : Depends deps v d) :
    d ∈ order := by
  obtain ⟨before, after, rfl⟩ := List.append_of_mem hv
  exact List.mem_append_left _ ((h before v after rfl).2 d hd)

theorem Ordered.reaches (h : Ordered deps order) {v d : V} (hv : v ∈ order)
    (hd : ReflTransGen (Depends deps) v d) : d ∈ order := by
  induction hd with
  | refl => exact hv
  | tail _ hstep ih => exact h.closed ih hstep

/-- **Nothing in such an order depends on itself.** -/
theorem Ordered.acyclic (h : Ordered deps order) : ∀ v ∈ order, ¬ TransGen (Depends deps) v v := by
  induction order using List.reverseRecOn with
  | nil => exact fun v hv => absurd hv List.not_mem_nil
  | append_singleton order last ih =>
    obtain ⟨hinit, hlast, hdeps⟩ := h.init
    intro v hv hcycle
    rcases List.mem_append.mp hv with hv | hv
    · exact ih hinit v hv hcycle
    · cases List.mem_singleton.mp hv
      obtain ⟨d, hd, hback⟩ := TransGen.head'_iff.mp hcycle
      exact hlast (hinit.reaches (hdeps d hd) hback)

/-- What a visit of the vertices `vs` leaves. -/
structure Visited (deps : V → List V) (stack vs order order' : List V) : Prop where
  ordered : Ordered deps order'
  extends_ : order <+: order'
  mem : ∀ v ∈ vs, v ∈ order'
  reached : ∀ x ∈ order', x ∈ order ∨ (x ∉ stack ∧ ∃ v ∈ vs, ReflTransGen (Depends deps) v x)

theorem Visited.apart {stack vs order' : List V} (h : Visited deps stack vs order order')
    (happart : ∀ x ∈ stack, x ∉ order) : ∀ x ∈ stack, x ∉ order' := by
  intro x hx hmem
  rcases h.reached x hmem with hold | ⟨hnew, -⟩
  · exact happart x hx hold
  · exact hnew hx

/-- The visits of several vertices one after another. -/
theorem foldlM_visited {stack : List V} {visitOne : List V → V → Except Stop (List V)}
    (ih : ∀ {v : V} {order order' : List V}, Ordered deps order → (∀ x ∈ stack, x ∉ order) →
      visitOne order v = .ok order' → Visited deps stack [v] order order') :
    ∀ {vs order order' : List V}, Ordered deps order → (∀ x ∈ stack, x ∉ order) →
      vs.foldlM visitOne order = .ok order' → Visited deps stack vs order order'
  | [], order, order', hordered, _, h => by
    cases h
    exact ⟨hordered, List.prefix_rfl, fun _ hv => absurd hv List.not_mem_nil, fun _ hx => .inl hx⟩
  | v :: vs, order, order', hordered, happart, h => by
    rw [List.foldlM_cons] at h
    obtain ⟨order₁, hfirst, h⟩ := bind_eq_ok.mp h
    have hone := ih hordered happart hfirst
    have hrest := foldlM_visited ih hone.ordered (hone.apart happart) h
    refine ⟨hrest.ordered, hone.extends_.trans hrest.extends_, fun x hx => ?_, fun x hx => ?_⟩
    · rcases List.mem_cons.mp hx with rfl | hx
      · exact hrest.extends_.subset (hone.mem x (List.mem_singleton_self x))
      · exact hrest.mem x hx
    · rcases hrest.reached x hx with hx | ⟨hnew, w, hw, hpath⟩
      · refine (hone.reached x hx).imp_right fun ⟨hnew, w, hw, hpath⟩ => ⟨hnew, w, ?_, hpath⟩
        exact List.mem_singleton.mp hw ▸ List.mem_cons_self
      · exact .inr ⟨hnew, w, List.mem_cons_of_mem _ hw, hpath⟩

/-! ### What a visit finds -/

section Visits

variable [DecidableEq V]

theorem visit_succ (depth : ℕ) (stack : List V) (v : V) (order : List V) :
    visit deps (depth + 1) stack v order =
      if v ∈ order then .ok order
      else if v ∈ stack then .error .cycle
      else (deps v).foldlM (fun order d => visit deps depth (v :: stack) d order) order >>=
        fun order => .ok (order ++ [v]) := rfl

/-- **A visit extends the order by vertices that can be reached**, the visited one among them. -/
theorem visit_visited : ∀ {depth : ℕ} {stack : List V} {v : V} {order order' : List V},
    Ordered deps order → (∀ x ∈ stack, x ∉ order) →
    visit deps depth stack v order = .ok order' → Visited deps stack [v] order order'
  | 0, _, _, _, _, _, _, h => by cases h
  | depth + 1, stack, v, order, order', hordered, happart, h => by
    rw [visit_succ] at h
    by_cases hdone : v ∈ order
    · rw [if_pos hdone] at h
      cases h
      exact ⟨hordered, List.prefix_rfl, fun x hx => List.mem_singleton.mp hx ▸ hdone,
        fun _ hx => .inl hx⟩
    by_cases hopen : v ∈ stack
    · rw [if_neg hdone, if_pos hopen] at h
      cases h
    rw [if_neg hdone, if_neg hopen] at h
    obtain ⟨order₁, hloop, h⟩ := bind_eq_ok.mp h
    cases h
    have happart' : ∀ x ∈ v :: stack, x ∉ order := by
      intro x hx
      rcases List.mem_cons.mp hx with rfl | hx
      · exact hdone
      · exact happart x hx
    have hbelow := foldlM_visited (fun ho ha hv => visit_visited ho ha hv) hordered happart' hloop
    refine ⟨hbelow.ordered.push (hbelow.apart happart' v List.mem_cons_self) hbelow.mem,
      hbelow.extends_.trans (List.prefix_append _ _), fun x hx => ?_, fun x hx => ?_⟩
    · exact List.mem_append_right _ hx
    · rcases List.mem_append.mp hx with hx | hx
      · rcases hbelow.reached x hx with hold | ⟨hnew, d, hd, hpath⟩
        · exact .inl hold
        · exact .inr ⟨fun hmem => hnew (List.mem_cons_of_mem _ hmem), v, List.mem_singleton_self v,
            .head hd hpath⟩
      · cases List.mem_singleton.mp hx
        exact .inr ⟨hopen, v, List.mem_singleton_self v, .refl⟩

/-! ### Where it stops -/

/-- A loop that fails does so at one of its steps. -/
theorem foldlM_eq_error {σ ε α : Type} {g : σ → α → Except ε σ} {e : ε} : ∀ {as : List α} {s : σ},
    as.foldlM g s = .error e → ∃ a ∈ as, ∃ s', g s' a = .error e
  | [], _, h => by cases h
  | a :: as, s, h => by
    rw [List.foldlM_cons] at h
    rcases bind_eq_error.mp h with h | ⟨s', -, h⟩
    · exact ⟨a, List.mem_cons_self, s, h⟩
    · obtain ⟨b, hb, hstep⟩ := foldlM_eq_error h
      exact ⟨b, List.mem_cons_of_mem _ hb, hstep⟩

/-- **It stops at a cycle that can be reached.** -/
theorem visit_cycle : ∀ {depth : ℕ} {stack : List V} {v : V} {order : List V},
    (∀ x ∈ stack, TransGen (Depends deps) x v) →
    visit deps depth stack v order = .error .cycle →
    ∃ x, ReflTransGen (Depends deps) v x ∧ TransGen (Depends deps) x x
  | 0, _, _, _, _, h => by cases h
  | depth + 1, stack, v, order, hstack, h => by
    rw [visit_succ] at h
    by_cases hdone : v ∈ order
    · rw [if_pos hdone] at h
      cases h
    by_cases hopen : v ∈ stack
    · exact ⟨v, .refl, hstack v hopen⟩
    rw [if_neg hdone, if_neg hopen] at h
    rcases bind_eq_error.mp h with h | ⟨order₁, -, h⟩
    · obtain ⟨d, hd, order₁, hstop⟩ := foldlM_eq_error h
      have hstack' : ∀ x ∈ v :: stack, TransGen (Depends deps) x d := by
        intro x hx
        rcases List.mem_cons.mp hx with rfl | hx
        · exact .single hd
        · exact (hstack x hx).tail hd
      obtain ⟨x, hpath, hcycle⟩ := visit_cycle hstack' hstop
      exact ⟨x, .head hd hpath, hcycle⟩
    · cases h

/-- **It never goes deeper than there are vertices.** -/
theorem visit_ne_depth {vertices : Finset V} (hclosed : ∀ v ∈ vertices, ∀ d ∈ deps v, d ∈ vertices) :
    ∀ {depth : ℕ} {stack : List V} {v : V} {order : List V}, stack.Nodup →
      (∀ x ∈ stack, x ∈ vertices) → v ∈ vertices → vertices.card < depth + stack.length →
      visit deps depth stack v order ≠ .error .depth
  | 0, stack, _, _, hnodup, hstack, _, hlt, _ => by
    have hle : stack.length ≤ vertices.card := by
      rw [← List.toFinset_card_of_nodup hnodup]
      exact Finset.card_le_card fun x hx => hstack x (List.mem_toFinset.mp hx)
    omega
  | depth + 1, stack, v, order, hnodup, hstack, hv, hlt, h => by
    rw [visit_succ] at h
    by_cases hdone : v ∈ order
    · rw [if_pos hdone] at h
      cases h
    by_cases hopen : v ∈ stack
    · rw [if_neg hdone, if_pos hopen] at h
      cases h
    rw [if_neg hdone, if_neg hopen] at h
    rcases bind_eq_error.mp h with h | ⟨order₁, -, h⟩
    · obtain ⟨d, hd, order₁, hstop⟩ := foldlM_eq_error h
      refine visit_ne_depth hclosed (List.nodup_cons.mpr ⟨hopen, hnodup⟩) (fun x hx => ?_)
        (hclosed v hv d hd) ?_ hstop
      · rcases List.mem_cons.mp hx with rfl | hx
        · exact hv
        · exact hstack x hx
      · rw [List.length_cons]
        omega
    · cases h

section Root

variable {vertices : Finset V} {root : V}
  (hclosed : ∀ v ∈ vertices, ∀ d ∈ deps v, d ∈ vertices) (hroot : root ∈ vertices)

/-- The order of a search from a root is sorted and has what the root depends on. -/
theorem search_eq_ok {depth : ℕ} (h : visit deps depth [] root [] = .ok order) :
    Ordered deps order ∧ ∀ x, x ∈ order ↔ ReflTransGen (Depends deps) root x := by
  have hvisited := visit_visited ordered_nil (fun _ hx => absurd hx List.not_mem_nil) h
  refine ⟨hvisited.ordered, fun x => ⟨fun hx => ?_, fun hpath => ?_⟩⟩
  · rcases hvisited.reached x hx with hnil | ⟨-, v, hv, hpath⟩
    · exact absurd hnil List.not_mem_nil
    · exact List.mem_singleton.mp hv ▸ hpath
  · exact hvisited.ordered.reaches (hvisited.mem root (List.mem_singleton_self root)) hpath

include hclosed hroot in
/-- **A search from a root succeeds exactly if no cycle can be reached.** -/
theorem visit_eq_ok_iff : (∃ order, visit deps (vertices.card + 1) [] root [] = .ok order) ↔
    ∀ x, ReflTransGen (Depends deps) root x → ¬ TransGen (Depends deps) x x := by
  constructor
  · rintro ⟨order, h⟩ x hpath
    obtain ⟨hordered, hmem⟩ := search_eq_ok h
    exact hordered.acyclic x ((hmem x).mpr hpath)
  · intro hacyclic
    cases h : visit deps (vertices.card + 1) [] root [] with
    | ok order => exact ⟨order, rfl⟩
    | error stop =>
      cases stop with
      | cycle =>
        obtain ⟨x, hpath, hcycle⟩ := visit_cycle (fun _ hx => absurd hx List.not_mem_nil) h
        exact absurd hcycle (hacyclic x hpath)
      | depth =>
        exact absurd h (visit_ne_depth hclosed List.nodup_nil
          (fun _ hx => absurd hx List.not_mem_nil) hroot (by simp))

end Root

end Visits

/-- **What the root does not depend on leads to a cycle apart from it**, if something depends on each
vertex but the root. -/
theorem exists_cycle_apart {vertices : Finset V} {root v : V}
    (hneeded : ∀ v ∈ vertices, v ≠ root → ∃ c ∈ vertices, Depends deps c v) (hv : v ∈ vertices)
    (hapart : ¬ ReflTransGen (Depends deps) root v) :
    ∃ x, TransGen (Depends deps) x x ∧ ¬ ReflTransGen (Depends deps) root x := by
  by_contra hnone
  let Apart := {x : vertices // ¬ ReflTransGen (Depends deps) root x.1}
  let above : Apart → Apart → Prop := fun a b => TransGen (Depends deps) a.1.1 b.1.1
  have htrans : IsTrans _ above := ⟨fun _ _ _ hab hbc => hab.trans hbc⟩
  have hirrefl : Std.Irrefl above := ⟨fun a hcycle => hnone ⟨a.1.1, hcycle, a.2⟩⟩
  have hwf : WellFounded above := Finite.wellFounded_of_trans_of_irrefl above
  suffices hfalse : ∀ a : Apart, False from hfalse ⟨⟨v, hv⟩, hapart⟩
  intro a
  -- what depends on a vertex apart from the root is apart from it too
  induction a using hwf.induction with
  | h a ih =>
    have hne : a.1.1 ≠ root := by
      intro heq
      refine a.2 ?_
      rw [heq]
    obtain ⟨c, hc, hdep⟩ := hneeded a.1.1 a.1.2 hne
    exact ih ⟨⟨c, hc⟩, fun hpath => a.2 (ReflTransGen.tail hpath hdep)⟩ (TransGen.single hdep)

end LibarchiveOxide.Lib.DepthFirst
