import Mathlib.Tactic

/-! # Names joined with a separator

A text that grows by names, with a separator put before a name unless there is one already. The text is
known by its names and by whether it ends with a separator (`Names`): it takes a name, which may be
empty (`Names.push`), and another text, which may be too (`Names.glue`). -/

namespace LibarchiveOxide.Lib.Joined

variable {α : Type*} (s : α)

/-- A text behind another one; if it begins with a separator, then in its place. -/
def behind [DecidableEq α] (l segment : List α) : List α :=
  if segment.head? = some s then segment
  else if l ≠ [] ∧ l.getLast? ≠ some s ∧ segment ≠ [] then l ++ [s] ++ segment
  else l ++ segment

/-- A name that does not touch the separators around it. -/
structure Clean (x : List α) : Prop where
  ne_nil : x ≠ []
  head : x.head? ≠ some s
  last : x.getLast? ≠ some s

/-- The names of a text, and whether a separator follows them. -/
structure Names (α : Type*) where
  names : List (List α) := []
  opened : Bool := false

namespace Names

variable {s} {p q : Names α} {lead x : List α} {xs : List (List α)} {ns : List (List α)}

/-- Names are clean, and a separator at the end follows one of them. -/
structure Valid (s : α) (p : Names α) : Prop where
  clean : ∀ x ∈ p.names, Clean s x
  opened : p.opened = true → p.names ≠ []

/-- The text behind what leads it. -/
def text (s : α) (lead : List α) (p : Names α) : List α :=
  lead ++ [s].intercalate p.names ++ if p.opened then [s] else []

/-- Another name, which may be empty. -/
def push (p : Names α) (x : List α) : Names α :=
  if x = [] then ⟨p.names, !p.names.isEmpty⟩ else ⟨p.names ++ [x], false⟩

theorem Valid.push (hp : p.Valid s) (hx : x = [] ∨ Clean s x) : (p.push x).Valid s := by
  unfold Names.push
  split_ifs with hnil
  · refine ⟨hp.clean, fun h => ?_⟩
    simpa using h
  · refine ⟨fun y hy => ?_, nofun⟩
    rcases List.mem_append.mp hy with hy | hy
    · exact hp.clean y hy
    · rw [List.mem_singleton.mp hy]
      exact hx.resolve_left hnil

variable [DecidableEq α]

end Names

/-! ### Parts and groups of parts -/

namespace Names

variable {s} {p : Names α} {xs : List (List α)} {gs : List (List (List α))}

/-- The parts of a text one after another. -/
def pushAll (p : Names α) (xs : List (List α)) : Names α := xs.foldl push p

/-- Whether the last group in which there is a part that is not empty ends with one that is. -/
def dangling (opened : Bool) (gs : List (List (List α))) : Bool :=
  gs.foldl (fun opened xs =>
    if xs.any (!·.isEmpty) then xs.getLast?.any List.isEmpty else opened) opened

theorem pushAll_concat (x : List α) : p.pushAll (xs ++ [x]) = (p.pushAll xs).push x := by
  rw [pushAll, List.foldl_append]
  rfl

theorem Valid.pushAll (hp : p.Valid s) (hxs : ∀ x ∈ xs, x = [] ∨ Clean s x) :
    (p.pushAll xs).Valid s := by
  induction xs using List.reverseRecOn with
  | nil => exact hp
  | append_singleton xs x ih =>
    rw [pushAll_concat]
    exact (ih fun y hy => hxs y (by simp [hy])).push (hxs x (by simp))

end Names

end LibarchiveOxide.Lib.Joined
