import Mathlib.Tactic

/-! # Finite maps as key-sorted lists

`insert` keeps the bindings in the order of `lt` and replaces the binding of a key that is there.
Up to the order, a map with one key rebound is the new binding and the bindings of the other keys. -/

namespace LibarchiveOxide.Lib.SortedMap

variable {κ β : Type} [DecidableEq κ] {m : List (κ × β)}

/-- The value bound to a key. -/
def find (k : κ) : List (κ × β) → Option β
  | [] => none
  | (k', v) :: rest => if k = k' then some v else find k rest

/-- The map without a key. -/
def erase (k : κ) : List (κ × β) → List (κ × β)
  | [] => []
  | (k', v) :: rest => if k = k' then rest else (k', v) :: erase k rest

/-- The map with a key bound. -/
def insert (lt : κ → κ → Bool) (k : κ) (v : β) : List (κ × β) → List (κ × β)
  | [] => [(k, v)]
  | (k', v') :: rest =>
    if k = k' then (k, v) :: rest
    else if lt k k' then (k, v) :: (k', v') :: rest
    else (k', v') :: insert lt k v rest

/-- No key is bound twice. -/
def Keyed (m : List (κ × β)) : Prop := (m.map Prod.fst).Nodup

variable {lt : κ → κ → Bool} {k k' : κ} {v w : β}

theorem mem_of_find : ∀ {m : List (κ × β)}, find k m = some v → (k, v) ∈ m
  | [], h => by simp [find] at h
  | (k', v') :: rest, h => by
    rw [find] at h
    split_ifs at h with hk
    · cases h
      rw [hk]
      exact List.mem_cons_self
    · exact List.mem_cons_of_mem _ (mem_of_find h)

theorem find_of_mem : ∀ {m : List (κ × β)}, Keyed m → (k, v) ∈ m → find k m = some v
  | [], _, h => absurd h List.not_mem_nil
  | (k', v') :: rest, hm, h => by
    rw [Keyed, List.map_cons, List.nodup_cons] at hm
    rw [find]
    rcases List.mem_cons.mp h with he | hr
    · cases he
      rw [if_pos rfl]
    · rw [if_neg, find_of_mem hm.2 hr]
      rintro rfl
      exact hm.1 (List.mem_map.mpr ⟨_, hr, rfl⟩)

/-- A key that has just been bound. -/
theorem find_insert_self : ∀ m : List (κ × β), find k (insert lt k v m) = some v
  | [] => by rw [insert, find, if_pos rfl]
  | (k', v') :: rest => by
    rw [insert]
    split_ifs with hk hlt
    · rw [find, if_pos rfl]
    · rw [find, if_pos rfl]
    · rw [find, if_neg hk, find_insert_self rest]

/-- Any other key. -/
theorem find_insert_of_ne (hne : k' ≠ k) : ∀ m : List (κ × β),
    find k' (insert lt k v m) = find k' m
  | [] => if_neg hne
  | (j, w) :: rest => by
    rw [insert]
    split_ifs with hk hlt
    · rw [find, if_neg hne, find, if_neg (fun h => hne (h.trans hk.symm))]
    · rw [find, if_neg hne]
    · rw [find, find, find_insert_of_ne hne rest]

theorem perm_of_find : ∀ {m : List (κ × β)}, find k m = some v → m.Perm ((k, v) :: erase k m)
  | [], h => by simp [find] at h
  | (k', v') :: rest, h => by
    rw [find] at h
    rw [erase]
    split_ifs at h ⊢ with hk
    · cases h
      rw [hk]
    · exact ((perm_of_find h).cons _).trans (.swap ..)

theorem erase_of_find : ∀ {m : List (κ × β)}, find k m = none → erase k m = m
  | [], _ => rfl
  | (k', v') :: rest, h => by
    rw [find] at h
    split_ifs at h with hk
    rw [erase, if_neg hk, erase_of_find h]

theorem erase_sublist : ∀ m : List (κ × β), (erase k m).Sublist m
  | [] => .slnil
  | (k', v') :: rest => by
    rw [erase]
    split_ifs
    · exact List.sublist_cons_self _ _
    · exact (erase_sublist rest).cons_cons _

theorem keyed_erase (h : Keyed m) : Keyed (erase k m) :=
  h.sublist ((erase_sublist m).map _)

theorem not_mem_erase : ∀ {m : List (κ × β)}, Keyed m → k ∉ (erase k m).map Prod.fst
  | [], _ => by simp [erase]
  | (k', v') :: rest, h => by
    rw [Keyed, List.map_cons, List.nodup_cons] at h
    rw [erase]
    split_ifs with hk
    · rw [hk]
      exact h.1
    · rw [List.map_cons, List.mem_cons, not_or]
      exact ⟨hk, not_mem_erase h.2⟩

theorem insert_perm : ∀ {m : List (κ × β)}, k ∉ m.map Prod.fst →
    (insert lt k v m).Perm ((k, v) :: m)
  | [], _ => .refl _
  | (k', v') :: rest, h => by
    rw [List.map_cons, List.mem_cons, not_or] at h
    rw [insert, if_neg h.1]
    split_ifs
    · exact .refl _
    · exact ((insert_perm h.2).cons _).trans (.swap ..)

theorem not_mem_of_find (hm : Keyed m) (h : find k m = none) : k ∉ m.map Prod.fst := by
  intro hk
  obtain ⟨⟨k', v⟩, hv, rfl⟩ := List.mem_map.mp hk
  rw [find_of_mem hm hv] at h
  cases h

/-- A new key bound, up to the order. -/
theorem bind_perm {m : List (κ × β)} (hm : Keyed m) (h : find k m = none) :
    (insert lt k v m).Perm ((k, v) :: m) :=
  insert_perm (not_mem_of_find hm h)

theorem keyed_bind (hm : Keyed m) (h : find k m = none) : Keyed (insert lt k v m) := by
  have hp : ((insert lt k v m).map Prod.fst).Perm (k :: m.map Prod.fst) := (bind_perm hm h).map _
  exact hp.nodup_iff.mpr (List.nodup_cons.mpr ⟨not_mem_of_find hm h, hm⟩)

theorem find_bind_self (hm : Keyed m) (h : find k m = none) : find k (insert lt k v m) = some v :=
  find_of_mem (keyed_bind hm h) ((bind_perm hm h).symm.subset List.mem_cons_self)

/-- A new key leaves the bindings as they are. -/
theorem find_bind (hm : Keyed m) (h : find k m = none) (h' : find k' m = some w) :
    find k' (insert lt k v m) = some w :=
  find_of_mem (keyed_bind hm h)
    ((bind_perm hm h).symm.subset (List.mem_cons_of_mem _ (mem_of_find h')))

/-- A key rebound, up to the order. -/
theorem rebind_perm (h : Keyed m) : (insert lt k v (erase k m)).Perm ((k, v) :: erase k m) :=
  insert_perm (not_mem_erase h)

theorem keyed_rebind (h : Keyed m) : Keyed (insert lt k v (erase k m)) := by
  have hp : ((insert lt k v (erase k m)).map Prod.fst).Perm (k :: (erase k m).map Prod.fst) :=
    (rebind_perm h).map _
  exact hp.nodup_iff.mpr (List.nodup_cons.mpr ⟨not_mem_erase h, keyed_erase h⟩)

/-- The bindings after a key is rebound. -/
theorem mem_rebind (h : Keyed m) :
    (k', w) ∈ insert lt k v (erase k m) ↔ (k' = k ∧ w = v) ∨ (k' ≠ k ∧ (k', w) ∈ m) := by
  rw [(rebind_perm h).mem_iff, List.mem_cons, Prod.mk.injEq]
  refine or_congr_right ?_
  constructor
  · intro hm
    refine ⟨?_, (erase_sublist m).subset hm⟩
    rintro rfl
    exact not_mem_erase h (List.mem_map.mpr ⟨_, hm, rfl⟩)
  · rintro ⟨hne, hm⟩
    cases hf : find k m with
    | none =>
      rw [erase_of_find hf]
      exact hm
    | some u =>
      rcases List.mem_cons.mp ((perm_of_find hf).subset hm) with he | he
      · cases he
        exact absurd rfl hne
      · exact he

end LibarchiveOxide.Lib.SortedMap
