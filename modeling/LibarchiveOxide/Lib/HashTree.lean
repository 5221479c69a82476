import LibarchiveOxide.Lib.Chunks

/-! # Hash trees

The nodes over a level of a tree are the hashes of its chunks of `k` nodes; the root is the hash of a
level that is one chunk (`Root`). Such a tree can be built while its leaves come one after another, from
what is left of each level behind its full chunks (`Carries`): one lemma for a leaf that completes no
chunk, one for a leaf that does, and the same for the end of the leaves. -/

namespace LibarchiveOxide.Lib.HashTree

open Lib.Chunks

variable {α : Type*} (k : ℕ) (hash : List α → α)

/-- The level over a level. -/
def up (ds : List α) : List α := (chunks k ds).map hash

/-- The nodes over the full chunks of a level. -/
def completed (ds : List α) : List α := (chunks k (full k ds)).map hash

/-- The root over a level. -/
inductive Root : List α → α → Prop
  | one {ds : List α} (h : ds.length ≤ k) : Root ds (hash ds)
  | more {ds : List α} {r : α} (h : k < ds.length) (hr : Root (up k hash ds) r) : Root ds r

/-- The number of levels over one of `n` nodes. -/
inductive Height : ℕ → ℕ → Prop
  | one {n : ℕ} (h : n ≤ k) : Height n 1
  | more {n height : ℕ} (h : k < n) (hr : Height ((n + (k - 1)) / k) height) : Height n (height + 1)

/-- **What a tree that is being built holds**: of each level what is left behind its full chunks, and
the root once it is complete. -/
def Carries : List (List α) → List α → Option α → Prop
  | [], ds, root => ds = root.toList
  | b :: bs, ds, root => b = rest k ds ∧ Carries bs (completed k hash ds) root

variable {k hash}

theorem length_up (ds : List α) : (up k hash ds).length = (ds.length + (k - 1)) / k := by
  unfold up
  rw [List.length_map, length_chunks]

theorem length_completed (hk : 0 < k) (ds : List α) :
    (completed k hash ds).length = ds.length / k := by
  unfold completed
  rw [List.length_map, length_chunks, length_full, Nat.add_comm, Nat.add_mul_div_right _ _ hk,
    Nat.div_eq_of_lt (by omega), Nat.zero_add]

theorem up_eq (hk : 0 < k) (ds : List α) :
    up k hash ds = completed k hash ds ++ if rest k ds = [] then [] else [hash (rest k ds)] := by
  unfold up completed
  rw [chunks_eq_full_rest hk, List.map_append]
  split_ifs <;> rfl

theorem up_ne_nil (hk : 0 < k) {ds : List α} (h : ds ≠ []) : up k hash ds ≠ [] := by
  unfold up
  rw [chunks_cons hk h]
  nofun

variable {height : ℕ}

/-- The height of a level is the number of levels from it to the root. -/
theorem Height.root (hk : 0 < k) {n : ℕ} (h : Height k n height) : ∀ {ds : List α},
    ds.length = n → ds ≠ [] → ∃ r, Root k hash ds r ∧ (up k hash)^[height] ds = [r] := by
  induction h with
  | one h =>
    rintro ds rfl hds
    refine ⟨hash ds, .one h, ?_⟩
    rw [Function.iterate_one, up, chunks_of_le hk hds h]
    rfl
  | more h _ ih =>
    rintro ds rfl hds
    obtain ⟨r, hr, hup⟩ := ih (length_up ds) (up_ne_nil hk hds)
    exact ⟨r, .more h hr, by rw [Function.iterate_succ_apply, hup]⟩

theorem Height.le_pow (hk : 0 < k) {n : ℕ} (h : Height k n height) : n ≤ k ^ height := by
  induction h with
  | one h => rwa [pow_one]
  | @more n height _ _ ih =>
    have hle := (Nat.div_le_iff_le_mul_add_pred hk).mp ih
    rw [pow_succ, Nat.mul_comm]
    omega

theorem Height.pos {n : ℕ} (h : Height k n height) : 0 < height := by
  cases h <;> omega

/-! ### Building it -/

theorem carries_nil : ∀ height : ℕ, Carries k hash (List.replicate height []) [] none
  | 0 => rfl
  | height + 1 => by
    refine ⟨?_, ?_⟩
    · unfold rest
      rw [List.drop_nil]
    · have hnone : completed k hash ([] : List α) = [] := by
        unfold completed full
        rw [List.take_nil, chunks_nil]
        rfl
      rw [hnone]
      exact carries_nil height

variable {b : List α} {bs : List (List α)} {ds : List α} {root : Option α} {d : α}

/-- A node that completes no chunk. -/
theorem Carries.snoc (h : Carries k hash (b :: bs) ds root) (hlength : b.length + 1 < k) :
    Carries k hash ((b ++ [d]) :: bs) (ds ++ [d]) root := by
  obtain ⟨rfl, hbs⟩ := h
  obtain ⟨hfull, hrest⟩ := append_partial (show (rest k ds).length + [d].length < k from hlength)
  refine ⟨hrest.symm, ?_⟩
  unfold completed
  rw [hfull]
  exact hbs

/-- A node that completes a chunk: its hash goes to the level above. -/
theorem Carries.snoc_full (hk : 0 < k) (h : Carries k hash (b :: bs) ds root)
    (hlength : b.length + 1 = k) {bs' : List (List α)} {root' : Option α}
    (h' : Carries k hash bs' (completed k hash ds ++ [hash (b ++ [d])]) root') :
    Carries k hash ([] :: bs') (ds ++ [d]) root' := by
  obtain ⟨rfl, -⟩ := h
  obtain ⟨-, hrest, hchunks⟩ :=
    append_full hk (show (rest k ds).length + [d].length = k from hlength)
  refine ⟨hrest.symm, ?_⟩
  unfold completed
  rw [hchunks, List.map_append]
  exact h'

/-- The end of a level with nothing left. -/
theorem Carries.ends (hk : 0 < k) (h : Carries k hash ([] :: bs) ds root) :
    Carries k hash bs (up k hash ds) root := by
  obtain ⟨hrest, hbs⟩ := h
  rw [up_eq hk, if_pos hrest.symm, List.append_nil]
  exact hbs

/-- The end of a level with something left: its hash goes to the level above. -/
theorem Carries.ends_rest (hk : 0 < k) (h : Carries k hash (b :: bs) ds root) (hb : b ≠ []) :
    up k hash ds = completed k hash ds ++ [hash b] := by
  obtain ⟨rfl, -⟩ := h
  rw [up_eq hk, if_neg hb]

theorem Carries.length_lt (hk : 0 < k) (h : Carries k hash (b :: bs) ds root) : b.length < k := by
  obtain ⟨rfl, -⟩ := h
  rw [length_rest]
  exact Nat.mod_lt _ hk

/-- The level above has room for another node if this one has. -/
theorem completed_lt (hk : 0 < k) (h : ds.length < k ^ (height + 1)) :
    (completed k hash ds).length < k ^ height := by
  rw [length_completed hk]
  refine Nat.div_lt_of_lt_mul ?_
  rwa [Nat.mul_comm, ← pow_succ]

/-- A level with something left is not full. -/
theorem Carries.lt_pow (h : Carries k hash (b :: bs) ds root) (hb : b ≠ [])
    (hle : ds.length ≤ k ^ (height + 1)) : ds.length < k ^ (height + 1) := by
  obtain ⟨rfl, -⟩ := h
  refine lt_of_le_of_ne hle fun heq => hb ?_
  rw [← List.length_eq_zero_iff, length_rest, heq, pow_succ, Nat.mul_mod_left]

end LibarchiveOxide.Lib.HashTree
