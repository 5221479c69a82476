import Mathlib.Tactic

/-! # Windows of a list and copies into it

`window l a b` is the slice `l[a..b]` and `splice l i v` the list after `v` is copied to its positions
`i, …, i + |v| - 1`. A window of a splice is the copied part if it is the copied range, the old
window if the two ranges are disjoint, and a splice of the window if it contains the range. -/

namespace LibarchiveOxide.Lib.Slice

variable {α : Type*} {v : List α}

/-- The slice `l[a..b]`. -/
def window (l : List α) (a b : ℕ) : List α := (l.drop a).take (b - a)

/-- `l[i..i + v.len()].copy_from_slice(v)`. -/
def splice (l : List α) (i : ℕ) (v : List α) : List α := l.take i ++ v ++ l.drop (i + v.length)

theorem length_window (l : List α) (a b : ℕ) :
    (window l a b).length = min (b - a) (l.length - a) := by simp [window]

variable {a b : ℕ}

theorem length_window_of_le {l : List α} (h : b ≤ l.length) :
    (window l a b).length = b - a := by rw [length_window]; omega

variable {i : ℕ}

theorem length_splice {l : List α} (h : i + v.length ≤ l.length) :
    (splice l i v).length = l.length := by
  simp only [splice, List.length_append, List.length_take, List.length_drop]; omega

theorem getElem?_window (l : List α) (a b j : ℕ) :
    (window l a b)[j]? = if j < b - a then l[a + j]? else none := by
  unfold window
  rw [List.getElem?_take, List.getElem?_drop]

theorem getElem?_splice {l : List α} (h : i + v.length ≤ l.length) (j : ℕ) :
    (splice l i v)[j]? = if i ≤ j ∧ j < i + v.length then v[j - i]? else l[j]? := by
  have hi : (l.take i).length = i := by simp; omega
  unfold splice
  by_cases h1 : j < i
  · rw [if_neg (by omega), List.append_assoc, List.getElem?_append_left (by omega),
      List.getElem?_take, if_pos h1]
  · by_cases h2 : j < i + v.length
    · rw [if_pos ⟨by omega, h2⟩, List.getElem?_append_left (by simp; omega),
        List.getElem?_append_right (by omega), hi]
    · rw [if_neg (by omega), List.getElem?_append_right (by simp; omega), List.getElem?_drop]
      congr 1
      simp; omega

theorem window_splice_self {l : List α} (h : i + v.length ≤ l.length) :
    window (splice l i v) i (i + v.length) = v := by
  refine List.ext_getElem? fun j => ?_
  rw [getElem?_window, getElem?_splice h]
  by_cases hj : j < v.length
  · rw [if_pos (by omega), if_pos (by omega), Nat.add_sub_cancel_left]
  · rw [if_neg (by omega), List.getElem?_eq_none (by omega)]

theorem window_splice_of_disjoint {l : List α} (h : i + v.length ≤ l.length)
    (hd : b ≤ i ∨ i + v.length ≤ a) : window (splice l i v) a b = window l a b := by
  refine List.ext_getElem? fun j => ?_
  rw [getElem?_window, getElem?_window]
  by_cases hj : j < b - a
  · rw [if_pos hj, if_pos hj, getElem?_splice h, if_neg (by omega)]
  · rw [if_neg hj, if_neg hj]

/-- A copy inside a window. -/
theorem window_splice_of_le {l : List α} (ha : a ≤ i) (hb : i + v.length ≤ b) (hl : b ≤ l.length) :
    window (splice l i v) a b = splice (window l a b) (i - a) v := by
  have hw := length_window_of_le (a := a) hl
  refine List.ext_getElem? fun j => ?_
  rw [getElem?_window, getElem?_splice (by omega), getElem?_splice (by omega), getElem?_window]
  by_cases hj : j < b - a
  · rw [if_pos hj, if_pos hj]
    by_cases h1 : i ≤ a + j ∧ a + j < i + v.length
    · rw [if_pos h1, if_pos (by omega)]
      congr 1
      omega
    · rw [if_neg h1, if_neg (by omega)]
  · rw [if_neg hj, if_neg hj, if_neg (by omega)]

/-- The first part of a list of equal elements overwritten. -/
theorem splice_replicate_zero (n : ℕ) (x : α) (v : List α) :
    splice (List.replicate n x) 0 v = v ++ List.replicate (n - v.length) x := by
  simp [splice]

theorem window_all (l : List α) : window l 0 l.length = l := by simp [window]

theorem window_replicate {n : ℕ} (x : α) (h : b ≤ n) :
    window (List.replicate n x) a b = List.replicate (b - a) x := by
  unfold window
  rw [List.drop_replicate, List.take_replicate, min_eq_left (by omega)]

theorem window_append_left {l r : List α} (h : b ≤ l.length) :
    window (l ++ r) a b = window l a b := by
  refine List.ext_getElem? fun j => ?_
  rw [getElem?_window, getElem?_window]
  by_cases hj : j < b - a
  · rw [if_pos hj, if_pos hj, List.getElem?_append_left (by omega)]
  · rw [if_neg hj, if_neg hj]

theorem window_append_right {l r : List α} (h : l.length ≤ a) :
    window (l ++ r) a b = window r (a - l.length) (b - l.length) := by
  rw [window, window, List.drop_append, List.drop_eq_nil_of_le h, List.nil_append]
  congr 1
  omega

/-- Two windows that meet. -/
theorem window_join (l : List α) {c : ℕ} (hab : a ≤ b) (hbc : b ≤ c) :
    window l a b ++ window l b c = window l a c := by
  have hc : c - a = (b - a) + (c - b) := by omega
  have hb : l.drop b = (l.drop a).drop (b - a) := by
    rw [List.drop_drop]
    congr 1
    omega
  rw [window, window, window, hc, List.take_add, hb]

/-- A window of a window. -/
theorem window_window (l : List α) {c d : ℕ} (h : c + d ≤ b) :
    window (window l a (a + b)) c (c + d) = window l (a + c) (a + c + d) := by
  refine List.ext_getElem? fun j => ?_
  rw [getElem?_window, getElem?_window, getElem?_window]
  by_cases hj : j < d
  · rw [if_pos (by omega), if_pos (by omega), if_pos (by omega), Nat.add_assoc]
  · rw [if_neg (by omega), if_neg (by omega)]

theorem window_take (l : List α) {n : ℕ} (h : b ≤ n) : window (l.take n) a b = window l a b := by
  refine List.ext_getElem? fun j => ?_
  rw [getElem?_window, getElem?_window, List.getElem?_take]
  by_cases hj : j < b - a
  · rw [if_pos hj, if_pos hj, if_pos (by omega)]
  · rw [if_neg hj, if_neg hj]

/-- A piece of a list that is made of pieces. -/
theorem window_flatten (r : List α) : ∀ (ls : List (List α)) (i : ℕ) {v : List α},
    ls[i]? = some v → window (ls.flatten ++ r) ((ls.take i).map List.length).sum
      (((ls.take i).map List.length).sum + v.length) = v
  | [], i, v, h => by simp at h
  | l :: ls, 0, v, h => by
    rw [List.getElem?_cons_zero, Option.some.injEq] at h
    subst h
    simp only [List.take_zero, List.map_nil, List.sum_nil, Nat.zero_add, List.flatten_cons,
      List.append_assoc]
    rw [window_append_left le_rfl, window_all]
  | l :: ls, i + 1, v, h => by
    rw [List.getElem?_cons_succ] at h
    rw [List.take_succ_cons, List.map_cons, List.sum_cons, List.flatten_cons, List.append_assoc,
      window_append_right (by omega), Nat.add_assoc, Nat.add_sub_cancel_left,
      Nat.add_sub_cancel_left]
    exact window_flatten r ls i h

theorem take_min_length (l : List α) (n : ℕ) : l.take (min n l.length) = l.take n := by
  rw [List.take_eq_take_iff]
  omega

/-- Filling up to `n` elements from two pieces, the first of which does not suffice. -/
theorem fill_append {p l : List α} {n : ℕ} (h : p.length + l.length ≤ n) (r : List α) :
    p ++ (l ++ r).take (n - p.length) = p ++ l ++ r.take (n - (p ++ l).length) := by
  have hn : n - p.length = l.length + (n - (p ++ l).length) := by
    rw [List.length_append]
    omega
  rw [hn, List.take_length_add_append, List.append_assoc]

end LibarchiveOxide.Lib.Slice

/-! # Several copies into a list

`spliceAll l copies` is the list after slices are copied into it, one after another. A window shows the
last copy that meets it. -/

namespace LibarchiveOxide.Lib.Copies

open Lib.Slice

/-- The list after copies to several positions, one after another. -/
def spliceAll {α : Type*} (l : List α) (copies : List (ℕ × List α)) : List α :=
  copies.foldl (fun l c => splice l c.1 c.2) l

variable {α : Type*} {l : List α} {copies before after : List (ℕ × List α)}

/-- The copies lie inside a list of length `n`. -/
def Fit (n : ℕ) (copies : List (ℕ × List α)) : Prop := ∀ c ∈ copies, c.1 + c.2.length ≤ n

/-- The copies go to other places. -/
def Clear (a b : ℕ) (copies : List (ℕ × List α)) : Prop :=
  ∀ c ∈ copies, b ≤ c.1 ∨ c.1 + c.2.length ≤ a

theorem Clear.append {a b : ℕ} (h : Clear a b before) (h' : Clear a b after) :
    Clear a b (before ++ after) := List.forall_mem_append.mpr ⟨h, h'⟩

theorem spliceAll_append : spliceAll l (before ++ after) = spliceAll (spliceAll l before) after :=
  List.foldl_append

theorem length_spliceAll : ∀ {copies : List (ℕ × List α)} {l : List α}, Fit l.length copies →
    (spliceAll l copies).length = l.length
  | [], _, _ => rfl
  | c :: copies, l, h => by
    obtain ⟨hc, h⟩ := List.forall_mem_cons.mp h
    have hlength := length_splice hc
    have hrest := length_spliceAll (l := splice l c.1 c.2) (hlength.symm ▸ h)
    exact hrest.trans hlength

/-- Copies to other places keep a window. -/
theorem window_spliceAll_of_disjoint : ∀ {copies : List (ℕ × List α)} {l : List α} {a b : ℕ},
    Fit l.length copies → Clear a b copies →
    window (spliceAll l copies) a b = window l a b
  | [], _, _, _, _, _ => rfl
  | c :: copies, l, a, b, h, hd => by
    obtain ⟨hc, h⟩ := List.forall_mem_cons.mp h
    obtain ⟨hdc, hd⟩ := List.forall_mem_cons.mp hd
    have hlength := length_splice hc
    exact (window_spliceAll_of_disjoint (hlength.symm ▸ h) hd).trans (window_splice_of_disjoint hc hdc)

/-- **A window inside the last copy that meets it.** -/
theorem window_spliceAll {i a b : ℕ} {v : List α} (h : Fit l.length (before ++ (i, v) :: after))
    (ha : i ≤ a) (hb : b ≤ i + v.length) (hd : Clear a b after) :
    window (spliceAll l (before ++ (i, v) :: after)) a b = window v (a - i) (b - i) := by
  obtain ⟨hbefore, hafter⟩ := List.forall_mem_append.mp h
  obtain ⟨hv, hafter⟩ := List.forall_mem_cons.mp hafter
  have hlength := length_spliceAll hbefore
  have hv : i + v.length ≤ (spliceAll l before).length := hlength.symm ▸ hv
  rw [spliceAll_append]
  refine (window_spliceAll_of_disjoint (l := splice (spliceAll l before) i v) ?_ hd).trans ?_
  · rw [length_splice hv, hlength]
    exact hafter
  · refine List.ext_getElem? fun j => ?_
    rw [getElem?_window, getElem?_window, getElem?_splice hv]
    by_cases hj : j < b - a
    · rw [if_pos hj, if_pos (by omega), if_pos (by omega)]
      congr 1
      omega
    · rw [if_neg hj, if_neg (by omega)]

/-- A copy at the front of a range that equal elements were copied to before. -/
theorem window_spliceAll_padded {i n a b : ℕ} {x : α} {u : List α} {between : List (ℕ × List α)}
    (h : Fit l.length (before ++ (i, List.replicate n x) :: (between ++ (a, u) :: after)))
    (ha : i ≤ a) (hb : b ≤ i + n) (hu : a + u.length ≤ b) (hbetween : Clear a b between)
    (hafter : Clear a b after) :
    window (spliceAll l (before ++ (i, List.replicate n x) :: (between ++ (a, u) :: after))) a b =
      u ++ List.replicate (b - a - u.length) x := by
  have hsplit : before ++ (i, List.replicate n x) :: (between ++ (a, u) :: after) =
      (before ++ (i, List.replicate n x) :: between) ++ [(a, u)] ++ after := by simp
  rw [hsplit] at h ⊢
  obtain ⟨hfirst, hlast⟩ := List.forall_mem_append.mp h
  obtain ⟨hpadded, hcopy⟩ := List.forall_mem_append.mp hfirst
  have hb' : b ≤ l.length := by
    have := (List.forall_mem_cons.mp (List.forall_mem_append.mp hpadded).2).1
    rw [List.length_replicate] at this
    omega
  have hlength := length_spliceAll hpadded
  have hfirstLength := length_spliceAll hfirst
  have hwindow := window_spliceAll (a := a) (b := b) hpadded ha
    (by rw [List.length_replicate]; exact hb) hbetween
  rw [spliceAll_append, window_spliceAll_of_disjoint (hfirstLength.symm ▸ hlast) hafter,
    spliceAll_append]
  refine (window_splice_of_le le_rfl hu (hlength.symm ▸ hb')).trans ?_
  rw [hwindow, window_replicate _ (by omega), Nat.sub_self, splice_replicate_zero]
  congr 2
  omega

end LibarchiveOxide.Lib.Copies
