import Mathlib.Tactic

/-! # Blocks of a sequence

`blocks n l` is `l` cut into consecutive blocks of `n` elements, the last one shorter if need be. A
reader that is given `l` piece by piece keeps the blocks that are complete and what is left of the
sequence; `Cut` says that it has kept the right ones, and determines them. -/

namespace LibarchiveOxide.Lib.Blocks

variable {α : Type*} {n : ℕ} {l rest rest' : List α} {full full' : List (List α)}

/-- The consecutive blocks. -/
def blocks (n : ℕ) (l : List α) : List (List α) :=
  (List.range ((l.length + n - 1) / n)).map fun i => (l.drop (i * n)).take n

@[simp] theorem blocks_nil (hn : 0 < n) : blocks n ([] : List α) = [] := by
  simp [blocks, Nat.div_eq_of_lt (show n - 1 < n by omega)]

/-- A last block. -/
theorem blocks_of_short (hl : l ≠ []) (hn : l.length < n) : blocks n l = [l] := by
  have hpos := List.length_pos_of_ne_nil hl
  have hone : (l.length + n - 1) / n = 1 := by
    rw [Nat.div_eq_iff (by omega)]
    omega
  rw [blocks, hone]
  simp [List.take_of_length_le hn.le]

/-- A complete block in front. -/
theorem blocks_append {b : List α} (hn : 0 < n) (hb : b.length = n) (l : List α) :
    blocks n (b ++ l) = b :: blocks n l := by
  have hcount : ((b ++ l).length + n - 1) / n = (l.length + n - 1) / n + 1 := by
    rw [List.length_append, hb, ← Nat.add_div_right _ hn]
    congr 1
    omega
  rw [blocks, hcount, List.range_succ_eq_map, List.map_cons, List.map_map]
  congr 1
  · rw [Nat.zero_mul, List.drop_zero, List.take_append_of_le_length hb.ge,
      List.take_of_length_le hb.le]
  · refine List.map_congr_left fun i _ => ?_
    have hi : (i + 1) * n = b.length + i * n := by rw [hb, Nat.succ_mul, Nat.add_comm]
    rw [Function.comp_apply, Nat.succ_eq_add_one, hi, ← List.drop_drop, List.drop_left]

/-- A sequence is empty, less than a block, or a block with a sequence behind it. -/
theorem blocks_induction {P : List α → Prop} (hn : 0 < n) (nil : P [])
    (short : ∀ l, l ≠ [] → l.length < n → P l)
    (step : ∀ b l, b.length = n → P l → P (b ++ l)) (l : List α) : P l := by
  induction hlen : l.length using Nat.strong_induction_on generalizing l with
  | _ len ih =>
    rcases Nat.lt_or_ge l.length n with hlt | hge
    · by_cases hl : l = []
      · rw [hl]
        exact nil
      · exact short l hl hlt
    · rw [← List.take_append_drop n l]
      refine step _ _ (List.length_take_of_le hge) (ih _ ?_ _ rfl)
      rw [List.length_drop]
      omega

theorem blocks_ne_nil (hn : 0 < n) (hl : l ≠ []) : blocks n l ≠ [] := by
  rcases Nat.lt_or_ge l.length n with hlt | hge
  · rw [blocks_of_short hl hlt]
    exact List.cons_ne_nil _ _
  · rw [← List.take_append_drop n l, blocks_append hn (List.length_take_of_le hge)]
    exact List.cons_ne_nil _ _

end LibarchiveOxide.Lib.Blocks

/-! # Chunks of a list

A list is cut into chunks of `k` elements, the last of which may be shorter. -/

namespace LibarchiveOxide.Lib.Chunks

variable {α : Type*} {k m : ℕ} {xs ys : List α}

/-- The chunks of `k` elements of a list. -/
def chunks (k : ℕ) (xs : List α) : List (List α) :=
  (List.range ((xs.length + (k - 1)) / k)).map fun i => (xs.drop (i * k)).take k

theorem length_chunks : (chunks k xs).length = (xs.length + (k - 1)) / k := by
  unfold chunks
  rw [List.length_map, List.length_range]

@[simp] theorem chunks_nil : chunks k ([] : List α) = [] := by
  rw [← List.length_eq_zero_iff, length_chunks, List.length_nil, Nat.zero_add]
  rcases Nat.eq_zero_or_pos k with rfl | hk
  · rfl
  · exact Nat.div_eq_of_lt (by omega)

/-- The first chunk, and those of the rest. -/
theorem chunks_cons (hk : 0 < k) (h : xs ≠ []) : chunks k xs = xs.take k :: chunks k (xs.drop k) := by
  have hpos := List.length_pos_iff.mpr h
  have hcount : (xs.length + (k - 1)) / k = ((xs.drop k).length + (k - 1)) / k + 1 := by
    rw [List.length_drop, ← Nat.add_div_right _ hk]
    by_cases hle : k ≤ xs.length
    · congr 1
      omega
    · have hone : xs.length + (k - 1) = xs.length - 1 + k := by omega
      rw [hone, Nat.add_div_right _ hk, Nat.div_eq_of_lt (by omega)]
      have hsub : xs.length - k + (k - 1) + k = k - 1 + k := by omega
      rw [hsub, Nat.add_div_right _ hk, Nat.div_eq_of_lt (by omega)]
  unfold chunks
  rw [hcount, List.range_succ_eq_map, List.map_cons, List.map_map]
  refine congrArg₂ _ (by simp) (List.map_congr_left fun i _ => ?_)
  rw [Function.comp_apply, List.drop_drop]
  congr 2
  rw [Nat.succ_mul, Nat.add_comm]

theorem chunks_of_le (hk : 0 < k) (h : xs ≠ []) (hle : xs.length ≤ k) : chunks k xs = [xs] := by
  rw [chunks_cons hk h, List.take_of_length_le hle, List.drop_eq_nil_of_le hle, chunks_nil]

/-- A list of full chunks in front. -/
theorem chunks_append (hk : 0 < k) : ∀ {q : ℕ} {xs : List α}, xs.length = q * k →
    chunks k (xs ++ ys) = chunks k xs ++ chunks k ys
  | 0, xs, h => by
    obtain rfl := List.length_eq_zero_iff.mp (h.trans (Nat.zero_mul k))
    rw [chunks_nil, List.nil_append, List.nil_append]
  | q + 1, xs, h => by
    rw [Nat.succ_mul] at h
    have hxs : xs ≠ [] := List.length_pos_iff.mp (by omega)
    have hdrop : (xs.drop k).length = q * k := by
      rw [List.length_drop]
      omega
    rw [chunks_cons hk hxs, chunks_cons hk (List.append_ne_nil_of_left_ne_nil hxs ys),
      List.take_append_of_le_length (by omega), List.drop_append_of_le_length (by omega),
      chunks_append hk hdrop, List.cons_append]

/-- The chunks of a list, from the front. -/
theorem chunks_induction (hk : 0 < k) {P : List α → Prop} (nil : P [])
    (cons : ∀ xs, xs ≠ [] → P (xs.drop k) → P xs) : ∀ xs, P xs := by
  intro xs
  induction hn : xs.length using Nat.strong_induction_on generalizing xs with
  | _ n ih =>
    by_cases hxs : xs = []
    · rw [hxs]
      exact nil
    · have hpos := List.length_pos_iff.mpr hxs
      exact cons xs hxs (ih _ (by rw [List.length_drop]; omega) _ rfl)

@[simp] theorem flatten_chunks (hk : 0 < k) (xs : List α) : (chunks k xs).flatten = xs := by
  induction xs using chunks_induction hk with
  | nil => rw [chunks_nil, List.flatten_nil]
  | cons xs hxs ih => rw [chunks_cons hk hxs, List.flatten_cons, ih, List.take_append_drop]

/-- The chunks of a list that they cut evenly. -/
theorem length_mem_chunks_of_mod (hk : 0 < k) (xs : List α) :
    xs.length % k = 0 → ∀ c ∈ chunks k xs, c.length = k := by
  induction xs using chunks_induction hk with
  | nil => simp
  | cons xs hxs ih =>
    intro hmod
    have hpos := List.length_pos_iff.mpr hxs
    have hle : k ≤ xs.length := by
      by_contra hlt
      rw [Nat.mod_eq_of_lt (by omega)] at hmod
      omega
    rw [chunks_cons hk hxs]
    refine List.forall_mem_cons.mpr ⟨?_, ih ?_⟩
    · rw [List.length_take]
      omega
    · rw [List.length_drop, ← Nat.mod_eq_sub_mod hle]
      exact hmod

/-- The first `k` of lists of one length, and the others. -/
theorem flatten_take_drop : ∀ {k : ℕ} {ds : List (List α)}, (∀ d ∈ ds, d.length = m) →
    ds.flatten.take (k * m) = (ds.take k).flatten ∧ ds.flatten.drop (k * m) = (ds.drop k).flatten
  | 0, ds, _ => by simp
  | k + 1, [], _ => by simp
  | k + 1, d :: ds, h => by
    obtain ⟨hd, hds⟩ := List.forall_mem_cons.mp h
    obtain ⟨htake, hdrop⟩ := flatten_take_drop (k := k) hds
    have hsum : (k + 1) * m = d.length + k * m := by rw [hd, Nat.succ_mul, Nat.add_comm]
    rw [List.flatten_cons, List.take_succ_cons, List.drop_succ_cons, List.flatten_cons, hsum,
      List.take_length_add_append, List.drop_length_add_append, htake, hdrop]
    exact ⟨rfl, rfl⟩

theorem flatten_ne_nil (hm : 0 < m) {ds : List (List α)} (h : ∀ d ∈ ds, d.length = m)
    (hds : ds ≠ []) : ds.flatten ≠ [] := by
  obtain ⟨d, ds, rfl⟩ := List.exists_cons_of_ne_nil hds
  have hd := h d List.mem_cons_self
  rw [List.flatten_cons]
  exact List.append_ne_nil_of_left_ne_nil (List.length_pos_iff.mp (by omega)) _

/-- **Lists of one length, joined**, have the chunks of the list of them. -/
theorem chunks_flatten (hk : 0 < k) (hm : 0 < m) (ds : List (List α)) :
    (∀ d ∈ ds, d.length = m) → chunks (k * m) ds.flatten = (chunks k ds).map List.flatten := by
  induction ds using chunks_induction hk with
  | nil => simp
  | cons ds hds ih =>
    intro h
    obtain ⟨htake, hdrop⟩ := flatten_take_drop (k := k) h
    rw [chunks_cons (Nat.mul_pos hk hm) (flatten_ne_nil hm h hds), htake, hdrop,
      ih fun d hd => h d (List.mem_of_mem_drop hd), chunks_cons hk hds, List.map_cons]

/-! ### Full chunks and what is left -/

/-- The full chunks of a list, joined. -/
def full (k : ℕ) (xs : List α) : List α := xs.take (xs.length / k * k)

/-- What is left behind them. -/
def rest (k : ℕ) (xs : List α) : List α := xs.drop (xs.length / k * k)

theorem full_append_rest (k : ℕ) (xs : List α) : full k xs ++ rest k xs = xs :=
  List.take_append_drop ..

theorem length_full : (full k xs).length = xs.length / k * k := by
  unfold full
  rw [List.length_take]
  exact min_eq_left (Nat.div_mul_le_self ..)

theorem length_rest : (rest k xs).length = xs.length % k := by
  unfold rest
  rw [List.length_drop]
  have := Nat.div_add_mod' xs.length k
  omega

/-- The chunks are the full ones, and the last one if it is not full. -/
theorem chunks_eq_full_rest (hk : 0 < k) (xs : List α) :
    chunks k xs = chunks k (full k xs) ++ if rest k xs = [] then [] else [rest k xs] := by
  have hsplit : chunks k (full k xs ++ rest k xs) = chunks k (full k xs) ++ chunks k (rest k xs) :=
    chunks_append hk length_full
  rw [full_append_rest] at hsplit
  rw [hsplit]
  split_ifs with h
  · rw [h, chunks_nil]
  · rw [chunks_of_le hk h]
    rw [length_rest]
    exact (Nat.mod_lt _ hk).le

/-- More elements that do not complete a chunk. -/
theorem append_partial (h : (rest k xs).length + ys.length < k) :
    full k (xs ++ ys) = full k xs ∧ rest k (xs ++ ys) = rest k xs ++ ys := by
  rw [length_rest] at h
  have hdiv : (xs.length + ys.length) / k = xs.length / k := by
    have hsplit := Nat.div_add_mod xs.length k
    have hsum : xs.length + ys.length = xs.length % k + ys.length + k * (xs.length / k) := by omega
    rw [hsum, Nat.add_mul_div_left _ _ (by omega), Nat.div_eq_of_lt h, Nat.zero_add]
  have hle : xs.length / k * k ≤ xs.length := Nat.div_mul_le_self ..
  unfold full rest
  rw [List.length_append, hdiv]
  exact ⟨List.take_append_of_le_length hle, List.drop_append_of_le_length hle⟩

/-- More elements that complete a chunk. -/
theorem append_full (hk : 0 < k) (h : (rest k xs).length + ys.length = k) :
    full k (xs ++ ys) = xs ++ ys ∧ rest k (xs ++ ys) = [] ∧
      chunks k (full k (xs ++ ys)) = chunks k (full k xs) ++ [rest k xs ++ ys] := by
  have hmod : (xs ++ ys).length % k = 0 := by
    rw [length_rest] at h
    rw [List.length_append, ← Nat.mod_add_mod, h, Nat.mod_self]
  have hlength : (xs ++ ys).length / k * k = (xs ++ ys).length :=
    Nat.div_mul_cancel (Nat.dvd_of_mod_eq_zero hmod)
  have hfull : full k (xs ++ ys) = xs ++ ys := by
    unfold full
    rw [hlength, List.take_length]
  refine ⟨hfull, ?_, ?_⟩
  · unfold rest
    rw [hlength, List.drop_length]
  · have hsplit : xs ++ ys = full k xs ++ (rest k xs ++ ys) := by
      rw [← List.append_assoc, full_append_rest]
    have hcount : (rest k xs ++ ys).length = k := by rw [List.length_append, h]
    have hlast : chunks k (rest k xs ++ ys) = [rest k xs ++ ys] :=
      chunks_of_le hk (List.length_pos_iff.mp (by omega)) hcount.le
    rw [hfull, hsplit, chunks_append hk length_full, hlast]

end LibarchiveOxide.Lib.Chunks
