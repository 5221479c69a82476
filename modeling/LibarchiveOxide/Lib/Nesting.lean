import LibarchiveOxide.Lib.Slice

/-! # Nested values, and a stack of their ends

A value is a header, which tells how long the content is and whether the content is a sequence of
values again, and the content. `Values d n l` says that `l` is a sequence of values, `n` in all, with at
most `d` sequences open at once. A reader with a stack of the ends of the open sequences has to find
`Spans`: a sequence up to the innermost end, and one behind each end up to the next. -/

namespace LibarchiveOxide.Lib.Nesting

open Lib.Slice

variable {α : Type*}

/-- The headers: the length of the content, and whether it is a sequence. -/
abbrev Headers (α : Type*) := List α → ℕ → Bool → Prop

/-- A header is not empty, and known as soon as it has been read. -/
structure Prefixed (H : Headers α) : Prop where
  ne_nil : ∀ {h len opens}, H h len opens → h ≠ []
  unique : ∀ {h h' t t' len len' opens opens'}, H h len opens → H h' len' opens' →
    h ++ t = h' ++ t' → h = h' ∧ len = len' ∧ opens = opens'

/-- A sequence of values, and of values inside of them. -/
inductive Values (H : Headers α) : ℕ → ℕ → List α → Prop where
  | nil {d : ℕ} : Values H d 0 []
  | leaf {d n len : ℕ} {opens : Bool} {h c rest : List α} : H h len opens →
      (opens = false ∨ len = 0) → c.length = len → Values H d n rest →
      Values H d (n + 1) (h ++ c ++ rest)
  | node {d m n len : ℕ} {h c rest : List α} : H h len true → len ≠ 0 → c.length = len →
      Values H d m c → Values H (d + 1) n rest → Values H (d + 1) (m + n + 1) (h ++ c ++ rest)

variable {H : Headers α} {d m n len : ℕ} {opens : Bool} {h c rest l data : List α}

/-- Sequences that are not empty begin with a header and its content. -/
theorem Values.first (hv : Values H d n l) (hl : l ≠ []) :
    ∃ h len opens c rest, H h len opens ∧ c.length = len ∧ l = h ++ c ++ rest := by
  cases hv with
  | nil => exact absurd rfl hl
  | leaf hh _ hc _ => exact ⟨_, _, _, _, _, hh, hc, rfl⟩
  | node hh _ hc _ _ => exact ⟨_, _, _, _, _, hh, hc, rfl⟩

/-- No values, no bytes. -/
theorem Values.eq_nil (hv : Values H d n l) (hn : n = 0) : l = [] := by
  cases hv with
  | nil => rfl
  | leaf _ _ _ _ => cases hn
  | node _ _ _ _ _ => cases hn

@[simp] theorem values_nil (hH : Prefixed H) : Values H d n [] ↔ n = 0 := by
  constructor
  · intro hv
    generalize hl : ([] : List α) = l at hv
    cases hv with
    | nil => rfl
    | leaf hh _ _ _ =>
      exact absurd (List.append_eq_nil_iff.mp (List.append_eq_nil_iff.mp hl.symm).1).1 (hH.ne_nil hh)
    | node hh _ _ _ _ =>
      exact absurd (List.append_eq_nil_iff.mp (List.append_eq_nil_iff.mp hl.symm).1).1 (hH.ne_nil hh)
  · rintro rfl
    exact .nil

/-- The first value is determined by its header. -/
theorem first_unique (hH : Prefixed H) {h' c' rest' : List α} {len' : ℕ} {opens' : Bool}
    (hh : H h len opens) (hc : c.length = len) (hh' : H h' len' opens') (hc' : c'.length = len')
    (heq : h ++ c ++ rest = h' ++ c' ++ rest') :
    h = h' ∧ len = len' ∧ opens = opens' ∧ c = c' ∧ rest = rest' := by
  rw [List.append_assoc, List.append_assoc] at heq
  obtain ⟨rfl, rfl, rfl⟩ := hH.unique hh hh' heq
  obtain ⟨rfl, rfl⟩ := List.append_inj (List.append_cancel_left heq) (hc.trans hc'.symm)
  exact ⟨rfl, rfl, rfl, rfl, rfl⟩

/-- A sequence whose first value has no values inside. -/
theorem values_leaf (hH : Prefixed H) (hh : H h len opens) (hleaf : opens = false ∨ len = 0)
    (hc : c.length = len) :
    Values H d n (h ++ c ++ rest) ↔ ∃ k, n = k + 1 ∧ Values H d k rest := by
  constructor
  · intro hv
    generalize hl : h ++ c ++ rest = l at hv
    cases hv with
    | nil =>
      exact absurd (List.append_eq_nil_iff.mp (List.append_eq_nil_iff.mp hl).1).1 (hH.ne_nil hh)
    | leaf hh' _ hc' hrest =>
      obtain ⟨-, -, -, -, rfl⟩ := first_unique hH hh hc hh' hc' hl
      exact ⟨_, rfl, hrest⟩
    | node hh' hne hc' _ _ =>
      obtain ⟨-, rfl, rfl, -, -⟩ := first_unique hH hh hc hh' hc' hl
      rcases hleaf with hleaf | hleaf
      · cases hleaf
      · exact absurd hleaf hne
  · rintro ⟨k, rfl, hrest⟩
    exact .leaf hh hleaf hc hrest

/-- A sequence whose first value is a sequence of its own. -/
theorem values_node (hH : Prefixed H) (hh : H h len true) (hne : len ≠ 0) (hc : c.length = len) :
    Values H d n (h ++ c ++ rest) ↔
      0 < d ∧ ∃ m k, n = m + k + 1 ∧ Values H (d - 1) m c ∧ Values H d k rest := by
  constructor
  · intro hv
    generalize hl : h ++ c ++ rest = l at hv
    cases hv with
    | nil =>
      exact absurd (List.append_eq_nil_iff.mp (List.append_eq_nil_iff.mp hl).1).1 (hH.ne_nil hh)
    | leaf hh' hleaf hc' _ =>
      obtain ⟨-, rfl, rfl, -, -⟩ := first_unique hH hh hc hh' hc' hl
      rcases hleaf with hleaf | hleaf
      · cases hleaf
      · exact absurd hleaf hne
    | node hh' _ hc' hin hrest =>
      obtain ⟨-, -, -, rfl, rfl⟩ := first_unique hH hh hc hh' hc' hl
      exact ⟨Nat.succ_pos _, _, _, rfl, hin, hrest⟩
  · rintro ⟨hd, m, k, rfl, hin, hrest⟩
    obtain ⟨d, rfl⟩ : ∃ d', d = d' + 1 := ⟨d - 1, by omega⟩
    exact .node hh hne hc hin hrest

/-! ### Open sequences -/

variable (H) (data)

/-- What a reader at `p` still has to find, if these are the ends of the open sequences, the innermost
first, and at most `d` may be open at once: `n` values in all. -/
def Spans (d : ℕ) : ℕ → List ℕ → ℕ → Prop
  | p, [], n => Values H d n (window data p data.length)
  | p, e :: es, n =>
    ∃ m k, n = m + k ∧ Values H (d - (es.length + 1)) m (window data p e) ∧ Spans d e es k

/-- The end of the innermost open sequence. -/
def innermost (ends : List ℕ) : ℕ := ends.headD data.length

/-- What is behind the innermost open sequence. -/
def Outer (d : ℕ) : List ℕ → ℕ → Prop
  | [], n => n = 0
  | e :: es, n => Spans H data d e es n

variable {H data}

variable {p q : ℕ} {ends : List ℕ}

theorem spans_iff : Spans H data d p ends n ↔ ∃ m k, n = m + k ∧
    Values H (d - ends.length) m (window data p (innermost data ends)) ∧ Outer H data d ends k := by
  cases ends with
  | nil =>
    constructor
    · intro hs
      exact ⟨n, 0, rfl, hs, rfl⟩
    · rintro ⟨m, k, rfl, hv, rfl⟩
      exact hv
  | cons e es => rfl

/-- The innermost sequence is over. -/
theorem spans_pop (hH : Prefixed H) : Spans H data d p (p :: ends) n ↔ Spans H data d p ends n := by
  have hnil : window data p p = [] := by rw [window, Nat.sub_self, List.take_zero]
  rw [Spans, hnil]
  constructor
  · rintro ⟨m, k, rfl, hv, hs⟩
    obtain rfl := (values_nil hH).mp hv
    rwa [Nat.zero_add]
  · intro hs
    exact ⟨0, n, (Nat.zero_add n).symm, .nil, hs⟩

theorem spans_end (hH : Prefixed H) : Spans H data d data.length [] n ↔ n = 0 := by
  have hnil : window data data.length data.length = [] := by
    rw [window, Nat.sub_self, List.take_zero]
  rw [Spans, hnil, values_nil hH]

/-- A header at `p`, with its content. -/
structure HeaderAt (H : Headers α) (data : List α) (p q len : ℕ) (opens : Bool) : Prop where
  header : H (window data p q) len opens
  le : p ≤ q

theorem HeaderAt.window_eq (ha : HeaderAt H data p q len opens) {stop : ℕ} (hstop : q + len ≤ stop) :
    window data p stop = window data p q ++ window data q (q + len) ++ window data (q + len) stop := by
  rw [window_join data ha.le (Nat.le_add_right q len),
    window_join data (ha.le.trans (Nat.le_add_right q len)) hstop]

theorem length_content (hq : q + len ≤ data.length) :
    (window data q (q + len)).length = len := by
  rw [length_window_of_le hq, Nat.add_sub_cancel_left]

/-- **A value without values inside** is passed. -/
theorem spans_leaf (hH : Prefixed H) (ha : HeaderAt H data p q len opens)
    (hleaf : opens = false ∨ len = 0) (hin : q + len ≤ innermost data ends)
    (hdata : q + len ≤ data.length) :
    Spans H data d p ends n ↔ ∃ k, n = k + 1 ∧ Spans H data d (q + len) ends k := by
  have hv : ∀ m, Values H (d - ends.length) m (window data p (innermost data ends)) ↔
      ∃ k, m = k + 1 ∧ Values H (d - ends.length) k
        (window data (q + len) (innermost data ends)) := fun m => by
    rw [ha.window_eq hin]
    exact values_leaf hH ha.header hleaf (length_content hdata)
  rw [spans_iff]
  constructor
  · rintro ⟨m, k, rfl, hm, hk⟩
    obtain ⟨i, rfl, hi⟩ := (hv m).mp hm
    exact ⟨i + k, by omega, spans_iff.mpr ⟨i, k, rfl, hi, hk⟩⟩
  · rintro ⟨j, rfl, hs⟩
    obtain ⟨m, k, rfl, hm, hk⟩ := spans_iff.mp hs
    exact ⟨m + 1, k, by omega, (hv _).mpr ⟨m, rfl, hm⟩, hk⟩

/-- **A sequence is entered**, if there may be one more. -/
theorem spans_node (hH : Prefixed H) (ha : HeaderAt H data p q len true) (hne : len ≠ 0)
    (hin : q + len ≤ innermost data ends) (hdata : q + len ≤ data.length) :
    Spans H data d p ends n ↔
      ends.length < d ∧ ∃ k, n = k + 1 ∧ Spans H data d q ((q + len) :: ends) k := by
  have hv : ∀ m, Values H (d - ends.length) m (window data p (innermost data ends)) ↔
      0 < d - ends.length ∧ ∃ i k, m = i + k + 1 ∧
        Values H (d - ends.length - 1) i (window data q (q + len)) ∧
        Values H (d - ends.length) k (window data (q + len) (innermost data ends)) := fun m => by
    rw [ha.window_eq hin]
    exact values_node hH ha.header hne (length_content hdata)
  rw [spans_iff]
  constructor
  · rintro ⟨m, k, rfl, hm, hk⟩
    obtain ⟨hd, i, j, rfl, hi, hj⟩ := (hv m).mp hm
    refine ⟨by omega, i + (j + k), by omega, i, j + k, rfl, ?_, spans_iff.mpr ⟨j, k, rfl, hj, hk⟩⟩
    rwa [← Nat.sub_sub]
  · rintro ⟨hd, k, rfl, i, o, rfl, hi, ho⟩
    obtain ⟨j, k, rfl, hj, hk⟩ := spans_iff.mp ho
    rw [← Nat.sub_sub] at hi
    exact ⟨i + j + 1, k, by omega, (hv _).mpr ⟨by omega, i, j, rfl, hi, hj⟩, hk⟩

/-- **Where there is no value** there is no sequence. -/
theorem Spans.header (hs : Spans H data d p ends n) (hp : p < innermost data ends)
    (hin : innermost data ends ≤ data.length) :
    ∃ q len opens, HeaderAt H data p q len opens ∧ q + len ≤ innermost data ends := by
  obtain ⟨m, k, -, hv, -⟩ := spans_iff.mp hs
  have hlen := length_window_of_le (a := p) hin
  obtain ⟨h, len, opens, c, rest, hh, hc, hl⟩ := hv.first
    (List.ne_nil_of_length_pos (by rw [hlen]; omega))
  rw [hl] at hlen
  simp only [List.length_append] at hlen
  have hwindow : window data p (p + h.length) = h := by
    have htake := congrArg (List.take h.length) hl
    rw [List.append_assoc, List.take_left, window, List.take_take, min_eq_left (by omega)] at htake
    rw [window, Nat.add_sub_cancel_left]
    exact htake
  exact ⟨p + h.length, len, opens, ⟨by rw [hwindow]; exact hh, Nat.le_add_right _ _⟩, by omega⟩

end LibarchiveOxide.Lib.Nesting
