import LibarchiveOxide.Lib.Result
import LibarchiveOxide.Stream.Filtered

/-! # The budget of the filter reader

A reader of the outer filter that delivers a stream delivers it through `FilterReader` up to the
budget. Behind the budget each read takes one byte of the excess and fails; once the excess is used up
the reader reports the end (`Stands.next`). So the budget is exact and final for the streams within it
and for no other (`exact_iff`). -/

namespace LibarchiveOxide.Stream.Budgeted

open Core.Failure Lib.Result Stream.Event Stream.Filtered

variable {C : Codec} {s : List Byte} {d : ℕ}

/-- `R` says what is still to be delivered: each read gives a piece of it, empty only at the end. -/
def Delivering (C : Codec) (R : List Byte → C.State × Compressed → Prop) : Prop :=
  ∀ {s x}, R s x → ∀ {room}, 0 < room → ∃ k x', C.read room x = (.ok (s.take k), x') ∧ k ≤ room ∧
    (0 < k ∨ s = []) ∧ R (s.drop k) x'

/-- The decoder delivers `s` in pieces, and then nothing for ever. -/
def Delivers (C : Codec) (s : List Byte) (x : C.State × Compressed) : Prop :=
  ∃ R, Delivering C R ∧ R s x

/-! ### Runs -/

/-- The reader after some reads into buffers of these sizes. -/
def after (r : FilterReader C) (sizes : ℕ → ℕ) : ℕ → FilterReader C
  | 0 => r
  | n + 1 => (FilterReader.read (sizes n) (after r sizes n)).2

/-- What a read of the run returns. -/
def answer (r : FilterReader C) (sizes : ℕ → ℕ) (n : ℕ) : Except IoError (List Byte) :=
  (FilterReader.read (sizes n) (after r sizes n)).1

/-- The bytes of an answer. -/
def bytesOf : Except IoError (List Byte) → List Byte
  | .ok bytes => bytes
  | .error _ => []

/-- What the first `n` answers deliver. -/
def delivered (answers : ℕ → Except IoError (List Byte)) (n : ℕ) : List Byte :=
  (List.range n).flatMap fun i => bytesOf (answers i)

/-- **The budget is exact and final**: the answers before the first end or failure deliver the first
`d` bytes of `s`, and all others report the end if that is all of `s`, and fail if it is not. -/
def Exact (s : List Byte) (d : ℕ) (answers : ℕ → Except IoError (List Byte)) : Prop :=
  ∃ n, (∀ i < n, ∃ bytes, bytes ≠ [] ∧ answers i = .ok bytes) ∧ delivered answers n = s.take d ∧
    (s.length ≤ d → ∀ i ≥ n, answers i = .ok []) ∧
    (d < s.length → ∀ i ≥ n, ∃ e, answers i = .error e)

/-- The reader has taken `p` bytes of the stream. -/
structure Stands (R : List Byte → C.State × Compressed → Prop) (s : List Byte) (d p : ℕ)
    (r : FilterReader C) : Prop where
  inner : R (s.drop p) r.inner
  decoded : r.decoded = min p d
  limit : r.decodedLimit = some d
  le : p ≤ s.length

variable {R : List Byte → C.State × Compressed → Prop} {p : ℕ} {r : FilterReader C} {room : ℕ}

/-- A read within the budget. -/
theorem read_within (hR : Delivering C R) (hd : d ≤ u64Max) (h : Stands R s d p r) (hroom : 0 < room)
    (hp : p < d) :
    ∃ q r', FilterReader.read room r = (.ok ((s.drop p).take (q - p)), r') ∧ Stands R s d q r' ∧
      p ≤ q ∧ q ≤ d ∧ (p < q ∨ p = s.length) := by
  obtain ⟨inner, decoded, limit⟩ := r
  obtain rfl : limit = some d := h.limit
  obtain rfl : decoded = p := h.decoded.trans (by omega)
  have hallowed : 0 < min (d - decoded) room := by omega
  obtain ⟨k, x', hread, hk, hmoves, hx'⟩ := hR h.inner hallowed
  have hlen := h.le
  have hcount : ((s.drop decoded).take k).length = min k (s.length - decoded) := by
    rw [List.length_take, List.length_drop]
  have hsum : checkedAdd decoded ((s.drop decoded).take k).length =
      some (decoded + min k (s.length - decoded)) := by
    rw [hcount, checkedAdd_of_le (by omega)]
  have htake : (s.drop decoded).take (decoded + min k (s.length - decoded) - decoded) =
      (s.drop decoded).take k := by
    rw [Nat.add_sub_cancel_left, ← List.length_drop, ← List.take_eq_take_min]
  refine ⟨decoded + min k (s.length - decoded), ⟨x', decoded + min k (s.length - decoded), some d⟩,
    ?_, ⟨?_, ?_, rfl, by omega⟩, by omega, by omega, ?_⟩
  · rw [htake, FilterReader.read, if_neg hroom.ne']
    dsimp only
    rw [if_neg (by omega), FilterReader.readAllowed]
    dsimp only
    rw [hread]
    dsimp only
    rw [hsum]
  · rw [← List.drop_drop, ← List.length_drop, ← List.drop_eq_drop_min]
    exact hx'
  · dsimp only
    omega
  · rcases hmoves with hpos | hnil
    · omega
    · right
      have := List.drop_eq_nil_iff.mp hnil
      omega

/-- A read behind the budget takes a byte of the excess, if there is one left. -/
theorem read_behind (hR : Delivering C R) (h : Stands R s d p r) (hroom : 0 < room) (hp : d ≤ p) :
    (p = s.length ∧ ∃ r', FilterReader.read room r = (.ok [], r') ∧ Stands R s d p r') ∨
      (p < s.length ∧ ∃ e r', FilterReader.read room r = (.error e, r') ∧ Stands R s d (p + 1) r') := by
  obtain ⟨k, x', hread, hk, hmoves, hx'⟩ := hR h.inner Nat.one_pos
  have hle := h.le
  obtain ⟨inner, decoded, limit⟩ := r
  obtain rfl : limit = some d := h.limit
  obtain rfl : decoded = d := h.decoded.trans (by omega)
  rw [FilterReader.read, if_neg hroom.ne']
  dsimp only at hread ⊢
  rw [if_pos (Nat.sub_self _), hread]
  rcases Nat.lt_or_ge p s.length with hlt | hge
  · right
    have hk1 : k = 1 := by
      rcases hmoves with hpos | hnil
      · omega
      · have := List.drop_eq_nil_iff.mp hnil
        omega
    rw [hk1, List.drop_eq_getElem_cons hlt]
    refine ⟨hlt, _, _, rfl, ⟨?_, ?_, rfl, hlt⟩⟩
    · rw [hk1, List.drop_drop] at hx'
      exact hx'
    · dsimp only
      omega
  · left
    have hnil : s.drop p = [] := List.drop_eq_nil_of_le hge
    rw [hnil, List.drop_nil] at hx'
    rw [hnil, List.take_nil]
    exact ⟨by omega, _, rfl, ⟨by rw [hnil]; exact hx', h.decoded, rfl, h.le⟩⟩

/-- A read at the end of the stream. -/
theorem read_end (hR : Delivering C R) (hd : d ≤ u64Max) (h : Stands R s d s.length r)
    (hroom : 0 < room) :
    ∃ r', FilterReader.read room r = (.ok [], r') ∧ Stands R s d s.length r' := by
  rcases Nat.lt_or_ge s.length d with hlt | hge
  · obtain ⟨q, r', hread, hstands, hle, -, -⟩ := read_within hR hd h hroom hlt
    obtain rfl : q = s.length := le_antisymm hstands.le hle
    rw [Nat.sub_self, List.take_zero] at hread
    exact ⟨r', hread, hstands⟩
  · rcases read_behind hR h hroom hge with ⟨-, r', hread, hstands⟩ | ⟨hlt, -⟩
    · exact ⟨r', hread, hstands⟩
    · exact absurd hlt (lt_irrefl _)

section Runs

variable {sizes : ℕ → ℕ} {n : ℕ}

theorem delivered_succ (answers : ℕ → Except IoError (List Byte)) (n : ℕ) :
    delivered answers (n + 1) = delivered answers n ++ bytesOf (answers n) := by
  rw [delivered, List.range_succ, List.flatMap_append]
  simp [delivered]

theorem after_eq {r' : FilterReader C} {result : Except IoError (List Byte)}
    (h : FilterReader.read (sizes n) (after r sizes n) = (result, r')) :
    answer r sizes n = result ∧ after r sizes (n + 1) = r' := by
  rw [answer, after, h]
  exact ⟨rfl, rfl⟩

/-- **The reader delivers the stream up to the budget.** -/
theorem reaches (hR : Delivering C R) (hd : d ≤ u64Max) (hsizes : ∀ n, 0 < sizes n) :
    ∀ {missing n p : ℕ}, min s.length d - p ≤ missing → p ≤ min s.length d →
      Stands R s d p (after r sizes n) →
      (∀ i < n, ∃ bytes, bytes ≠ [] ∧ answer r sizes i = .ok bytes) →
      delivered (answer r sizes) n = s.take p →
      ∃ n', (∀ i < n', ∃ bytes, bytes ≠ [] ∧ answer r sizes i = .ok bytes) ∧
        delivered (answer r sizes) n' = s.take d ∧
        Stands R s d (min s.length d) (after r sizes n') := by
  intro missing
  induction missing with
  | zero =>
    intro n p hmissing hp h hbytes hdelivered
    obtain rfl : p = min s.length d := by omega
    refine ⟨n, hbytes, ?_, h⟩
    rw [hdelivered, Nat.min_comm, ← List.take_eq_take_min]
  | succ missing ih =>
    intro n p hmissing hp h hbytes hdelivered
    by_cases heq : p = min s.length d
    · exact ih (by omega) hp h hbytes hdelivered
    · obtain ⟨q, r', hread, hstands, hle, hqd, hmoves⟩ :=
        read_within hR hd h (hsizes n) (by omega)
      obtain ⟨hanswer, hafter⟩ := after_eq hread
      have hq := hstands.le
      have hlt : p < q := by omega
      refine ih (n := n + 1) (p := q) (by omega) (by omega) (by rwa [hafter]) (fun i hi => ?_) ?_
      · rcases Nat.lt_succ_iff_lt_or_eq.mp hi with hi | rfl
        · exact hbytes i hi
        · refine ⟨_, fun hnil => ?_, hanswer⟩
          have := congrArg List.length hnil
          rw [List.length_take, List.length_drop, List.length_nil] at this
          omega
      · rw [delivered_succ, hdelivered, hanswer, bytesOf, ← List.take_add]
        congr 1
        omega

/-- **At its end the stream stays ended.** -/
theorem ends (hR : Delivering C R) (hd : d ≤ u64Max) (hsizes : ∀ n, 0 < sizes n)
    (h : Stands R s d s.length (after r sizes n)) :
    ∀ i ≥ n, answer r sizes i = .ok [] := by
  have hstands : ∀ k, Stands R s d s.length (after r sizes (n + k)) := by
    intro k
    induction k with
    | zero => exact h
    | succ k ih =>
      obtain ⟨r', hread, hr'⟩ := read_end hR hd ih (hsizes (n + k))
      rw [← Nat.add_assoc, (after_eq hread).2]
      exact hr'
  intro i hi
  obtain ⟨k, rfl⟩ : ∃ k, i = n + k := ⟨i - n, by omega⟩
  obtain ⟨r', hread, -⟩ := read_end hR hd (hstands k) (hsizes (n + k))
  exact (after_eq hread).1

/-- **Behind the budget** there are as many failures as bytes in excess. -/
theorem fails (hR : Delivering C R) (hsizes : ∀ n, 0 < sizes n)
    (h : Stands R s d d (after r sizes n)) :
    ∀ k, d + k ≤ s.length → Stands R s d (d + k) (after r sizes (n + k)) ∧
      ∀ i < k, ∃ e, answer r sizes (n + i) = .error e := by
  intro k
  induction k with
  | zero => exact fun _ => ⟨h, nofun⟩
  | succ k ih =>
    intro hle
    obtain ⟨hstands, herrors⟩ := ih (by omega)
    rcases read_behind hR hstands (hsizes (n + k)) (Nat.le_add_right _ _) with
      ⟨heq, -⟩ | ⟨-, e, r', hread, hstands'⟩
    · omega
    · obtain ⟨hanswer, hafter⟩ := after_eq hread
      refine ⟨by rw [← Nat.add_assoc n k 1, hafter]; exact hstands', fun i hi => ?_⟩
      rcases Nat.lt_succ_iff_lt_or_eq.mp hi with hi | rfl
      · exact herrors i hi
      · exact ⟨e, hanswer⟩

end Runs

/-- A fresh reader stands at the start of its stream. -/
theorem stands_start {input : Compressed} (h : FilterReader.withLimits C input (some d) = .ok r)
    (hR : R s r.inner) : Stands R s d 0 r := by
  obtain ⟨x, -, h⟩ := bind_eq_ok.mp h
  cases h
  exact ⟨hR, (Nat.zero_min d).symm, rfl, Nat.zero_le _⟩

/-- **The budget is exact and final if and only if the stream is within it.** -/
theorem exact_iff {input : Compressed} {sizes : ℕ → ℕ} (hd : d ≤ u64Max)
    (h : FilterReader.withLimits C input (some d) = .ok r) (hs : Delivers C s r.inner)
    (hsizes : ∀ n, 0 < sizes n) : Exact s d (answer r sizes) ↔ s.length ≤ d := by
  obtain ⟨R, hR, hs⟩ := hs
  obtain ⟨n, hbytes, hdelivered, hstands⟩ := reaches hR hd hsizes (n := 0) le_rfl (Nat.zero_le _)
    (stands_start h hs) nofun rfl
  constructor
  · rintro ⟨m, -, -, -, hfinal⟩
    by_contra hlt
    rw [not_le] at hlt
    rw [min_eq_right hlt.le] at hstands
    -- once the excess is used up, the reader reports the end
    obtain ⟨hend, -⟩ := fails hR hsizes hstands (s.length - d) (by omega)
    rw [Nat.add_sub_cancel' hlt.le] at hend
    have hok := ends hR hd hsizes hend (max m (n + (s.length - d))) (le_max_right _ _)
    obtain ⟨e, he⟩ := hfinal hlt (max m (n + (s.length - d))) (le_max_left _ _)
    rw [hok] at he
    cases he
  · intro hle
    rw [min_eq_left hle] at hstands
    exact ⟨n, hbytes, hdelivered, fun _ => ends hR hd hsizes hstands, fun hlt => absurd hle (by omega)⟩

/-! ### The plain filter -/

/-- `FilterReaderInner::Plain`: the prefix first, and then the input (`PrefixReader`). -/
def plain : Codec where
  State := List Byte
  start found := found
  read room x :=
    if x.1 ≠ [] then (.ok (x.1.take room), (x.1.drop room, x.2))
    else
      match readCompressed room x.2 with
      | (result, input) => (result, ([], input))

/-- What the plain filter still delivers, of a source that fills its buffers. -/
def PlainLeft (s : List Byte) (x : List Byte × Compressed) : Prop :=
  s = x.1 ++ x.2.inner.rest ∧ x.2.inner.answers = []

theorem delivering_plain : Delivering plain PlainLeft := by
  rintro s ⟨found, ⟨⟨rest, answers⟩, hasher⟩⟩ ⟨rfl, hanswers⟩ room hroom
  obtain rfl : answers = [] := hanswers
  change List Byte at found
  by_cases hfound : found = []
  · subst hfound
    exact ⟨room, _, rfl, le_rfl, .inl hroom, rfl, rfl⟩
  · have hpos := List.length_pos_of_ne_nil hfound
    refine ⟨min room found.length, (found.drop room, ⟨⟨rest, []⟩, hasher⟩), ?_, min_le_left _ _,
      .inl (by omega), ?_, rfl⟩
    · rw [List.take_append_of_le_length (min_le_right _ _), ← List.take_eq_take_min]
      exact if_pos hfound
    · rw [List.drop_append_of_le_length (min_le_right _ _), ← List.drop_eq_drop_min]

/-- A reader of two bytes with a budget of one byte, after its prefix has been read. -/
def overBudget : FilterReader plain := { inner := (bstr "ab", ⟨⟨[], []⟩, bstr "ab"⟩), decodedLimit := some 1 }

theorem overBudget_opened :
    FilterReader.withLimits plain ⟨⟨bstr "ab", []⟩, []⟩ (some 1) = .ok overBudget := rfl

/-- The third read reports the end, and so do all others. -/
theorem overBudget_ends : ∀ i ≥ 2, answer overBudget (fun _ => 1) i = .ok [] := by
  have hstands : Stands PlainLeft (bstr "ab") 1 (bstr "ab").length (after overBudget (fun _ => 1) 2) :=
    ⟨⟨by decide, rfl⟩, rfl, rfl, le_rfl⟩
  exact ends delivering_plain (by decide) (fun _ => Nat.one_pos) hstands

/-- An excess of one byte is reported by one read and forgotten by the next. -/
theorem not_always_exact : ¬ ∀ (C : Codec) (s : List Byte) (d : ℕ) (r : FilterReader C)
    (input : Compressed) (sizes : ℕ → ℕ), d ≤ u64Max →
    FilterReader.withLimits C input (some d) = .ok r → Delivers C s r.inner → (∀ n, 0 < sizes n) →
    Exact s d (answer r sizes) := by
  intro hall
  obtain ⟨n, -, -, -, hfinal⟩ := hall plain (bstr "ab") 1 overBudget _ (fun _ => 1) (by decide)
    overBudget_opened ⟨PlainLeft, delivering_plain, rfl, rfl⟩ (fun _ => Nat.one_pos)
  obtain ⟨e, he⟩ := hfinal (by decide) (max n 2) (le_max_left _ _)
  rw [overBudget_ends _ (le_max_right _ _)] at he
  cases he

theorem exact_iff_overBudget : Exact (bstr "ab") 1 (answer overBudget fun _ => 1) ↔
    (bstr "ab").length ≤ 1 :=
  exact_iff (by decide) overBudget_opened ⟨PlainLeft, delivering_plain, rfl, rfl⟩ fun _ => Nat.one_pos

end LibarchiveOxide.Stream.Budgeted
