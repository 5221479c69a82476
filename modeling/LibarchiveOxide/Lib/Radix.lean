import Mathlib.Data.Nat.Digits.Lemmas
import Mathlib.Tactic

/-! # Little-endian words

The value of little-endian bytes, and the `n` little-endian bytes of a value. -/

namespace LibarchiveOxide.Lib.LittleEndian

/-- The value of little-endian bytes. -/
def leValue : List UInt8 → ℕ
  | [] => 0
  | b :: bs => b.toNat + 256 * leValue bs

/-- The `n` little-endian bytes of a value. -/
def leBytes : ℕ → ℕ → List UInt8
  | 0, _ => []
  | n + 1, v => UInt8.ofNat (v % 256) :: leBytes n (v / 256)

@[simp] theorem length_leBytes : ∀ (n v : ℕ), (leBytes n v).length = n
  | 0, _ => rfl
  | n + 1, v => by rw [leBytes, List.length_cons, length_leBytes]

theorem leValue_leBytes : ∀ (n v : ℕ), leValue (leBytes n v) = v % 256 ^ n
  | 0, v => by rw [leBytes, leValue, pow_zero, Nat.mod_one]
  | n + 1, v => by
    rw [leBytes, leValue, leValue_leBytes n, UInt8.toNat_ofNat_of_lt' (Nat.mod_lt _ (by decide)),
      pow_succ', Nat.mod_mul]

theorem leValue_leBytes_of_lt {n v : ℕ} (h : v < 256 ^ n) : leValue (leBytes n v) = v := by
  rw [leValue_leBytes, Nat.mod_eq_of_lt h]

theorem leValue_lt : ∀ bs : List UInt8, leValue bs < 256 ^ bs.length
  | [] => by decide
  | b :: bs => by
    have h := leValue_lt bs
    have hb := b.toNat_lt
    rw [leValue, List.length_cons, pow_succ']
    omega

/-- The bytes of the value of bytes. -/
theorem leBytes_leValue : ∀ bs : List UInt8, leBytes bs.length (leValue bs) = bs
  | [] => rfl
  | b :: bs => by
    have hb := b.toNat_lt
    rw [List.length_cons, leBytes, leValue, show (b.toNat + 256 * leValue bs) % 256 = b.toNat by omega,
      show (b.toNat + 256 * leValue bs) / 256 = leValue bs by omega, leBytes_leValue bs,
      UInt8.ofNat_toNat]

end LibarchiveOxide.Lib.LittleEndian

/-! # Positional numerals

Big-endian digit lists in a base `b`: `horner` reads one, `digitsBE b w n` writes `n` with exactly
`w` digits and `numeral b n` without leading zeros. The intermediate
values of a reading only grow (`le_horner`), so a reader that checks each of them against a bound
accepts every numeral whose value is within the bound. -/

namespace LibarchiveOxide.Lib.Radix

/-- The value of a big-endian digit list, continuing from `acc`. -/
def horner (b : ℕ) (acc : ℕ) (ds : List ℕ) : ℕ := ds.foldl (fun a d => a * b + d) acc

@[simp] theorem horner_nil (b acc : ℕ) : horner b acc [] = acc := rfl

@[simp] theorem horner_cons (b acc d : ℕ) (ds : List ℕ) :
    horner b acc (d :: ds) = horner b (acc * b + d) ds := rfl

theorem horner_append (b acc : ℕ) (ds es : List ℕ) :
    horner b acc (ds ++ es) = horner b (horner b acc ds) es := List.foldl_append

theorem horner_eq_add (b : ℕ) : ∀ (ds : List ℕ) (acc : ℕ),
    horner b acc ds = acc * b ^ ds.length + horner b 0 ds
  | [], acc => by rw [horner_nil, horner_nil, List.length_nil, pow_zero, mul_one, Nat.add_zero]
  | d :: ds, acc => by
    rw [horner_cons, horner_cons, horner_eq_add b ds, horner_eq_add b ds (0 * b + d),
      List.length_cons, pow_succ]
    ring

variable {b : ℕ}

theorem le_horner (hb : 0 < b) : ∀ (ds : List ℕ) (acc : ℕ), acc ≤ horner b acc ds
  | [], acc => le_rfl
  | d :: ds, acc => by
    have h1 : acc ≤ acc * b + d := (Nat.le_mul_of_pos_right _ hb).trans (Nat.le_add_right _ _)
    exact h1.trans (le_horner hb ds _)

/-- The last `w` digits of `n`. -/
def digitsBE (b : ℕ) : ℕ → ℕ → List ℕ
  | 0, _ => []
  | w + 1, n => digitsBE b w (n / b) ++ [n % b]

theorem length_digitsBE (b : ℕ) : ∀ w n, (digitsBE b w n).length = w
  | 0, _ => rfl
  | w + 1, n => by simp [digitsBE, length_digitsBE b w]

theorem lt_of_mem_digitsBE (hb : 0 < b) : ∀ {w n d : ℕ}, d ∈ digitsBE b w n → d < b
  | 0, _, _, h => by simp [digitsBE] at h
  | w + 1, n, d, h => by
    rcases List.mem_append.mp h with h | h
    · exact lt_of_mem_digitsBE hb h
    · rw [List.mem_singleton.mp h]; exact Nat.mod_lt _ hb

theorem horner_digitsBE (hb : 0 < b) : ∀ {w n : ℕ}, n < b ^ w →
    horner b 0 (digitsBE b w n) = n
  | 0, n, h => by rw [pow_zero] at h; simp [digitsBE]; omega
  | w + 1, n, h => by
    have hn : n / b < b ^ w := Nat.div_lt_of_lt_mul (by rwa [pow_succ, mul_comm] at h)
    rw [digitsBE, horner_append, horner_digitsBE hb hn, horner_cons, horner_nil, mul_comm]
    exact Nat.div_add_mod n b

/-- The digits of `n` without leading zeros; `[0]` for zero. -/
def numeral (b n : ℕ) : List ℕ := if n = 0 then [0] else (b.digits n).reverse

theorem horner_reverse (b : ℕ) : ∀ ds : List ℕ, horner b 0 ds.reverse = Nat.ofDigits b ds
  | [] => rfl
  | d :: ds => by
    rw [List.reverse_cons, horner_append, horner_reverse b ds, horner_cons, horner_nil,
      Nat.ofDigits_cons]
    ring

theorem horner_numeral (b n : ℕ) : horner b 0 (numeral b n) = n := by
  unfold numeral
  split_ifs with h
  · simp [h]
  · rw [horner_reverse, Nat.ofDigits_digits]

variable {n : ℕ}

theorem lt_of_mem_numeral {d : ℕ} (hb : 1 < b) (h : d ∈ numeral b n) : d < b := by
  unfold numeral at h
  split_ifs at h with hn
  · rw [List.mem_singleton.mp h]; omega
  · exact Nat.digits_lt_base hb (List.mem_reverse.mp h)

theorem numeral_ne_nil : numeral b n ≠ [] := by
  unfold numeral
  split_ifs with h
  · simp
  · rw [Ne, List.reverse_eq_nil_iff]; exact Nat.digits_ne_nil_iff_ne_zero.mpr h

variable {w : ℕ}

theorem length_numeral_le (hb : 1 < b) (hw : 0 < w) (h : n < b ^ w) : (numeral b n).length ≤ w := by
  unfold numeral
  split_ifs with h0
  · simp only [List.length_singleton]; omega
  · rw [List.length_reverse]; exact (Nat.digits_length_le_iff hb n).mpr h

theorem length_numeral_mono {m : ℕ} (hb : 1 < b) (h : m ≤ n) :
    (numeral b m).length ≤ (numeral b n).length := by
  by_cases h0 : n = 0
  · have : m = 0 := by omega
    rw [this, h0]
  · refine length_numeral_le hb (List.length_pos_of_ne_nil numeral_ne_nil) ?_
    have hn : (numeral b n).length = (b.digits n).length := by simp [numeral, h0]
    rw [hn]
    exact lt_of_le_of_lt h (Nat.lt_base_pow_length_digits hb)

theorem horner_lt : ∀ {ds : List ℕ} {acc m : ℕ}, (∀ d ∈ ds, d < b) → acc < m →
    horner b acc ds < m * b ^ ds.length
  | [], acc, m, _, h => by simpa using h
  | d :: ds, acc, m, hd, h => by
    obtain ⟨hlt, hds⟩ := List.forall_mem_cons.mp hd
    have hstep : acc * b + d < m * b := by
      have : (acc + 1) * b ≤ m * b := Nat.mul_le_mul_right b h
      rw [Nat.add_mul, Nat.one_mul] at this
      omega
    have hpow : m * b ^ (d :: ds).length = m * b * b ^ ds.length := by
      rw [List.length_cons, pow_succ']
      ring
    rw [hpow]
    exact horner_lt hds hstep

theorem length_numeral (hb : 1 < b) (h : b ^ w ≤ n) : w < (numeral b n).length := by
  have hpos : 0 < b ^ w := Nat.pow_pos (by omega)
  have hn : n ≠ 0 := by omega
  rw [numeral, if_neg hn, List.length_reverse]
  by_contra hc
  exact absurd ((Nat.digits_length_le_iff hb n).mp (Nat.le_of_not_lt hc)) (by omega)

/-- The value of the first `w` digits. -/
def leading (b w n : ℕ) : ℕ := horner b 0 ((numeral b n).take w)

theorem leading_lt (hb : 1 < b) : leading b w n < b ^ w := by
  have hlt : leading b w n < 1 * b ^ ((numeral b n).take w).length :=
    horner_lt (fun d hd => lt_of_mem_numeral hb (List.mem_of_mem_take hd)) one_pos
  rw [one_mul] at hlt
  refine hlt.trans_le (Nat.pow_le_pow_right (by omega) ?_)
  rw [List.length_take]
  exact Nat.min_le_left _ _

/-- A number that is cut off is another one. -/
theorem leading_eq_iff (hb : 1 < b) (hw : 0 < w) : leading b w n = n ↔ n < b ^ w := by
  refine ⟨?_, ?_⟩
  · intro h
    rw [← h]
    exact leading_lt hb
  · intro h
    rw [leading, List.take_of_length_le (length_numeral_le hb hw h), horner_numeral]

/-- A number that is cut off keeps all of the digits that fit. -/
theorem le_leading (hb : 1 < b) (h : b ^ w ≤ n) (hw : 0 < w) : b ^ (w - 1) ≤ leading b w n := by
  have hlen := length_numeral hb h
  have hdrop : ((numeral b n).drop w).length = (numeral b n).length - w := List.length_drop ..
  -- the digits that are cut off weigh less than the last one that is kept
  have hsplit : n < (leading b w n + 1) * b ^ ((numeral b n).length - w) := by
    have hall : horner b 0 (numeral b n) = horner b (leading b w n) ((numeral b n).drop w) := by
      rw [leading, ← horner_append, List.take_append_drop]
    rw [horner_numeral] at hall
    rw [← hdrop]
    refine hall.le.trans_lt ?_
    exact horner_lt (fun d hd => lt_of_mem_numeral hb (List.mem_of_mem_drop hd)) (Nat.lt_succ_self _)
  have hlow : b ^ ((numeral b n).length - 1) ≤ n := by
    have hn : n ≠ 0 := by
      have : 0 < b ^ w := Nat.pow_pos (by omega)
      omega
    rw [numeral, if_neg hn, List.length_reverse, Nat.length_digits b n hb hn, Nat.add_sub_cancel]
    exact Nat.pow_log_le_self b hn
  have hpow : b ^ ((numeral b n).length - 1) = b ^ (w - 1) * b ^ ((numeral b n).length - w) := by
    rw [← pow_add]
    congr 1
    omega
  by_contra hc
  have hle : (leading b w n + 1) * b ^ ((numeral b n).length - w) ≤
      b ^ (w - 1) * b ^ ((numeral b n).length - w) := Nat.mul_le_mul_right _ (by omega)
  omega

end LibarchiveOxide.Lib.Radix
