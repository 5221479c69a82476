import LibarchiveOxide.Lib.Result
import LibarchiveOxide.Tar.Header

/-! # Numeric fields and the checksum, read back

What is written into a numeric field is read back. The reader takes seven bits more of a base-256 field
than the writer uses, so there are values that it accepts and that cannot be written (`numeric_fields`). -/

namespace LibarchiveOxide.Tar.Numeric

open Core.Failure Lib.Radix Lib.Result Lib.Slice Tar.Header

/-! ### Octal fields -/

/-- The character of an octal digit. -/
def octal (d : ℕ) : Byte := chr '0' + UInt8.ofNat d

theorem octal_spec {d : ℕ} (h : d < 8) : ¬ (octal d = chr ' ' ∨ octal d = 0) ∧
    (chr '0' ≤ octal d ∧ octal d ≤ chr '7') ∧ (octal d - chr '0').toNat = d ∧
    octal d &&& 0x80 = 0 := by
  interval_cases d <;> decide

theorem parseOctalFrom_map : ∀ {ds : List ℕ} {val : ℕ} {seen : Bool}, (∀ d ∈ ds, d < 8) →
    horner 8 val ds ≤ u64Max → (ds = [] → seen = true) → ∀ rest,
    parseOctalFrom val seen (ds.map octal ++ 0 :: rest) = .ok (horner 8 val ds)
  | [], val, seen, _, _, hseen, rest => by
    rw [List.map_nil, List.nil_append, parseOctalFrom, if_pos (.inr rfl), if_pos (hseen rfl)]
    rfl
  | d :: ds, val, seen, hd, hmax, _, rest => by
    obtain ⟨hlt, hds⟩ := List.forall_mem_cons.mp hd
    obtain ⟨hblank, hdigit, heq, -⟩ := octal_spec hlt
    have hstep := le_horner (by decide : 0 < 8) ds (val * 8 + d)
    rw [horner_cons] at hmax
    rw [List.map_cons, List.cons_append, parseOctalFrom, if_neg hblank, if_pos hdigit, heq,
      checkedMul_of_le (by omega), Option.bind_some, checkedAdd_of_le (by omega)]
    exact parseOctalFrom_map hds hmax (fun _ => rfl) rest

/-- An octal field is as large as its digits allow. -/
theorem parseOctalFrom_lt : ∀ {f : List Byte} {val v : ℕ} {seen : Bool},
    parseOctalFrom val seen f = .ok v → v < (val + 1) * 8 ^ f.length
  | [], val, v, seen, h => by
    cases h
    simp
  | b :: rest, val, v, seen, h => by
    have hpos : 0 < 8 ^ rest.length := by positivity
    have hgrow : (val + 1) * 8 ^ rest.length ≤ (val + 1) * 8 ^ (rest.length + 1) := by
      rw [pow_succ]
      exact Nat.mul_le_mul_left _ (Nat.le_mul_of_pos_right _ (by decide))
    rw [List.length_cons]
    rw [parseOctalFrom] at h
    by_cases hblank : b = chr ' ' ∨ b = 0
    · rw [if_pos hblank] at h
      cases seen with
      | true =>
        cases h
        have : val + 1 ≤ (val + 1) * 8 ^ rest.length := Nat.le_mul_of_pos_right _ hpos
        omega
      | false => exact (parseOctalFrom_lt h).trans_le hgrow
    · rw [if_neg hblank] at h
      by_cases hdigit : chr '0' ≤ b ∧ b ≤ chr '7'
      · rw [if_pos hdigit] at h
        have hsmall : (b - chr '0').toNat ≤ 7 := by
          obtain ⟨hlow, hhigh⟩ := hdigit
          have h0 : (chr '0').toNat = 48 := rfl
          have h7 : (chr '7').toNat = 55 := rfl
          rw [UInt8.le_iff_toNat_le] at hlow hhigh
          rw [UInt8.toNat_sub_of_le _ _ (UInt8.le_iff_toNat_le.mpr hlow)]
          omega
        cases hnext : (checkedMul val 8).bind (checkedAdd · (b - chr '0').toNat) with
        | none =>
          rw [hnext] at h
          cases h
        | some next =>
          rw [hnext] at h
          obtain ⟨product, hproduct, hsum⟩ := Option.bind_eq_some_iff.mp hnext
          obtain ⟨rfl, -⟩ := checkedAdd_eq_some.mp hsum
          obtain ⟨rfl, -⟩ := checkedMul_eq_some.mp hproduct
          refine (parseOctalFrom_lt h).trans_le ?_
          rw [pow_succ', ← mul_assoc]
          exact Nat.mul_le_mul_right _ (by omega)
      · rw [if_neg hdigit] at h
        cases h

/-! ### Base-256 fields -/

variable {v : ℕ}

theorem parseBase256From_eq : ∀ {f : List Byte} {val : ℕ}, horner 256 val (f.map UInt8.toNat) ≤ u64Max →
    parseBase256From val f = .ok (horner 256 val (f.map UInt8.toNat))
  | [], val, _ => rfl
  | b :: rest, val, hmax => by
    have hstep := le_horner (by decide : 0 < 256) (rest.map UInt8.toNat) (val * 256 + b.toNat)
    rw [List.map_cons, horner_cons] at hmax
    have hsum : val * 256 + b.toNat ≤ u64Max := hstep.trans hmax
    have hproduct : val * 256 ≤ u64Max := (Nat.le_add_right _ _).trans hsum
    rw [parseBase256From, checkedMul_of_le hproduct, Option.bind_some, checkedAdd_of_le hsum]
    exact parseBase256From_eq hmax

theorem parseBase256From_ok : ∀ {f : List Byte} {val v : ℕ}, parseBase256From val f = .ok v →
    v = horner 256 val (f.map UInt8.toNat)
  | [], val, v, h => by
    cases h
    rfl
  | b :: rest, val, v, h => by
    rw [parseBase256From] at h
    cases hnext : (checkedMul val 256).bind (checkedAdd · b.toNat) with
    | none =>
      rw [hnext] at h
      cases h
    | some next =>
      rw [hnext] at h
      obtain ⟨product, hproduct, hsum⟩ := Option.bind_eq_some_iff.mp hnext
      obtain ⟨rfl, -⟩ := checkedAdd_eq_some.mp hsum
      obtain ⟨rfl, -⟩ := checkedMul_eq_some.mp hproduct
      exact parseBase256From_ok (f := rest) h

theorem mem_toNat_lt {f : List Byte} : ∀ d ∈ f.map UInt8.toNat, d < 256 := by
  intro d hd
  obtain ⟨b, -, rfl⟩ := List.mem_map.mp hd
  exact b.toNat_lt

/-- **What the reader accepts** in a field: the seven bits of the first byte and all of the others, or
octal digits. -/
theorem parseNumeric_lt {f : List Byte} (hlen : 2 ≤ f.length) (h : parseNumeric f = .ok v) :
    v < 128 * 256 ^ (f.length - 1) := by
  cases f with
  | nil => simp at hlen
  | cons first rest =>
    rw [List.length_cons] at hlen
    rw [List.length_cons, Nat.add_sub_cancel]
    rw [parseNumeric] at h
    by_cases hmark : first &&& 0x80 ≠ 0
    · rw [if_pos hmark] at h
      have hfirst : (first &&& 0x7f).toNat < 128 := by
        rw [UInt8.toNat_and]
        exact Nat.and_lt_two_pow _ (by decide : (0x7f : UInt8).toNat < 2 ^ 7)
      rw [parseBase256From_ok h]
      have hlt := horner_lt (mem_toNat_lt (f := rest)) hfirst
      rwa [List.length_map] at hlt
    · rw [if_neg hmark] at h
      have hlt := parseOctalFrom_lt h
      rw [Nat.zero_add, one_mul, List.length_cons] at hlt
      refine hlt.trans_le ?_
      have hpow : (8 : ℕ) ^ (rest.length + 1) ≤ 8 * 256 ^ rest.length := by
        rw [pow_succ']
        exact Nat.mul_le_mul_left _ (Nat.pow_le_pow_left (by decide) _)
      omega

/-- So it does read all of them from a base-256 field. -/
theorem parseNumeric_marked {k : ℕ} (hv : v < 128 * 256 ^ k) (hmax : v ≤ u64Max) :
    ∃ f : List Byte, f.length = k + 1 ∧ parseNumeric f = .ok v := by
  have htop : v / 256 ^ k < 128 := Nat.div_lt_of_lt_mul (by rwa [mul_comm])
  have hbyte : ∀ t < 128, (UInt8.ofNat (128 + t) &&& 0x80 ≠ 0) ∧
      (UInt8.ofNat (128 + t) &&& 0x7f).toNat = t := by decide
  obtain ⟨hmark, hfirst⟩ := hbyte _ htop
  have hdigits : ((digitsBE 256 k (v % 256 ^ k)).map UInt8.ofNat).map UInt8.toNat =
      digitsBE 256 k (v % 256 ^ k) := by
    rw [List.map_map]
    refine (List.map_congr_left fun d hd => ?_).trans (List.map_id _)
    exact UInt8.toNat_ofNat_of_lt' (lt_of_mem_digitsBE (by decide) hd)
  have hvalue : horner 256 (v / 256 ^ k) (digitsBE 256 k (v % 256 ^ k)) = v := by
    rw [horner_eq_add, length_digitsBE,
      horner_digitsBE (by decide) (Nat.mod_lt _ (by positivity)), mul_comm]
    exact Nat.div_add_mod v (256 ^ k)
  refine ⟨UInt8.ofNat (128 + v / 256 ^ k) :: (digitsBE 256 k (v % 256 ^ k)).map UInt8.ofNat, ?_, ?_⟩
  · rw [List.length_cons, List.length_map, length_digitsBE]
  · rw [parseNumeric, if_pos hmark, hfirst, parseBase256From_eq, hdigits, hvalue]
    rw [hdigits, hvalue]
    exact hmax

/-! ### Fields, written and read back -/

theorem fitsOctal_iff {digits : ℕ} (hmax : v ≤ u64Max) :
    fitsOctal v digits = true ↔ v < 8 ^ digits := by
  have hpow : (8 : ℕ) ^ digits = 2 ^ (3 * digits) := by
    rw [pow_mul]
    norm_num
  unfold fitsOctal
  rw [Bool.or_eq_true, decide_eq_true_eq, decide_eq_true_eq, hpow]
  refine ⟨fun h => h.elim (fun h => ?_) id, .inr⟩
  have hle : 2 ^ 64 ≤ 2 ^ (3 * digits) := Nat.pow_le_pow_right (by decide) (by omega)
  unfold u64Max at hmax
  omega

/-- An octal field comes back. -/
theorem parseNumeric_octal {w : ℕ} (hw : 0 < w) (hv : v < 8 ^ w) (hmax : v ≤ u64Max)
    (rest : List Byte) : parseNumeric ((digitsBE 8 w v).map octal ++ 0 :: rest) = .ok v := by
  have hread : parseOctalFrom 0 false ((digitsBE 8 w v).map octal ++ 0 :: rest) = .ok v := by
    rw [parseOctalFrom_map (fun d hd => lt_of_mem_digitsBE (by decide) hd)
      (by rw [horner_digitsBE (by decide) hv]; exact hmax)
      (fun hnil => absurd (congrArg List.length hnil) (by rw [length_digitsBE]; simpa using hw.ne')),
      horner_digitsBE (by decide) hv]
  cases hdigits : digitsBE 8 w v with
  | nil => exact absurd (congrArg List.length hdigits) (by rw [length_digitsBE]; simpa using hw.ne')
  | cons d ds =>
    have hd : d < 8 := lt_of_mem_digitsBE (by decide) (hdigits ▸ List.mem_cons_self)
    rw [hdigits] at hread
    rw [List.map_cons, List.cons_append] at hread ⊢
    rw [parseNumeric, if_neg (not_not.mpr (octal_spec hd).2.2.2)]
    exact hread

/-- The first digits of a number that needs fewer. -/
theorem digitsBE_add (b : ℕ) : ∀ (m k v : ℕ), digitsBE b (m + k) v =
    digitsBE b m (v / b ^ k) ++ digitsBE b k v
  | m, 0, v => by simp [digitsBE]
  | m, k + 1, v => by
    rw [← Nat.add_assoc, digitsBE, digitsBE_add b m k, digitsBE, List.append_assoc, Nat.div_div_eq_div_mul,
      ← pow_succ']

theorem digitsBE_zero (b : ℕ) : ∀ m, digitsBE b m 0 = List.replicate m 0
  | 0 => rfl
  | m + 1 => by rw [digitsBE, Nat.zero_div, Nat.zero_mod, digitsBE_zero b m, List.replicate_succ']

theorem horner_replicate_zero (b : ℕ) : ∀ m, horner b 0 (List.replicate m 0) = 0
  | 0 => rfl
  | m + 1 => by
    rw [List.replicate_succ, horner_cons, Nat.zero_mul, Nat.zero_add, horner_replicate_zero b m]

/-- The field of a marker, zeros and the low bytes of a value. -/
theorem parseNumeric_base256 {m k : ℕ} (hv : v < 256 ^ k) (hmax : v ≤ u64Max) :
    parseNumeric (0x80 :: (List.replicate m 0 ++ (digitsBE 256 k v).map UInt8.ofNat)) = .ok v := by
  have hdigits : (List.replicate m 0 ++ (digitsBE 256 k v).map UInt8.ofNat).map UInt8.toNat =
      List.replicate m 0 ++ digitsBE 256 k v := by
    rw [List.map_append, List.map_replicate, List.map_map]
    congr 1
    refine (List.map_congr_left fun d hd => ?_).trans (List.map_id _)
    exact UInt8.toNat_ofNat_of_lt' (lt_of_mem_digitsBE (by decide) hd)
  have hvalue : horner 256 0 (List.replicate m 0 ++ digitsBE 256 k v) = v := by
    rw [horner_append, horner_replicate_zero, horner_digitsBE (by decide) hv]
  have hfirst : ((0x80 : UInt8) &&& 0x7f).toNat = 0 := rfl
  rw [parseNumeric, if_pos (by decide), hfirst, parseBase256From_eq, hdigits, hvalue]
  rw [hdigits, hvalue]
  exact hmax

/-- The bytes of a value, the low ones apart. -/
theorem beBytes64_split {k : ℕ} (hk : k ≤ 8) (v : ℕ) :
    (beBytes64 v).take (8 - k) = (digitsBE 256 (8 - k) (v / 256 ^ k)).map UInt8.ofNat ∧
      (beBytes64 v).drop (8 - k) = (digitsBE 256 k v).map UInt8.ofNat := by
  have hlen : ((digitsBE 256 (8 - k) (v / 256 ^ k)).map UInt8.ofNat).length = 8 - k := by
    rw [List.length_map, length_digitsBE]
  have hsplit : beBytes64 v = (digitsBE 256 (8 - k) (v / 256 ^ k)).map UInt8.ofNat ++
      (digitsBE 256 k v).map UInt8.ofNat := by
    unfold beBytes64
    have h8 : 8 = (8 - k) + k := by omega
    conv_lhs => rw [h8]
    rw [digitsBE_add, List.map_append]
  rw [hsplit]
  exact ⟨List.take_left' hlen, List.drop_left' hlen⟩

/-- The high bytes are zero if and only if the low ones hold the value. -/
theorem any_high {k : ℕ} (hk : k ≤ 8) (hmax : v ≤ u64Max) :
    ((beBytes64 v).take (8 - k)).any (· != 0) = true ↔ 256 ^ k ≤ v := by
  have hhigh : v / 256 ^ k < 256 ^ (8 - k) := by
    refine Nat.div_lt_of_lt_mul ?_
    rw [← pow_add, show k + (8 - k) = 8 by omega]
    unfold u64Max at hmax
    omega
  rw [(beBytes64_split hk v).1]
  constructor
  · intro hany
    by_contra hlt
    rw [Nat.div_eq_of_lt (not_le.mp hlt), digitsBE_zero] at hany
    simp at hany
  · intro hle
    by_contra hnone
    have hzero : digitsBE 256 (8 - k) (v / 256 ^ k) = List.replicate (8 - k) 0 := by
      refine List.eq_replicate_iff.mpr ⟨length_digitsBE _ _ _, fun d hd => ?_⟩
      have hbyte : UInt8.ofNat d = 0 := by
        by_contra hne
        exact hnone (List.any_eq_true.mpr ⟨_, List.mem_map_of_mem hd, by simpa using hne⟩)
      rw [← UInt8.toNat_ofNat_of_lt' (lt_of_mem_digitsBE (by decide) hd : d < 256), hbyte]
      rfl
    have hvalue := horner_digitsBE (by decide : 0 < 256) hhigh
    rw [hzero, horner_replicate_zero] at hvalue
    have := Nat.div_pos hle (by positivity)
    omega

/-- **A base-256 field** holds a value that fits behind its marker. -/
theorem putBase256_spec {n : ℕ} (hn : 2 ≤ n) (hmax : v ≤ u64Max) :
    (v < 256 ^ (n - 1) → ∃ f, putBase256 n v = .ok f ∧ parseNumeric f = .ok v) ∧
      (256 ^ (n - 1) ≤ v → ∃ e, putBase256 n v = .error e) := by
  have hlarge : 8 ≤ n - 1 → v < 256 ^ (n - 1) := by
    intro h
    have hle : 256 ^ 8 ≤ 256 ^ (n - 1) := Nat.pow_le_pow_right (by decide) h
    unfold u64Max at hmax
    omega
  obtain ⟨k, hk⟩ : ∃ k, k = min (n - 1) 8 := ⟨_, rfl⟩
  have hk8 : k ≤ 8 := by omega
  have hfield : splice (splice (List.replicate n 0) 0 [0x80]) (n - k) ((beBytes64 v).drop (8 - k)) =
      0x80 :: (List.replicate (n - 1 - k) 0 ++ (digitsBE 256 k v).map UInt8.ofNat) := by
    obtain ⟨m, rfl⟩ : ∃ m, n = m + 1 := ⟨n - 1, by omega⟩
    have hcut : m + 1 - k = (m + 1 - 1 - k) + 1 := by omega
    rw [(beBytes64_split hk8 v).2, splice_replicate_zero, List.length_singleton, Nat.add_sub_cancel,
      splice, List.length_map, length_digitsBE, List.drop_eq_nil_of_le, List.append_nil, hcut,
      List.singleton_append, List.take_succ_cons, List.take_replicate, List.cons_append]
    · congr 2
      congr 1
      omega
    · rw [List.length_append, List.length_replicate, List.length_singleton]
      omega
  unfold putBase256
  dsimp only
  rw [← hk]
  constructor
  · intro hlt
    have hguard : ¬ (n - 1 < 8 ∧ ((beBytes64 v).take (8 - (n - 1))).any (· != 0) = true) := by
      rintro ⟨hsmall, hany⟩
      exact absurd ((any_high (by omega) hmax).mp hany) (not_le.mpr hlt)
    rw [if_neg hguard, hfield]
    refine ⟨_, rfl, parseNumeric_base256 ?_ hmax⟩
    by_cases hsmall : n - 1 < 8
    · rwa [hk, min_eq_left (by omega)]
    · rw [hk, min_eq_right (by omega)]
      unfold u64Max at hmax
      omega
  · intro hle
    have hsmall : n - 1 < 8 := by
      by_contra hno
      exact absurd (hlarge (by omega)) (not_lt.mpr hle)
    rw [if_pos ⟨hsmall, (any_high (by omega) hmax).mpr hle⟩]
    exact ⟨_, rfl⟩

/-- What a field that can be written reads as. -/
theorem parseNumeric_putOctal {n : ℕ} {f : List Byte} (hn : 2 ≤ n) (hmax : v ≤ u64Max)
    (h : putOctal n v = .ok f) : parseNumeric f = .ok v := by
  unfold putOctal at h
  by_cases hfits : fitsOctal v (n - 1) = true
  · rw [if_pos hfits] at h
    cases h
    exact parseNumeric_octal (by omega) ((fitsOctal_iff hmax).mp hfits) hmax []
  · rw [if_neg hfits] at h
    obtain ⟨hread, hrefused⟩ := putBase256_spec hn hmax
    by_cases hlt : v < 256 ^ (n - 1)
    · obtain ⟨f', hf', hback⟩ := hread hlt
      obtain rfl := Except.ok.inj (hf'.symm.trans h)
      exact hback
    · obtain ⟨e, he⟩ := hrefused (not_lt.mp hlt)
      rw [he] at h
      cases h

/-- The values that cannot be written. -/
theorem putOctal_error {n : ℕ} (hn : 2 ≤ n) (hmax : v ≤ u64Max) :
    (∃ e, putOctal n v = .error e) ↔ 256 ^ (n - 1) ≤ v := by
  obtain ⟨hread, hrefused⟩ := putBase256_spec hn hmax
  unfold putOctal
  by_cases hfits : fitsOctal v (n - 1) = true
  · rw [if_pos hfits]
    refine iff_of_false nofun fun hle => ?_
    have hpow : (8 : ℕ) ^ (n - 1) ≤ 256 ^ (n - 1) := Nat.pow_le_pow_left (by decide) _
    exact absurd ((fitsOctal_iff hmax).mp hfits) (not_lt.mpr (hpow.trans hle))
  · rw [if_neg hfits]
    refine ⟨?_, hrefused⟩
    rintro ⟨e, he⟩
    by_contra hlt
    obtain ⟨f, hf, -⟩ := hread (not_le.mp hlt)
    rw [hf] at he
    cases he

/-- A field of so many bytes reads as the value, in octal or in base-256. -/
def Encodable (n v : ℕ) : Prop := ∃ f : List Byte, f.length = n ∧ parseNumeric f = .ok v

/-- **A numeric field**: what is written is read back, and only what has no encoding is refused. -/
structure Exact (n v : ℕ) : Prop where
  back : ∀ f, putOctal n v = .ok f → parseNumeric f = .ok v
  refused : (∃ e, putOctal n v = .error e) → ¬ Encodable n v

theorem numeric_exact_iff {n v : ℕ} (hn : 2 ≤ n) (hmax : v ≤ u64Max) :
    Exact n v ↔ ¬ (256 ^ (n - 1) ≤ v ∧ v < 128 * 256 ^ (n - 1)) := by
  constructor
  · rintro ⟨-, hrefused⟩ ⟨hle, hlt⟩
    obtain ⟨f, hf, hread⟩ := parseNumeric_marked hlt hmax
    exact hrefused ((putOctal_error hn hmax).mpr hle) ⟨f, by omega, hread⟩
  · intro h
    refine ⟨fun f hf => parseNumeric_putOctal hn hmax hf, ?_⟩
    rintro herror ⟨f, rfl, hread⟩
    exact h ⟨(putOctal_error hn hmax).mp herror, parseNumeric_lt hn hread⟩

/-! ### The checksum -/

/-- The field of the checksum as spaces. -/
def spaced (h : List Byte) : List Byte := splice h fChksum.1 (List.replicate 8 (chr ' '))

variable {h : List Byte}

theorem length_spaced (hlen : h.length = BLOCK) : (spaced h).length = BLOCK := by
  unfold spaced
  rw [length_splice (by rw [hlen, List.length_replicate]; decide), hlen]

theorem getElem?_checksumView (h : List Byte) (i : ℕ) : (checksumView h)[i]? =
    h[i]?.map fun b => if fChksum.1 ≤ i ∧ i < fChksum.2 then chr ' ' else b := by
  unfold checksumView
  rw [List.getElem?_map, List.getElem?_zipIdx, Option.map_map]
  congr 1
  funext b
  simp

/-- What the checksum sees of a header does not depend on its own field. -/
theorem checksumView_eq {h' : List Byte} (hlen : h.length = BLOCK) (hlen' : h'.length = BLOCK)
    (hsame : ∀ i, ¬ (fChksum.1 ≤ i ∧ i < fChksum.2) → h'[i]? = h[i]?) :
    checksumView h' = spaced h := by
  have hroom : fChksum.1 + (List.replicate 8 (chr ' ')).length ≤ h.length := by
    rw [hlen, List.length_replicate]
    decide
  refine List.ext_getElem? fun i => ?_
  unfold spaced
  rw [getElem?_checksumView, getElem?_splice hroom, List.length_replicate]
  by_cases hin : fChksum.1 ≤ i ∧ i < fChksum.2
  · have hi : i < h'.length := by
      rw [hlen']
      exact hin.2.trans (by decide)
    rw [if_pos (show fChksum.1 ≤ i ∧ i < fChksum.1 + 8 from hin), List.getElem?_eq_getElem hi,
      List.getElem?_replicate, if_pos (by unfold fChksum at hin ⊢; omega)]
    simp [hin]
  · rw [if_neg (show ¬ (fChksum.1 ≤ i ∧ i < fChksum.1 + 8) from hin), hsame i hin]
    simp [hin]

/-- The sum of some bytes. -/
theorem sum_le (l : List Byte) : (l.map UInt8.toNat).sum ≤ 255 * l.length := by
  induction l with
  | nil => simp
  | cons b l ih =>
    have := b.toNat_lt
    rw [List.map_cons, List.sum_cons, List.length_cons]
    omega

/-- **The checksum that is written is verified**, whatever the header is. -/
theorem verifyChecksum_writeChecksum (hlen : h.length = BLOCK) :
    ∃ h', writeChecksum h = .ok h' ∧ verifyChecksum h' = .ok () := by
  obtain ⟨sum, hsum⟩ : ∃ sum, sum = ((spaced h).map UInt8.toNat).sum := ⟨_, rfl⟩
  have hspaced := length_spaced hlen
  have hsmall : sum < 8 ^ 6 := by
    have hle := sum_le (spaced h)
    rw [hspaced, ← hsum] at hle
    unfold BLOCK at hle
    omega
  have hmax : sum ≤ u64Max := by
    unfold u64Max
    omega
  obtain ⟨digits, hdigits⟩ : ∃ digits, digits = (digitsBE 8 6 sum).map octal := ⟨_, rfl⟩
  have hlength : digits.length = 6 := by rw [hdigits, List.length_map, length_digitsBE]
  have hput : putOctal 7 sum = .ok (digits ++ [0]) := by
    unfold putOctal
    rw [if_pos ((fitsOctal_iff hmax).mpr hsmall), hdigits]
    rfl
  have hwritten : writeChecksum h =
      .ok (splice (splice (spaced h) 148 (digits ++ [0])) 155 [chr ' ']) := by
    change (putField (spaced h) (148, 155) ((spaced h).map UInt8.toNat).sum >>=
      fun h => .ok (splice h 155 [chr ' '])) = _
    rw [← hsum]
    unfold putField
    dsimp only
    rw [hput]
    rfl
  have hroom : 148 + (digits ++ [0]).length ≤ (spaced h).length := by
    rw [List.length_append, hlength, hspaced]
    decide
  have hlen₂ : (splice (spaced h) 148 (digits ++ [0])).length = BLOCK :=
    (length_splice hroom).trans hspaced
  have hroom₂ : 155 + [chr ' '].length ≤ (splice (spaced h) 148 (digits ++ [0])).length := by
    rw [hlen₂]
    decide
  refine ⟨_, hwritten, ?_⟩
  have hstored : field (splice (splice (spaced h) 148 (digits ++ [0])) 155 [chr ' ']) fChksum =
      digits ++ 0 :: [chr ' '] := by
    have hend : (digits ++ [0]).length = 7 := by rw [List.length_append, hlength]; rfl
    have hfirst : window (splice (splice (spaced h) 148 (digits ++ [0])) 155 [chr ' ']) 148 155 =
        digits ++ [0] := by
      rw [window_splice_of_disjoint hroom₂ (.inl le_rfl)]
      have hself := window_splice_self hroom
      rwa [hend] at hself
    have hlast := window_splice_self hroom₂
    unfold field
    rw [← window_join _ (by decide : fChksum.1 ≤ 155) (by decide : 155 ≤ fChksum.2)]
    change window _ 148 155 ++ window _ 155 156 = _
    rw [hfirst]
    rw [List.length_singleton] at hlast
    rw [hlast, List.append_assoc]
    rfl
  have hview : checksumView (splice (splice (spaced h) 148 (digits ++ [0])) 155 [chr ' ']) =
      spaced h := by
    refine checksumView_eq hlen ((length_splice hroom₂).trans hlen₂) fun i hi => ?_
    have hend : (digits ++ [0]).length = 7 := by rw [List.length_append, hlength]; rfl
    unfold fChksum at hi
    rw [getElem?_splice hroom₂, List.length_singleton, if_neg (by omega), getElem?_splice hroom, hend,
      if_neg (by omega)]
    unfold spaced fChksum
    rw [getElem?_splice (by rw [hlen, List.length_replicate]; decide), List.length_replicate,
      if_neg (by omega)]
  unfold verifyChecksum
  rw [hstored, hdigits, parseNumeric_octal (by decide) hsmall hmax, ok_bind, ← hdigits, hview]
  dsimp only
  rw [if_pos (.inl hsum)]

/-! ### All of them -/

/-- **Numeric fields and the checksum**: a field of any width takes its values back and refuses only what
has no encoding, except for the values whose base-256 encoding needs the seven bits beside the marker;
and every header verifies under the checksum written into it. -/
theorem numeric_fields {n v : ℕ} {h : List Byte} (hn : 2 ≤ n) (hmax : v ≤ u64Max)
    (hlen : h.length = BLOCK) : (Exact n v ↔ ¬ (256 ^ (n - 1) ≤ v ∧ v < 128 * 256 ^ (n - 1))) ∧
      ∃ h', writeChecksum h = .ok h' ∧ verifyChecksum h' = .ok () :=
  ⟨numeric_exact_iff hn hmax, verifyChecksum_writeChecksum hlen⟩

/-- A field of eight bytes, and the zero header. -/
theorem numeric_fields_eight : 2 ≤ 8 ∧ 8 ^ 7 ≤ u64Max ∧ zeroBlock.length = BLOCK ∧ Exact 8 (8 ^ 7) ∧
    ∃ h', writeChecksum zeroBlock = .ok h' ∧ verifyChecksum h' = .ok () := by
  have hmax : 8 ^ 7 ≤ u64Max := by
    unfold u64Max
    norm_num
  have hlen : zeroBlock.length = BLOCK := by
    unfold zeroBlock
    exact List.length_replicate
  obtain ⟨hexact, hsum⟩ := @numeric_fields 8 (8 ^ 7) zeroBlock (by decide) hmax hlen
  exact ⟨by decide, hmax, hlen, hexact.mpr (by norm_num), hsum⟩

/-- The reader accepts this value in a field of eight bytes, but it cannot be written. -/
theorem numeric_field_refused : Encodable 8 (2 ^ 56) ∧ ∃ e, putOctal 8 (2 ^ 56) = .error e :=
  ⟨⟨[0x81, 0, 0, 0, 0, 0, 0, 0], rfl, by decide +kernel⟩,
    .unsupported "tar: value too large for numeric field", by decide +kernel⟩

end LibarchiveOxide.Tar.Numeric
