import LibarchiveOxide.SevenZip.Wire
import Mathlib.Tactic

/-! # The bytes of a 7z header read back

`Reads bound p w rest a` says that the parser `p` takes the bytes `w`, with `rest` behind them, for `a`,
wherever they stand below a bound. Such facts compose as the parsers do, so what a writer wrote piece by
piece is read back piece by piece. -/

namespace LibarchiveOxide.SevenZip.WireLemmas

open Core.Failure Lib Lib.LittleEndian SevenZip.Wire

variable {bound : ℕ} {α β : Type} {p : Parse α} {w w' rest : List Byte} {a : α} {b : β}

/-- The parser takes these bytes, with others behind them, for a value. -/
def Reads (bound : ℕ) (p : Parse α) (w rest : List Byte) (a : α) : Prop :=
  ∀ pos, pos + (w.length + rest.length) ≤ bound →
    p ⟨pos, w ++ rest⟩ = .ok (a, ⟨pos + w.length, rest⟩)

/-! ### Composition -/

variable {f : α → Parse β}

theorem reads_pure : Reads bound (pure a) [] rest a := fun _ _ => rfl

/-- **Parsers in sequence** read their bytes in sequence. -/
theorem Reads.bind (h : Reads bound p w (w' ++ rest) a) (h' : Reads bound (f a) w' rest b) :
    Reads bound (p >>= f) (w ++ w') rest b := by
  intro pos hpos
  rw [List.length_append] at hpos
  rw [List.append_assoc, Parser.bind_of_ok (h pos (by rw [List.length_append]; omega)),
    h' (pos + w.length) (by omega), List.length_append, Nat.add_assoc]

/-- A parser that takes nothing, and what follows it. -/
theorem Reads.bind_nil (h : Reads bound p [] (w ++ rest) a) (h' : Reads bound (f a) w rest b) :
    Reads bound (p >>= f) w rest b := h.bind h'

/-- The last parser of a sequence may take nothing. -/
theorem Reads.then_nil (h : Reads bound p w rest a) (h' : Reads bound (f a) [] rest b) :
    Reads bound (p >>= f) w rest b := by
  have hboth : Reads bound (p >>= f) (w ++ []) rest b := Reads.bind (by simpa using h) h'
  rwa [List.append_nil] at hboth

/-! ### Words -/

theorem reads_u8 (b : Byte) : Reads bound u8 [b] rest b := fun _ _ => rfl

/-! ### Numbers -/

/-- The low `n` bits of a first byte: a one for each byte that follows it, and the top bits of the
value behind a zero. -/
def Leads (n m h first : ℕ) : Prop :=
  first % 2 ^ n = 2 ^ n - 2 ^ (n - m) + h ∧ (m < n ∧ h < 2 ^ (n - m - 1) ∨ m = n ∧ h = 0)

theorem mod_two_pow_succ (first n : ℕ) :
    first % 2 ^ (n + 1) = first % 2 ^ n + 2 ^ n * (first / 2 ^ n % 2) := by
  rw [pow_succ, Nat.mod_mul]

/-- A first byte that is followed by others begins with a one. -/
theorem Leads.step {n m h first : ℕ} (hl : Leads (n + 1) (m + 1) h first) :
    first / 2 ^ n % 2 = 1 ∧ Leads n m h first := by
  obtain ⟨heq, hcase⟩ := hl
  have hm : m ≤ n := by omega
  have hpow : 2 ^ (n - m) ≤ 2 ^ n := Nat.pow_le_pow_right (by decide) (Nat.sub_le n m)
  have hlt : first % 2 ^ n < 2 ^ n := Nat.mod_lt _ (by positivity)
  have hbit : first / 2 ^ n % 2 < 2 := Nat.mod_lt _ (by decide)
  rw [mod_two_pow_succ, pow_succ, show n + 1 - (m + 1) = n - m by omega] at heq
  have hone : first / 2 ^ n % 2 = 1 := by
    by_contra hne
    rw [show first / 2 ^ n % 2 = 0 by omega, mul_zero, add_zero] at heq
    omega
  rw [hone] at heq
  refine ⟨hone, by omega, ?_⟩
  rw [show n + 1 - (m + 1) = n - m by omega] at hcase
  omega

theorem Leads.stop {n h first : ℕ} (hl : Leads (n + 1) 0 h first) :
    first / 2 ^ n % 2 = 0 ∧ first % 2 ^ n = h := by
  obtain ⟨heq, hcase⟩ := hl
  have hh : h < 2 ^ n := by
    rcases hcase with ⟨-, hh⟩ | ⟨hn, -⟩
    · simpa using hh
    · omega
  have hlt : first % 2 ^ n < 2 ^ n := Nat.mod_lt _ (by positivity)
  rw [mod_two_pow_succ, Nat.sub_zero, Nat.sub_self, Nat.zero_add] at heq
  have hzero : first / 2 ^ n % 2 = 0 := by
    by_contra hne
    have : first / 2 ^ n % 2 = 1 := by omega
    rw [this] at heq
    omega
  rw [hzero] at heq
  exact ⟨hzero, by omega⟩

/-- The bytes behind a first byte, and the top bits in it. -/
theorem reads_numberLoop {first h : ℕ} : ∀ {n m i v value : ℕ}, Leads n m h first →
    Reads bound (numberLoop first n i (2 ^ n / 2) value) (leBytes m v) rest
      (value + (v % 256 ^ m + h * 256 ^ m) * 2 ^ (8 * i))
  | 0, m, i, v, value, hl => by
    obtain ⟨rfl, rfl⟩ : m = 0 ∧ h = 0 := by
      rcases hl.2 with ⟨hm, -⟩ | hm
      · omega
      · exact hm
    simp only [leBytes, pow_zero, Nat.mod_one, zero_mul, add_zero]
    exact reads_pure
  | n + 1, 0, i, v, value, hl => by
    obtain ⟨hbit, hlow⟩ := hl.stop
    rw [show 2 ^ (n + 1) / 2 = 2 ^ n by rw [pow_succ]; omega, numberLoop, if_pos hbit, hlow,
      leBytes, pow_zero, Nat.mod_one, Nat.zero_add, mul_one]
    exact reads_pure
  | n + 1, m + 1, i, v, value, hl => by
    obtain ⟨hbit, hl'⟩ := hl.step
    have hb : (UInt8.ofNat (v % 256)).toNat = v % 256 :=
      UInt8.toNat_ofNat_of_lt' (Nat.mod_lt _ (by decide))
    have ih : Reads bound (numberLoop first n (i + 1) (2 ^ n / 2) (value + v % 256 * 2 ^ (8 * i))) _ rest _ :=
      reads_numberLoop (v := v / 256) hl'
    have hval : value + v % 256 * 2 ^ (8 * i) +
          (v / 256 % 256 ^ m + h * 256 ^ m) * 2 ^ (8 * (i + 1)) =
        value + (v % 256 ^ (m + 1) + h * 256 ^ (m + 1)) * 2 ^ (8 * i) := by
      rw [pow_succ' 256 m, Nat.mod_mul, show 8 * (i + 1) = 8 * i + 8 by ring, pow_add]
      ring
    rw [hval] at ih
    rw [show 2 ^ (n + 1) / 2 = 2 ^ n by rw [pow_succ]; omega, numberLoop, if_neg (by omega), leBytes]
    refine Reads.bind (w := [_]) (reads_u8 _) ?_
    rw [hb]
    exact ih

theorem two_pow_eight_mul (i : ℕ) : 2 ^ (8 * i) = 256 ^ i := by
  rw [pow_mul]
  norm_num

/-- The first byte that is written, and the number of bytes that follow. -/
theorem writeNumberLoop_spec (value : ℕ) : ∀ (n i first : ℕ), n + i = 8 →
    ∃ m h, writeNumberLoop value n i (2 ^ n / 2) first =
        (first + (2 ^ n - 2 ^ (n - m) + h), i + m) ∧
      (m < n ∧ h < 2 ^ (n - m - 1) ∧ h = value / 256 ^ (i + m) ∨ m = n ∧ h = 0)
  | 0, i, first, _ => ⟨0, 0, rfl, .inr ⟨rfl, rfl⟩⟩
  | n + 1, i, first, hi => by
    rw [show 2 ^ (n + 1) / 2 = 2 ^ n by rw [pow_succ]; omega, writeNumberLoop]
    by_cases hlt : value < 2 ^ (7 * (i + 1))
    · rw [if_pos hlt, two_pow_eight_mul]
      have hsmall : value / 256 ^ i < 2 ^ n := by
        refine Nat.div_lt_of_lt_mul ?_
        rw [← two_pow_eight_mul, ← pow_add]
        rwa [show 8 * i + n = 7 * (i + 1) by omega]
      have hbyte : 2 ^ n ≤ 2 ^ 8 := Nat.pow_le_pow_right (by decide) (by omega)
      refine ⟨0, value / 256 ^ i, ?_, .inl ⟨Nat.succ_pos n, by simpa using hsmall, rfl⟩⟩
      rw [Nat.mod_eq_of_lt (by omega), Nat.sub_zero, Nat.sub_self, Nat.zero_add, Nat.add_zero]
    · rw [if_neg hlt]
      obtain ⟨m, h, heq, hcase⟩ := writeNumberLoop_spec value n (i + 1) (first + 2 ^ n) (by omega)
      refine ⟨m + 1, h, ?_, ?_⟩
      · have hpow : 2 ^ (n - m) ≤ 2 ^ n := Nat.pow_le_pow_right (by decide) (Nat.sub_le n m)
        rw [heq, pow_succ, show n + 1 - (m + 1) = n - m by omega,
          show i + 1 + m = i + (m + 1) by omega]
        congr 1
        omega
      · rw [show n + 1 - (m + 1) - 1 = n - m - 1 by omega, show i + (m + 1) = i + 1 + m by omega]
        omega

/-- **A number** is read back. -/
theorem reads_number {value : ℕ} (hv : value < 2 ^ 64) :
    Reads bound number (writeNumber value) rest value := by
  obtain ⟨m, h, heq, hcase⟩ := writeNumberLoop_spec value 8 0 0 rfl
  rw [Nat.zero_add, Nat.zero_add] at heq
  have hm : m ≤ 8 := by omega
  have hpos : 0 < 2 ^ (8 - m) := by positivity
  have hle : 2 ^ (8 - m) ≤ 2 ^ 8 := Nat.pow_le_pow_right (by decide) (Nat.sub_le 8 m)
  have hhalf : m < 8 → 2 ^ (8 - m) = 2 ^ (8 - m - 1) * 2 := fun hm => by
    rw [← pow_succ, show 8 - m - 1 + 1 = 8 - m by omega]
  have hfirst : 2 ^ 8 - 2 ^ (8 - m) + h < 2 ^ 8 := by
    rcases hcase with ⟨hm, hh, -⟩ | ⟨-, rfl⟩
    · have := hhalf hm
      omega
    · omega
  have hlead : Leads 8 m h (2 ^ 8 - 2 ^ (8 - m) + h) := by
    refine ⟨Nat.mod_eq_of_lt hfirst, ?_⟩
    rcases hcase with ⟨hm, hh, -⟩ | h
    · exact .inl ⟨hm, hh⟩
    · exact .inr h
  have hval : 0 + (value % 256 ^ m + h * 256 ^ m) * 2 ^ (8 * 0) = value := by
    rw [Nat.zero_add, Nat.mul_zero, pow_zero, mul_one]
    rcases hcase with ⟨-, -, rfl⟩ | ⟨rfl, rfl⟩
    · rw [Nat.zero_add, mul_comm]
      exact Nat.mod_add_div value (256 ^ m)
    · rw [zero_mul, Nat.add_zero]
      exact Nat.mod_eq_of_lt (by simpa using hv)
  unfold writeNumber
  rw [show (0x80 : ℕ) = 2 ^ 8 / 2 from rfl, heq]
  refine Reads.bind (w := [_]) (reads_u8 _) ?_
  have hloop : Reads bound (numberLoop (2 ^ 8 - 2 ^ (8 - m) + h) 8 0 (2 ^ 8 / 2) 0) _ rest _ :=
    reads_numberLoop (v := value) hlead
  rw [hval] at hloop
  rwa [UInt8.toNat_ofNat_of_lt' hfirst]

/-! ### Bit vectors -/

theorem bitLoop_zero (n cur : ℕ) :
    bitLoop (n + 1) cur 0 = (u8 >>= fun b => bitLoop (n + 1) b.toNat 0x80) := by
  funext r
  unfold bitLoop u8
  cases r with
  | mk pos rest =>
    cases rest with
    | nil => rfl
    | cons b rest => rfl

/-- The bits behind the one with the weight `2 ^ j` of a byte that has some bits already. -/
theorem reads_bitLoop : ∀ {bits : List Bool} {cur j : ℕ}, j < 8 → cur < 256 →
    cur % 2 ^ (j + 1) = 0 → (bits = [] → j < 7) → ∃ byte more,
      writeBitLoop bits cur (2 ^ j) = UInt8.ofNat byte :: more ∧ byte < 256 ∧
        byte / 2 ^ (j + 1) = cur / 2 ^ (j + 1) ∧
        Reads bound (bitLoop bits.length byte (2 ^ j)) more rest bits
  | [], cur, j, hj, hcur, hmod, hne => by
    have hmask : 2 ^ j ≠ 0x80 := by
      intro h
      have : j = 7 := Nat.pow_right_injective (le_refl 2) (h.trans (by norm_num : 0x80 = 2 ^ 7))
      have := hne rfl
      omega
    exact ⟨cur, [], by rw [writeBitLoop, if_pos hmask], hcur, rfl, reads_pure⟩
  | bit :: bits, cur, j, hj, hcur, hmod, _ => by
    obtain ⟨cur', hcur'⟩ : ∃ cur', cur' = if bit then cur + 2 ^ j else cur := ⟨_, rfl⟩
    obtain ⟨q, hq⟩ := Nat.dvd_of_mod_eq_zero hmod
    have hjle : 2 ^ j ≤ 2 ^ 7 := Nat.pow_le_pow_right (by decide) (by omega)
    have hbitval : cur' = 2 ^ j * (2 * q + if bit then 1 else 0) := by
      rw [hcur', hq, pow_succ]
      cases bit with
      | true => simp only [if_true]; ring
      | false => simp only [Bool.false_eq_true, if_false]; ring
    have hdiv : cur' / 2 ^ j = 2 * q + if bit then 1 else 0 := by
      rw [hbitval, Nat.mul_div_cancel_left _ (by positivity)]
    have hdiv' : cur / 2 ^ (j + 1) = q := by
      rw [hq, Nat.mul_div_cancel_left _ (by positivity)]
    have hlt : cur' < 256 := by
      have hk : 2 ^ (j + 1) * 2 ^ (7 - j) = 256 := by
        rw [← pow_add, show j + 1 + (7 - j) = 8 by omega]
        rfl
      have hqlt : q < 2 ^ (7 - j) := by
        by_contra hge
        have := Nat.mul_le_mul_left (2 ^ (j + 1)) (Nat.le_of_not_lt hge)
        omega
      have : 2 ^ (j + 1) * (q + 1) ≤ 2 ^ (j + 1) * 2 ^ (7 - j) := Nat.mul_le_mul_left _ hqlt
      have hpos : 0 < 2 ^ j := by positivity
      rw [hk, pow_succ] at this
      rw [hbitval]
      cases bit with
      | true => simp only [if_true]; nlinarith
      | false => simp only [Bool.false_eq_true, if_false]; nlinarith
    have hreadbit (byte : ℕ) (h : byte / 2 ^ j = cur' / 2 ^ j) :
        decide (byte / 2 ^ j % 2 = 1) = bit := by
      rw [h, hdiv]
      cases bit with
      | true => simp only [if_true, decide_eq_true_eq]; omega
      | false => simp only [Bool.false_eq_true, if_false, decide_eq_false_iff_not]; omega
    have hcurdiv (byte : ℕ) (h : byte / 2 ^ j = cur' / 2 ^ j) :
        byte / 2 ^ (j + 1) = cur / 2 ^ (j + 1) := by
      rw [pow_succ, ← Nat.div_div_eq_div_mul, h, hdiv, ← pow_succ, hdiv']
      cases bit with
      | true => simp only [if_true]; omega
      | false => simp only [Bool.false_eq_true, if_false]; omega
    have hstep (byte : ℕ) (more : List Byte) (h : byte / 2 ^ j = cur' / 2 ^ j)
        (hmore : Reads bound (bitLoop bits.length byte (2 ^ j / 2)) more rest bits) :
        Reads bound (bitLoop (bits.length + 1) byte (2 ^ j)) more rest (bit :: bits) := by
      rw [bitLoop, if_neg (by positivity)]
      refine Reads.bind_nil (a := (byte, 2 ^ j)) reads_pure (hmore.then_nil ?_)
      rw [hreadbit byte h]
      exact reads_pure
    rw [writeBitLoop, ← hcur', List.length_cons]
    cases j with
    | zero =>
      rw [if_pos (by norm_num)]
      refine ⟨cur', writeBitLoop bits 0 0x80, rfl, hlt, hcurdiv cur' rfl, hstep cur' _ rfl ?_⟩
      cases hbits : bits with
      | nil => exact reads_pure
      | cons bit' bits' =>
        obtain ⟨byte, more, hw, hbyte, -, hreads⟩ := @reads_bitLoop bits 0 7 (by decide)
          (by decide) rfl (by rw [hbits]; nofun)
        rw [hbits] at hw hreads
        rw [show (0x80 : ℕ) = 2 ^ 7 from rfl, hw, show 2 ^ 0 / 2 = 0 from rfl, List.length_cons,
          bitLoop_zero]
        refine Reads.bind (w := [_]) (reads_u8 _) ?_
        rw [UInt8.toNat_ofNat_of_lt' hbyte]
        exact hreads
    | succ j =>
      have hhalf : 2 ^ (j + 1) / 2 = 2 ^ j := by
        rw [pow_succ]
        omega
      have hmod' : cur' % 2 ^ (j + 1) = 0 := by
        rw [hbitval]
        exact Nat.mul_mod_right _ _
      obtain ⟨byte, more, hw, hbyte, hdivb, hreads⟩ := @reads_bitLoop bits cur' j (by omega) hlt
        hmod' (fun _ => by omega)
      rw [hhalf, if_neg (by positivity)]
      refine ⟨byte, more, hw, hbyte, hcurdiv byte hdivb, hstep byte more hdivb ?_⟩
      rwa [hhalf]

/-- **A bit vector** is read back. -/
theorem reads_bitVector (bits : List Bool) :
    Reads bound (bitVector bits.length) (writeBitVector bits) rest bits := by
  cases hbits : bits with
  | nil => exact reads_pure
  | cons bit bits' =>
    obtain ⟨byte, more, hw, hbyte, -, hreads⟩ := @reads_bitLoop bound rest bits 0 7 (by decide)
      (by decide) rfl (by rw [hbits]; nofun)
    rw [hbits] at hw hreads
    unfold bitVector writeBitVector
    rw [show (0x80 : ℕ) = 2 ^ 7 from rfl, hw, List.length_cons, bitLoop_zero]
    refine Reads.bind (w := [_]) (reads_u8 _) ?_
    rw [UInt8.toNat_ofNat_of_lt' hbyte]
    exact hreads

end LibarchiveOxide.SevenZip.WireLemmas

/-! # The primitives of a 7z header, written and read back

Numbers and bit vectors come back whatever follows them. A time comes back to its last full tick of
100 ns, up to the last tick that an `i64` counts. -/

namespace LibarchiveOxide.SevenZip.Primitives

open Core.Failure Core.Metadata SevenZip.Wire SevenZip.WireLemmas SevenZip.Names

/-! ### Times -/

/-- A time to the last full tick of 100 ns. -/
def ticked (t : Timestamp) : Timestamp :=
  ⟨t.secs, t.nanos / 100 * 100, by have := t.nanos_lt; omega⟩

/-- The last tick that an `i64` counts. -/
def lastTick : Timestamp := ⟨910692730085, 477580700, by decide⟩

/-- The ticks of a time do not leave the range of an `i64`. -/
def InRange (t : Timestamp) : Prop :=
  t.secs.toInt < 910692730085 ∨ t.secs.toInt = 910692730085 ∧ t.nanos < 477580800

instance (t : Timestamp) : Decidable (InRange t) := inferInstanceAs (Decidable (_ ∨ _))

theorem saturate_of_mem {n : ℤ} (h0 : 0 ≤ n) (h : n ≤ maxI64) : saturate n = n := by
  unfold saturate
  unfold maxI64 at *
  omega

theorem saturate_of_lt {n : ℤ} (h : maxI64 ≤ n) : saturate n = maxI64 := by
  unfold saturate
  unfold maxI64 at *
  omega

variable {t : Timestamp}

/-- The ticks of a time since 1601, before the last addition saturates. -/
theorem timestampToFiletime_eq (h0 : -11644473600 ≤ t.secs.toInt)
    (hmax : t.secs.toInt ≤ 910692730085) :
    timestampToFiletime t =
      (saturate ((t.secs.toInt + 11644473600) * 10000000 + (t.nanos / 100 : ℕ))).toNat := by
  unfold timestampToFiletime filetimeEpochDiff
  dsimp only
  have hsecs : saturate (t.secs.toInt + 11644473600) = t.secs.toInt + 11644473600 :=
    saturate_of_mem (by omega) (by unfold maxI64; omega)
  have hscaled : saturate ((t.secs.toInt + 11644473600) * 10000000) =
      (t.secs.toInt + 11644473600) * 10000000 :=
    saturate_of_mem (by omega) (by unfold maxI64; omega)
  rw [hsecs, hscaled]

/-- **A time in range** comes back to the tick. -/
theorem time_back (h0 : -11644473600 ≤ t.secs.toInt) (h : InRange t) :
    filetimeToTimestamp (timestampToFiletime t) = ticked t := by
  have hn := t.nanos_lt
  unfold InRange at h
  obtain ⟨s, hs⟩ : ∃ s : ℕ, t.secs.toInt + 11644473600 = s :=
    ⟨_, (Int.toNat_of_nonneg (by omega)).symm⟩
  have hticks : timestampToFiletime t = s * 10000000 + t.nanos / 100 := by
    rw [timestampToFiletime_eq h0 (by omega), hs,
      saturate_of_mem (by omega) (by unfold maxI64; omega)]
    omega
  have hmin : min (s * 10000000 + t.nanos / 100) (2 ^ 63 - 1) = s * 10000000 + t.nanos / 100 := by
    omega
  have hsecs : (s * 10000000 + t.nanos / 100) / 10000000 = s := by omega
  have hback : ((s : ℕ) : ℤ) - filetimeEpochDiff = t.secs.toInt := by
    unfold filetimeEpochDiff
    omega
  unfold ticked
  simp only [filetimeToTimestamp, hticks, hmin, hsecs, hback, Int64.ofInt_toInt, Timestamp.mk.injEq,
    true_and]
  omega

/-- A time behind the last tick comes back as that one. -/
theorem time_capped (hmax : t.secs.toInt ≤ 910692730085) (h : ¬ InRange t) :
    filetimeToTimestamp (timestampToFiletime t) = lastTick := by
  unfold InRange at h
  have hticks : timestampToFiletime t = 2 ^ 63 - 1 := by
    rw [timestampToFiletime_eq (by omega) hmax, saturate_of_lt (by unfold maxI64; omega)]
    rfl
  rw [hticks]
  rfl

/-! ### All of them -/

/-- **The primitives of a header round trip**: numbers and bit vectors whatever follows them, and times
to the tick, up to the last one that is counted. -/
theorem primitives_round_trip :
    (∀ (v pos : ℕ) (rest : List Byte), v ≤ u64Max →
      number ⟨pos, writeNumber v ++ rest⟩ = .ok (v, ⟨pos + (writeNumber v).length, rest⟩)) ∧
    (∀ (b : List Bool) (pos : ℕ) (rest : List Byte), bitVector b.length ⟨pos, writeBitVector b ++ rest⟩ =
      .ok (b, ⟨pos + (writeBitVector b).length, rest⟩)) ∧
    ∀ t : Timestamp, -11644473600 ≤ t.secs.toInt → t.secs.toInt ≤ 910692730085 →
      filetimeToTimestamp (timestampToFiletime t) = if InRange t then ticked t else lastTick := by
  refine ⟨fun v pos rest hv => ?_, fun b pos rest => ?_, fun t h0 hmax => ?_⟩
  · exact reads_number (by unfold u64Max at hv; omega) pos le_rfl
  · exact reads_bitVector b pos le_rfl
  · by_cases h : InRange t
    · rw [if_pos h, time_back h0 h]
    · rw [if_neg h, time_capped hmax h]

/-- A number, and a time. -/
theorem primitives_round_trip_small :
    number ⟨0, writeNumber 16384 ++ [7]⟩ = .ok (16384, ⟨0 + (writeNumber 16384).length, [7]⟩) ∧
      filetimeToTimestamp (timestampToFiletime ⟨5, 199, by decide⟩) = ticked ⟨5, 199, by decide⟩ :=
  ⟨primitives_round_trip.1 16384 0 [7] (by unfold u64Max; norm_num),
    (primitives_round_trip.2.2 ⟨5, 199, by decide⟩ (by decide) (by decide)).trans
      (if_pos (by decide))⟩

/-- In the last second that is counted there are times whose ticks are too many. -/
theorem late_time_capped : ∃ t : Timestamp, -11644473600 ≤ t.secs.toInt ∧
    t.secs.toInt ≤ 910692730085 ∧ filetimeToTimestamp (timestampToFiletime t) ≠ ticked t :=
  ⟨⟨910692730085, 477580800, by decide⟩, by decide, by decide, by decide⟩

end LibarchiveOxide.SevenZip.Primitives
