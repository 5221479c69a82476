import LibarchiveOxide.Core.Failure
import Mathlib.Data.BitVec
import Mathlib.Tactic

/-! # The x86 branch filter

The filter scans for `E8` and `E9` and turns the absolute target behind one into a relative one. A target
is converted again with its low bits flipped if the byte that the mask of earlier bytes selects would
look like a sign byte. It was not one before; so the second conversion is the last (`convert_two`). -/

namespace LibarchiveOxide.Codecs.BcjX86

open Core.Failure

/-- `MASK_TO_ALLOWED_STATUS`. -/
def maskToAllowedStatus : List Bool := [true, true, true, false, true, false, false, false]

/-- `MASK_TO_BIT_NUMBER`. -/
def maskToBitNumber : List ℕ := [0, 1, 2, 2, 3, 3, 3, 3]

/-- The status that an index of the table has. -/
def allowed (mask : ℕ) : Bool := maskToAllowedStatus.getD mask false

/-- The bit number that an index of the table has. -/
def bitNumber (mask : ℕ) : ℕ := maskToBitNumber.getD mask 0

/-- `test_86_ms_byte`. -/
def test86MsByte (b : Byte) : Bool := b == 0x00 || b == 0xFF

/-- `as u8`. -/
def asU8 (x : BitVec 32) : Byte := UInt8.ofBitVec (x.setWidth 8)

/-- `BcjFilter` of the x86 family: the running position and the running mask. -/
structure BcjFilter where
  pos : ℕ
  prevMask : ℕ
deriving DecidableEq

/-- The inner loop, with the rounds that it may take; `none` while it is still running. -/
def convert : ℕ → ℕ → BitVec 32 → BitVec 32 → Option (BitVec 32)
  | 0, _, _, _ => none
  | rounds + 1, prevMask, p, src =>
    let dest := src - p
    if prevMask = 0 then some dest
    else
      let index := bitNumber prevMask * 8
      if ¬ test86MsByte (asU8 (dest.sshiftRight (24 - index) &&& 0xFF#32)) then some dest
      else convert rounds prevMask p (dest ^^^ ((1#32 <<< (32 - index)) - 1#32))

/-- Where the scan stands. -/
structure Scan where
  i : ℕ
  prevPos : ℤ
  prevMask : ℕ
  buf : List Byte
deriving DecidableEq

/-- The operand behind the instruction at a position. -/
def operand (buf : List Byte) (i : ℕ) : BitVec 32 :=
  (buf.getD (i + 1) 0).toBitVec.setWidth 32 ||| (buf.getD (i + 2) 0).toBitVec.setWidth 32 <<< 8 |||
    (buf.getD (i + 3) 0).toBitVec.setWidth 32 <<< 16 ||| (buf.getD (i + 4) 0).toBitVec.setWidth 32 <<< 24

/-- The operand written back: three bytes and a sign byte. -/
def putOperand (buf : List Byte) (i : ℕ) (dest : BitVec 32) : List Byte :=
  (((buf.set (i + 1) (asU8 dest)).set (i + 2) (asU8 (dest.sshiftRight 8))).set (i + 3)
    (asU8 (dest.sshiftRight 16))).set (i + 4)
    (asU8 (~~~(((dest.sshiftRight 24) &&& 1#32) - 1#32)))

/-- The mask at an instruction that is some bytes behind the last one. -/
def maskAt (distance : ℤ) (prevMask : ℕ) : ℕ :=
  if 0 ≤ distance ∧ distance ≤ 3 then prevMask * 2 ^ (distance - 1).toNat % 8 else 0

/-- The mask behind an instruction that is left as it is. -/
def noted (prevMask : ℕ) : ℕ := (prevMask * 2 + 1) % 2 ^ 32

/-- A round of the scan. -/
def scanStep (rounds pos : ℕ) (s : Scan) : Option Scan :=
  let b := s.buf.getD s.i 0
  if b ≠ 0xE9 ∧ b ≠ 0xE8 then some { s with i := s.i + 1 }
  else
    let prevMask := maskAt ((s.i : ℤ) - s.prevPos) s.prevMask
    if prevMask ≠ 0 ∧
        (!allowed prevMask || test86MsByte (s.buf.getD (s.i + 4 - bitNumber prevMask) 0)) then
      some { s with
        prevPos := s.i
        prevMask := noted prevMask
        i := s.i + 1 }
    else if test86MsByte (s.buf.getD (s.i + 4) 0) then
      (convert rounds prevMask (BitVec.ofNat 32 (pos + s.i)) (operand s.buf s.i)).map fun dest =>
        { i := s.i + 5
          prevPos := s.i
          prevMask
          buf := putOperand s.buf s.i dest }
    else
      some { s with
        prevPos := s.i
        prevMask := noted prevMask
        i := s.i + 1 }

/-- The scan, which moves on by a byte at least in each of its rounds. -/
def scan (rounds pos stop : ℕ) : ℕ → Scan → Option Scan
  | 0, s => some s
  | n + 1, s => if s.i ≤ stop then (scanStep rounds pos s).bind (scan rounds pos stop n) else some s

/-- `x86`: the bytes that are committed, the buffer and the filter after it. The inner loop may take so
many rounds. -/
def x86 (rounds : ℕ) (f : BcjFilter) (buf : List Byte) : Option (ℕ × List Byte × BcjFilter) :=
  if buf.length < 5 then some (0, buf, f)
  else
    (scan rounds f.pos (buf.length - 5) buf.length ⟨0, -1, f.prevMask, buf⟩).map fun s =>
      let distance := (s.i : ℤ) - s.prevPos
      (s.i, s.buf,
        { pos := (f.pos + s.i) % 2 ^ 64
          prevMask := if 0 ≤ distance ∧ distance ≤ 3
            then s.prevMask * 2 ^ (distance - 1).toNat % 2 ^ 32 else 0 })

/-! ### The inner loop -/

variable {mask rounds : ℕ}

/-- The byte of a target that a mask of this bit number selects. -/
def selected (j : ℕ) (x : BitVec 32) : Byte := asU8 (x.sshiftRight (24 - j * 8) &&& 0xFF#32)

theorem selected_eq {j : ℕ} (h0 : 0 < j) (h3 : j ≤ 3) (x : BitVec 32) :
    (selected j x).toBitVec = x.extractLsb' (24 - j * 8) 8 := by
  unfold selected asU8
  interval_cases j
  all_goals
    ext i hi
    interval_cases i <;> simp [BitVec.getElem_sshiftRight]

/-- The operand has at a selected byte the byte that the guard has looked at. -/
theorem selected_operand {j : ℕ} (h0 : 0 < j) (h3 : j ≤ 3) (buf : List Byte) (i : ℕ) :
    selected j (operand buf i) = buf.getD (i + 4 - j) 0 := by
  rw [← UInt8.toBitVec_inj, selected_eq h0 h3]
  unfold operand
  interval_cases j
  all_goals
    ext k hk
    interval_cases k <;> simp

/-- Flipping the low bits of a converted target and converting it again complements them. -/
theorem setWidth_flipped {k : ℕ} (hk : k ≤ 32) {ones : BitVec 32}
    (hones : ones.setWidth k = BitVec.allOnes k) (src p : BitVec 32) :
    (((src - p) ^^^ ones) - p).setWidth k = ~~~ (src.setWidth k) := by
  rw [BitVec.sub_eq_add_neg (_ ^^^ _) p, BitVec.setWidth_add _ _ hk, BitVec.setWidth_xor, hones,
    BitVec.xor_allOnes, BitVec.sub_eq_add_neg src p, BitVec.setWidth_add _ _ hk,
    BitVec.setWidth_neg_of_le hk, BitVec.not_eq_neg_add, BitVec.not_eq_neg_add]
  ring

/-- A selected byte is one of the low bits that are flipped. -/
theorem selected_flipped {j : ℕ} (h0 : 0 < j) (h3 : j ≤ 3) (src p : BitVec 32) :
    selected j (((src - p) ^^^ ((1#32 <<< (32 - j * 8)) - 1#32)) - p) = ~~~ selected j src := by
  have hones : ((1#32 <<< (32 - j * 8)) - 1#32).setWidth (32 - j * 8) =
      BitVec.allOnes (32 - j * 8) := by
    interval_cases j <;> rfl
  have hflip := setWidth_flipped (show 32 - j * 8 ≤ 32 by omega) hones src p
  have hlow (x : BitVec 32) :
      x.extractLsb' (24 - j * 8) 8 = (x.setWidth (32 - j * 8)).extractLsb' (24 - j * 8) 8 := by
    ext i hi
    have hin : 24 - j * 8 + i < 32 - j * 8 := by omega
    simp [hin]
  rw [← UInt8.toBitVec_inj, UInt8.toBitVec_not, selected_eq h0 h3, selected_eq h0 h3, hlow, hflip,
    hlow src]
  ext i hi
  have hin : 24 - j * 8 + i < 32 - j * 8 := by omega
  simp [hin]

/-- The complement of a sign byte is a sign byte. -/
@[simp] theorem test86MsByte_not (b : Byte) : test86MsByte (~~~ b) = test86MsByte b := by
  have h0 : ~~~ b = 0x00 ↔ b = 0xFF := UInt8.not_eq_comm
  have h1 : ~~~ b = 0xFF ↔ b = 0x00 := UInt8.not_eq_comm
  rw [Bool.eq_iff_iff]
  simp only [test86MsByte, Bool.or_eq_true, beq_iff_eq, h0, h1]
  exact Or.comm

theorem bitNumber_le (mask : ℕ) : bitNumber mask ≤ 3 := by
  unfold bitNumber
  rcases Nat.lt_or_ge mask 8 with h | h
  · interval_cases mask <;> decide
  · have hlong : maskToBitNumber.length ≤ mask := h
    simp [List.getD_eq_getElem?_getD, List.getElem?_eq_none hlong]

theorem bitNumber_pos (h0 : mask ≠ 0) (h8 : mask < 8) : 0 < bitNumber mask := by
  interval_cases mask <;> first | exact absurd rfl h0 | decide

theorem convert_unmasked (h0 : mask = 0) (rounds : ℕ) (p src : BitVec 32) :
    convert (rounds + 1) mask p src = some (src - p) := if_pos h0

theorem convert_masked (h0 : mask ≠ 0) (rounds : ℕ) (p src : BitVec 32) :
    convert (rounds + 1) mask p src =
      if test86MsByte (selected (bitNumber mask) (src - p)) = false then some (src - p)
      else convert rounds mask p
        ((src - p) ^^^ ((1#32 <<< (32 - bitNumber mask * 8)) - 1#32)) := by
  rw [convert, if_neg h0]
  simp only [Bool.not_eq_true]
  rfl

/-- One round decides a target without a mask; a second one any operand that has no sign byte where the
mask selects. -/
theorem convert_two (h8 : mask < 8) (p src : BitVec 32)
    (hguard : mask ≠ 0 → test86MsByte (selected (bitNumber mask) src) = false) :
    (convert 2 mask p src).isSome := by
  by_cases h0 : mask = 0
  · rw [convert_unmasked h0]
    rfl
  have hsecond := congrArg test86MsByte
    (selected_flipped (bitNumber_pos h0 h8) (bitNumber_le mask) src p)
  rw [test86MsByte_not, hguard h0] at hsecond
  rw [convert_masked h0]
  split
  · rfl
  · rw [convert_masked h0, if_pos hsecond]
    rfl

/-- A loop that has left does not look at the rounds that are left. -/
theorem convert_rounds {p dest : BitVec 32} {rounds' : ℕ} (hle : rounds ≤ rounds') :
    ∀ {src}, convert rounds mask p src = some dest → convert rounds' mask p src = some dest := by
  induction rounds generalizing rounds' with
  | zero => simp [convert]
  | succ rounds ih =>
    intro src h
    obtain ⟨more, rfl⟩ : ∃ more, rounds' = more + 1 := ⟨rounds' - 1, by omega⟩
    by_cases h0 : mask = 0
    · rw [convert_unmasked h0] at h ⊢
      exact h
    · rw [convert_masked h0] at h ⊢
      split at h
      · rw [if_pos ‹_›]
        exact h
      · rw [if_neg ‹_›]
        exact ih (by omega) h

/-! ### The scan -/

theorem maskAt_lt (distance : ℤ) (prevMask : ℕ) : maskAt distance prevMask < 8 := by
  unfold maskAt
  split
  · exact Nat.mod_lt _ (by decide)
  · decide

/-- A round of the scan needs the inner loop twice at most. -/
theorem scanStep_two (pos : ℕ) (s : Scan) : (scanStep 2 pos s).isSome := by
  simp only [scanStep]
  split
  · rfl
  · split
    · rfl
    · rename_i hguard
      split
      · rw [Option.isSome_map]
        refine convert_two (maskAt_lt _ _) _ _ fun h0 => ?_
        rw [selected_operand (bitNumber_pos h0 (maskAt_lt _ _)) (bitNumber_le _)]
        simp only [not_and, Bool.or_eq_true, not_or, Bool.not_eq_true] at hguard
        exact (hguard h0).2
      · rfl

theorem scanStep_rounds {pos rounds' : ℕ} {s s' : Scan} (hle : rounds ≤ rounds')
    (h : scanStep rounds pos s = some s') : scanStep rounds' pos s = some s' := by
  simp only [scanStep] at h ⊢
  split at h
  case isTrue hother => rwa [if_pos hother]
  case isFalse hbranch =>
    rw [if_neg hbranch]
    split at h
    case isTrue hskipped => rwa [if_pos hskipped]
    case isFalse hguard =>
      rw [if_neg hguard]
      split at h
      case isTrue hsign =>
        obtain ⟨dest, hdest, hs'⟩ := Option.map_eq_some_iff.mp h
        rw [if_pos hsign, convert_rounds hle hdest]
        exact congrArg some hs'
      case isFalse hsign => rwa [if_neg hsign]

theorem scan_two (pos stop n : ℕ) : ∀ s, (scan 2 pos stop n s).isSome := by
  induction n with
  | zero => exact fun _ => rfl
  | succ n ih =>
    intro s
    rw [scan]
    split
    · obtain ⟨t, ht⟩ := Option.isSome_iff_exists.mp (scanStep_two pos s)
      rw [ht]
      exact ih t
    · rfl

theorem scan_rounds {pos stop rounds' : ℕ} (hle : rounds ≤ rounds') (n : ℕ) :
    ∀ {s s'}, scan rounds pos stop n s = some s' → scan rounds' pos stop n s = some s' := by
  induction n with
  | zero => exact fun h => h
  | succ n ih =>
    intro s s' h
    rw [scan] at h ⊢
    split at h
    case isTrue hin =>
      obtain ⟨t, ht, hrest⟩ := Option.bind_eq_some_iff.mp h
      rw [if_pos hin, scanStep_rounds hle ht]
      exact ih hrest
    case isFalse hout => rwa [if_neg hout]

/-- A round moves on. -/
theorem scanStep_i {pos : ℕ} {s s' : Scan} (h : scanStep rounds pos s = some s') : s.i < s'.i := by
  simp only [scanStep] at h
  split at h
  · cases h
    exact Nat.lt_succ_self _
  · split at h
    · cases h
      exact Nat.lt_succ_self _
    · split at h
      · obtain ⟨dest, -, rfl⟩ := Option.map_eq_some_iff.mp h
        exact Nat.lt_add_of_pos_right (by decide)
      · cases h
        exact Nat.lt_succ_self _

/-- The fuel of the scan suffices: it ends behind the last position that it may look at. -/
theorem scan_ends {pos stop n : ℕ} :
    ∀ {s s'}, stop < s.i + n → scan rounds pos stop n s = some s' → stop < s'.i := by
  induction n with
  | zero =>
    rintro s s' hfuel ⟨⟩
    exact hfuel
  | succ n ih =>
    intro s s' hfuel h
    rw [scan] at h
    split at h
    · obtain ⟨t, ht, hrest⟩ := Option.bind_eq_some_iff.mp h
      have hmoved := scanStep_i ht
      exact ih (by omega) hrest
    · cases h
      omega

/-- **The conversion loop leaves after two rounds at most.** With every buffer, at every position and in
every state of the mask two rounds of the inner loop are enough for each target, and more change nothing;
so the outer loop goes through the whole buffer. -/
theorem convert_at_most_twice (f : BcjFilter) (buf : List Byte) :
    (x86 2 f buf).isSome ∧ (∀ rounds, 2 ≤ rounds → x86 rounds f buf = x86 2 f buf) ∧
      ∀ committed buf' f', x86 2 f buf = some (committed, buf', f') → 5 ≤ buf.length →
        buf.length < committed + 5 := by
  unfold x86
  split
  case isTrue h =>
    exact ⟨rfl, fun _ _ => rfl, fun _ _ _ _ hlong => absurd hlong (by omega)⟩
  case isFalse h =>
    obtain ⟨s, hs⟩ := Option.isSome_iff_exists.mp
      (scan_two f.pos (buf.length - 5) buf.length ⟨0, -1, f.prevMask, buf⟩)
    refine ⟨?_, ?_, ?_⟩
    · rw [hs]
      rfl
    · intro rounds hrounds
      rw [hs, scan_rounds hrounds _ hs]
    · intro committed buf' f' hx _
      have hend := scan_ends (by omega) hs
      rw [hs] at hx
      cases hx
      omega

end LibarchiveOxide.Codecs.BcjX86
