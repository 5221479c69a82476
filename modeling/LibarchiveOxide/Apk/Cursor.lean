import LibarchiveOxide.Core.Failure
import LibarchiveOxide.Lib.Parser
import LibarchiveOxide.Lib.Radix

/-! # The byte cursor of the APK verifier

`ByteCursor` reads a byte string from the front; its state is what is left. A sequence is read item
by item until nothing is left, with a bound on the number of items (`items`). -/

namespace LibarchiveOxide.Apk.Cursor

open Core.Failure Lib.LittleEndian Lib.Parser

/-- `Failure`. -/
inductive Failure where
  | invalid (detail : String)
  | mismatch (detail : String)
  | unsupported (detail : String)
  | resource (detail : String)
  | read (detail : String)
deriving DecidableEq

/-- A reader of the bytes that are left. -/
abbrev CursorM := StateT (List Byte) (Except Failure)

/-- `ByteCursor::new`, and what a reader makes of the bytes. -/
def readAll {α : Type} (p : CursorM α) (bytes : List Byte) : Except Failure α :=
  (p bytes).map Prod.fst

/-- `{:#010x}`. -/
def hex (n : ℕ) : String :=
  let digits := Nat.toDigits 16 n
  "0x" ++ String.ofList (List.replicate (8 - digits.length) '0' ++ digits)

/-- `ByteCursor::take`. -/
def take (length : ℕ) (what : String) : CursorM (List Byte) := do
  let bytes ← get
  if bytes.length < length then throw (.invalid s!"{what} is truncated")
  set (bytes.drop length)
  return bytes.take length

/-- `ByteCursor::u32`. -/
def u32 (what : String) : CursorM ℕ := do return leValue (← take 4 what)

/-- `ByteCursor::length_prefixed`. -/
def lengthPrefixed (what : String) : CursorM (List Byte) := do
  let length ← u32 s!"{what} length"
  take length what

/-- `ByteCursor::finish`. -/
def finish (what : String) : CursorM Unit := do
  let bytes ← get
  if bytes ≠ [] then throw (.invalid s!"{what} has {bytes.length} trailing bytes")

/-- A loop `while cursor.remaining() != 0` that reads at most `n` more items into an accumulator. -/
def items {β : Type} (tooMany : Failure) (item : β → CursorM β) : ℕ → β → CursorM β
  | 0, acc => do if (← get) = [] then return acc else throw tooMany
  | n + 1, acc => do
    if (← get) = [] then return acc
    else
      let acc ← item acc
      items tooMany item n acc

variable {α β : Type}

theorem readAll_ok {p : CursorM α} {bytes : List Byte} {a : α} (h : readAll p bytes = .ok a) :
    ∃ rest, p bytes = .ok (a, rest) := by
  obtain ⟨⟨_, rest⟩, hp, rfl⟩ := Lib.Result.map_eq_ok.mp h
  exact ⟨rest, hp⟩

/-- **The invariant rule** of the loop. -/
theorem items_ok {P : β → Prop} {tooMany : Failure} {item : β → CursorM β}
    (hstep : ∀ {acc s acc' s'}, P acc → item acc s = .ok (acc', s') → P acc') :
    ∀ {n : ℕ} {acc acc' : β} {s s' : List Byte}, P acc →
      items tooMany item n acc s = .ok (acc', s') → P acc'
  | 0, acc, acc', s, s', h0, h => by
    obtain ⟨s1, s2, hget, h⟩ := bind_eq_ok.mp h
    split_ifs at h
    · cases h
      exact h0
    · cases h
  | n + 1, acc, acc', s, s', h0, h => by
    obtain ⟨s1, s2, hget, h⟩ := bind_eq_ok.mp h
    split_ifs at h
    · cases h
      exact h0
    · obtain ⟨acc1, s3, h1, h⟩ := bind_eq_ok.mp h
      exact items_ok hstep (hstep h0 h1) h

end LibarchiveOxide.Apk.Cursor
