import Mathlib.Tactic

/-! # Failures

`Error` is the crate-internal error of the sans-IO layer, `ArchiveError` the public one. The first
converts into the second by keeping its message as the only context frame (`ArchiveError.ofError`);
each format then adds its name. -/

namespace LibarchiveOxide.Core.Failure

/-- A byte of an archive. -/
abbrev Byte := UInt8

/-- The bytes of a Rust byte-string literal. -/
def bstr (s : String) : List Byte := s.toList.map fun c => UInt8.ofNat c.toNat

/-- The byte of an ASCII character (a Rust byte literal). -/
def chr (c : Char) : Byte := UInt8.ofNat c.toNat

/-- The largest `u64`; the targets modelled have a 64-bit `usize`, so it is `usize::MAX` too. -/
def u64Max : ℕ := 2 ^ 64 - 1

theorem u64Max_pos : 0 < u64Max := by decide

/-- Crate-internal failures. -/
inductive Error where
  | malformed (message : String)
  | unsupported (message : String)
  | limitExceeded (message : String)
  | invalidState (message : String)
deriving DecidableEq

/-- Stable classification of archive failures. -/
inductive ErrorKind where
  | io
  | malformed
  | unsupported
  | limit
  | integrity
  | capability
  | sizeRequired
  | protocol
  | policy
deriving DecidableEq

/-- A failure with its context: the format, the entry it concerns and the diagnostic frames. -/
structure ArchiveError where
  kind : ErrorKind
  format : Option String := none
  entry : Option (ℕ × List Byte) := none
  context : List String := []
deriving DecidableEq

namespace ArchiveError

/-- Adds a diagnostic frame. -/
def withContext (e : ArchiveError) (c : String) : ArchiveError :=
  { e with context := e.context ++ [c] }

/-- Adds the format. -/
def withFormat (e : ArchiveError) (f : String) : ArchiveError := { e with format := some f }

/-- Adds the entry. -/
def withEntry (e : ArchiveError) (index : ℕ) (path : List Byte) : ArchiveError :=
  { e with entry := some (index, path) }

/-- `From<Error> for ArchiveError`. -/
def ofError : Error → ArchiveError
  | .malformed m => ({ kind := .malformed } : ArchiveError).withContext m
  | .unsupported m => ({ kind := .unsupported } : ArchiveError).withContext m
  | .limitExceeded m => ({ kind := .limit } : ArchiveError).withContext m
  | .invalidState m => ({ kind := .protocol } : ArchiveError).withContext m

/-- `ArchiveError::new(kind).with_format(format).with_context(context)`. -/
def inFormat (format : String) (kind : ErrorKind) (context : String) : ArchiveError :=
  (({ kind := kind } : ArchiveError).withFormat format).withContext context

end ArchiveError

/-- A crate-internal result seen as a public one. -/
def liftError {α : Type} (r : Except Error α) : Except ArchiveError α :=
  r.mapError ArchiveError.ofError

/-- `u64::checked_add` (and `usize::checked_add`). -/
def checkedAdd (a b : ℕ) : Option ℕ := if a + b ≤ u64Max then some (a + b) else none

/-- `u64::checked_mul`. -/
def checkedMul (a b : ℕ) : Option ℕ := if a * b ≤ u64Max then some (a * b) else none

theorem checkedAdd_eq_some {a b c : ℕ} : checkedAdd a b = some c ↔ c = a + b ∧ a + b ≤ u64Max := by
  unfold checkedAdd
  split_ifs with h
  · simp only [Option.some.injEq, h, and_true]; exact eq_comm
  · simp [h]

theorem checkedMul_eq_some {a b c : ℕ} : checkedMul a b = some c ↔ c = a * b ∧ a * b ≤ u64Max := by
  unfold checkedMul
  split_ifs with h
  · simp only [Option.some.injEq, h, and_true]; exact eq_comm
  · simp [h]

theorem checkedAdd_of_le {a b : ℕ} (h : a + b ≤ u64Max) : checkedAdd a b = some (a + b) := if_pos h

theorem checkedMul_of_le {a b : ℕ} (h : a * b ≤ u64Max) : checkedMul a b = some (a * b) := if_pos h

/-- The value of an optional result, or the given failure (`Option::ok_or`). -/
def okOr {ε α : Type} (o : Option α) (e : ε) : Except ε α :=
  match o with
  | some a => .ok a
  | none => .error e

@[simp] theorem okOr_some {ε α : Type} (a : α) (e : ε) : okOr (some a) e = .ok a := rfl

@[simp] theorem okOr_none {ε α : Type} (e : ε) : okOr (none : Option α) e = .error e := rfl

theorem okOr_eq_ok {ε α : Type} {o : Option α} {e : ε} {a : α} : okOr o e = .ok a ↔ o = some a := by
  cases o with
  | none => simp
  | some b => simp

theorem okOr_eq_error {ε α : Type} {o : Option α} {e e' : ε} :
    okOr o e = .error e' ↔ o = none ∧ e = e' := by
  cases o <;> simp [okOr]

end LibarchiveOxide.Core.Failure

/-! # Resource budgets

Every budget is optional; an absent one is no limit. A present zero is a real zero-byte limit. -/

namespace LibarchiveOxide.Core.Budget

/-- The cross-format resource budgets. -/
structure Limits where
  decodedTotal : Option ℕ
  entryBytes : Option ℕ
  entries : Option ℕ
  metadataBytes : Option ℕ
  codecMemory : Option ℕ
  pathBytes : Option ℕ
  nesting : Option ℕ
  filterDepth : Option ℕ
  inFlightBytes : Option ℕ
deriving DecidableEq

namespace Limits

/-- Four gibibytes. -/
def fourGib : ℕ := 4 * 1024 * 1024 * 1024

/-- The finite safe profile, which is also the default. -/
def safe : Limits where
  decodedTotal := some fourGib
  entryBytes := some fourGib
  entries := some 1000000
  metadataBytes := some (64 * 1024 * 1024)
  codecMemory := some (64 * 1024 * 1024)
  pathBytes := some (64 * 1024)
  nesting := some 64
  filterDepth := some 4
  inFlightBytes := some (8 * 1024 * 1024)

/-- No configurable budget at all. -/
def unlimited : Limits where
  decodedTotal := none
  entryBytes := none
  entries := none
  metadataBytes := none
  codecMemory := none
  pathBytes := none
  nesting := none
  filterDepth := none
  inFlightBytes := none

end Limits

/-- `limit.is_some_and(|limit| actual > limit)`. -/
def exceeds (actual : ℕ) (limit : Option ℕ) : Bool := limit.any fun l => decide (l < actual)

@[simp] theorem exceeds_none (a : ℕ) : exceeds a none = false := rfl

theorem exceeds_some (a l : ℕ) : exceeds a (some l) = decide (l < a) := rfl

/-- The amount stays within the budget. -/
def Within (actual : ℕ) (limit : Option ℕ) : Prop := ∀ l, limit = some l → actual ≤ l

variable {limit : Option ℕ}

theorem within_iff {a : ℕ} : Within a limit ↔ exceeds a limit = false := by
  cases limit with
  | none => simp [Within]
  | some l => simp [Within, exceeds_some]

theorem within_of_not_exceeds {a : ℕ} (h : ¬ exceeds a limit = true) : Within a limit :=
  within_iff.mpr (by simpa using h)

theorem Within.mono {a b : ℕ} (h : Within b limit) (hab : a ≤ b) :
    Within a limit := fun l hl => hab.trans (h l hl)

theorem within_zero (limit : Option ℕ) : Within 0 limit := fun _ _ => Nat.zero_le _

end LibarchiveOxide.Core.Budget
