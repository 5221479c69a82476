import LibarchiveOxide.Core.Failure

/-! # Random-access sources

The failures, the budgets and the source trait that the range reader and the volume set share. An
`io::Error` is either a typed range failure or a failure the provider reported. -/

namespace LibarchiveOxide.Range.Source

open Core.Failure Core.Budget

/-- The zero-based logical volume identifier. -/
abbrev VolumeId := UInt32

/-- `u32::MAX`. -/
def u32Max : ℕ := 2 ^ 32 - 1

/-- Stable classification for failures detected at a random-access boundary. -/
inductive RangeReadErrorKind where
  | identityChanged
  | lengthChanged
  | offsetOutOfBounds
  | offsetOverflow
  | noProgress
  | shortRead
  | invalidReadCount
  | metricsOverflow
  | cacheBudgetExceeded
  | sourceSizeExceeded
  | volumeCountExceeded
  | volumeBytesExceeded
  | missingVolume
  | sourceUnavailable
deriving DecidableEq

/-- A protocol failure with its offset, volume and limit context. -/
structure RangeReadError where
  kind : RangeReadErrorKind
  offset : Option ℕ := none
  requested : Option ℕ := none
  volume : Option VolumeId := none
  declared : Option ℕ := none
  limit : Option ℕ := none
deriving DecidableEq

namespace RangeReadError

/-- Adds the range that was addressed. -/
def atRange (e : RangeReadError) (offset requested : ℕ) : RangeReadError :=
  { e with offset := some offset, requested := some requested }

/-- Adds the volume. -/
def forVolume (e : RangeReadError) (volume : VolumeId) : RangeReadError :=
  { e with volume := some volume }

/-- Adds the observed value and the configured maximum. -/
def withBudget (e : RangeReadError) (declared limit : ℕ) : RangeReadError :=
  { e with declared := some declared, limit := some limit }

end RangeReadError

/-- An `io::Error`: a range failure, or one the provider reported, of which only its being
`ErrorKind::UnexpectedEof` is looked at. -/
inductive IoError where
  | range (error : RangeReadError)
  | provider (unexpectedEof : Bool)
deriving DecidableEq

/-- `range_error(RangeReadError::new(kind))`. -/
def rangeError (kind : RangeReadErrorKind) : IoError := .range { kind := kind }

/-- `range_error_at`. -/
def rangeErrorAt (kind : RangeReadErrorKind) (offset requested : ℕ) : IoError :=
  .range (({ kind := kind } : RangeReadError).atRange offset requested)

/-- Budgets for encoded sources and volumes. -/
structure SourceLimits where
  sourceBytes : Option ℕ
  volumes : Option UInt32
  volumeBytes : Option ℕ
deriving DecidableEq

namespace SourceLimits

/-- One gibibyte. -/
def gib : ℕ := 1024 * 1024 * 1024

/-- The safe defaults: 64 GiB per source, 256 volumes and 256 GiB in total. -/
def safe : SourceLimits where
  sourceBytes := some (64 * gib)
  volumes := some 256
  volumeBytes := some (256 * gib)

/-- No configurable budget. -/
def unlimited : SourceLimits where
  sourceBytes := none
  volumes := none
  volumeBytes := none

end SourceLimits

/-- An immutable source as its callers see it without reading: its identity and its declared
length, a `u64`. -/
class ReadAt (S : Type) where
  identity : S → List Byte
  len : S → ℕ
  len_le : ∀ s, len s ≤ u64Max

/-- The in-memory source. -/
structure MemoryReadAt where
  bytes : List Byte
  identity : List Byte
deriving DecidableEq

instance : ReadAt MemoryReadAt where
  identity := MemoryReadAt.identity
  len s := min s.bytes.length u64Max
  len_le _ := min_le_right _ _

/-- A declared length is within the budget for one source. -/
def validateSourceLength (length : ℕ) (limits : SourceLimits) (volume : Option VolumeId) :
    Except IoError Unit :=
  match limits.sourceBytes with
  | none => .ok ()
  | some limit =>
    if length ≤ limit then .ok ()
    else
      let error := ({ kind := .sourceSizeExceeded } : RangeReadError).withBudget length limit
      .error (.range (match volume with
        | some v => error.forVolume v
        | none => error))

/-- A source still is the version that was captured. -/
def validateReadAtSnapshot {S : Type} [ReadAt S] (source : S) (identity : List Byte)
    (length : ℕ) : Except IoError Unit :=
  if ReadAt.identity source ≠ identity then .error (rangeError .identityChanged)
  else if ReadAt.len source ≠ length then .error (rangeError .lengthChanged)
  else .ok ()

/-- An immutable source is the version captured from it. -/
theorem validateReadAtSnapshot_self {S : Type} [ReadAt S] (source : S) :
    validateReadAtSnapshot source (ReadAt.identity source) (ReadAt.len source) = .ok () := by
  simp [validateReadAtSnapshot]

end LibarchiveOxide.Range.Source
