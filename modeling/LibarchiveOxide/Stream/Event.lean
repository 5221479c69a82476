import LibarchiveOxide.Core.Metadata

/-! # Reader events and stream failures -/

namespace LibarchiveOxide.Stream.Event

open Core.Failure Core.Metadata

/-- An operating-system failure: its portable category and its message. -/
structure IoError where
  kind : String
  message : String
deriving DecidableEq

/-- A failure of a reader. -/
inductive StreamError where
  | archive (e : ArchiveError)
  | io (e : IoError)
deriving DecidableEq

/-- `StreamError::kind`. -/
def StreamError.kind : StreamError → ErrorKind
  | .archive e => e.kind
  | .io _ => .io

/-- An event of an archive reader before `Done`. -/
inductive ReaderEvent where
  | archiveMetadata (m : ArchiveMetadata)
  | entry (m : EntryMetadata)
  | data (bytes : List Byte)
  | endEntry
deriving DecidableEq

/-- What a reader delivers: some events, and then `Done` or a failure. -/
structure Events where
  events : List ReaderEvent
  ending : Except StreamError Unit

end LibarchiveOxide.Stream.Event

/-! # Archives in memory

A seekable source is modelled by its bytes: reading at a position past the end of them fails. -/

namespace LibarchiveOxide.Stream.Image

open Core.Failure Stream.Event

/-- `read_exact` of `n` bytes at `pos`. -/
def readExact (image : List Byte) (pos n : ℕ) : Except StreamError (List Byte) :=
  if pos + n ≤ image.length then .ok ((image.drop pos).take n)
  else .error (.io ⟨"UnexpectedEof", "failed to fill whole buffer"⟩)

theorem readExact_append (pre bs post : List Byte) :
    readExact (pre ++ (bs ++ post)) pre.length bs.length = .ok bs := by
  rw [readExact, if_pos (by simp only [List.length_append]; omega), List.drop_left,
    List.take_left]

theorem readExact_eq_ok {image bs : List Byte} {pos n : ℕ} :
    readExact image pos n = .ok bs ↔ pos + n ≤ image.length ∧ bs = (image.drop pos).take n := by
  unfold readExact
  split_ifs with h
  · rw [Except.ok.injEq]
    exact ⟨fun hb => ⟨h, hb.symm⟩, fun hb => hb.2.symm⟩
  · exact ⟨nofun, fun hb => absurd hb.1 h⟩

theorem length_of_readExact {image bs : List Byte} {pos n : ℕ} (h : readExact image pos n = .ok bs) :
    bs.length = n := by
  obtain ⟨hle, rfl⟩ := readExact_eq_ok.mp h
  rw [List.length_take, List.length_drop]
  omega

end LibarchiveOxide.Stream.Image
