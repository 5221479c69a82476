import LibarchiveOxide.Lib.Slice
import LibarchiveOxide.SevenZip.Reader

/-! # Runs of the 7z reader

A caller reads each entry to its end, or reads some data events and skips the rest. Either way the
entry is decoded completely (`processEntry_data`), so the next one finds the decoder in the same
place. -/

namespace LibarchiveOxide.SevenZip.Runs

open Core.Failure Core.Metadata Core.Budget Lib Stream.Event SevenZip.Graph SevenZip.Header
open SevenZip.Reader

/-- What a caller does with an entry: it reads it to the end, or it reads so many data events, if
there are as many, and skips the rest. -/
inductive Choice where
  | readAll
  | skipAfter (events : ℕ)
deriving DecidableEq

variable (env : Env) (ch : Chunking)

/-- At most `k` data events of an entry, and whether its end came before. -/
def readData : ℕ → Act (List Byte × Bool)
  | 0 => pure ([], false)
  | k + 1 => do
    let event ← nextEvent env ch
    match event with
    | some (.data bs) => do
      let (more, ended) ← readData k
      pure (bs ++ more, ended)
    | _ => pure ([], true)

/-- The events of an entry are at most as many as its bytes and its end. -/
def eventBound (r : SevenZSeekReader) : ℕ :=
  match r.phase with
  | .data remaining => remaining + 1
  | _ => 1

/-- An open entry dealt with: its data, if it was read to the end. -/
def processEntry : Choice → Act (Option (List Byte))
  | .readAll => do
    let r ← get
    let (bs, _) ← readData env ch (eventBound r)
    pure (some bs)
  | .skipAfter k => do
    let (bs, ended) ← readData env ch k
    if ended then pure (some bs)
    else do
      skipEntry env ch
      let _ ← nextEvent env ch
      pure none

/-- The entries a run came to, with the data of those read to the end, and how the run ended: at
`Done`, or with a failure at an entry. -/
structure Outcome where
  entries : List (EntryMetadata × Option (List Byte))
  result : Except (ℕ × ArchiveError) Unit

/-- The entries from the `i`th on; there is a round for each file and one for the end. -/
def runFrom (choices : ℕ → Choice) : ℕ → ℕ → SevenZSeekReader → Outcome
  | 0, _, _ => ⟨[], .ok ()⟩
  | fuel + 1, i, r =>
    match nextEvent env ch r with
    | .error e => ⟨[], .error (i, e)⟩
    | .ok (some (.entry m), r) =>
      match processEntry env ch (choices i) r with
      | .error e => ⟨[(m, none)], .error (i, e)⟩
      | .ok (body, r) =>
        let o := runFrom choices fuel (i + 1) r
        ⟨(m, body) :: o.entries, o.result⟩
    | .ok (_, _) => ⟨[], .ok ()⟩

/-- A new reader of a layout; the archive metadata is its first event. -/
def opened (limits : Limits) (files : List FileRec) (folders : List FolderInfo)
    (metadata : ArchiveMetadata) : SevenZSeekReader where
  limits := limits
  archiveMetadata := some metadata
  files := files
  folders := folders

/-- A run over a layout. -/
def run (choices : ℕ → Choice) (limits : Limits) (files : List FileRec)
    (folders : List FolderInfo) (metadata : ArchiveMetadata) : Outcome :=
  match nextEvent env ch (opened limits files folders metadata) with
  | .error e => ⟨[], .error (0, e)⟩
  | .ok (_, r) => runFrom env ch choices (files.length + 1) 0 r

/-! ### Reading bytes -/

variable {env : Env} {ch : Chunking}

/-- The failure of a stored digest. -/
def IsDigest (e : ArchiveError) : Prop :=
  e = sevenError .integrity "wrong password or corrupt data" ∨
    e = sevenError .integrity "substream CRC-32 mismatch"

instance (e : ArchiveError) : Decidable (IsDigest e) := inferInstanceAs (Decidable (_ ∨ _))

theorem not_isDigest_malformed (context : String) :
    ¬ IsDigest (sevenError .malformed context) := by
  rintro (h | h)
  · exact ErrorKind.noConfusion (congrArg ArchiveError.kind h)
  · exact ErrorKind.noConfusion (congrArg ArchiveError.kind h)

/-- The reader with another number of reads. -/
def withReads (r : SevenZSeekReader) (k : ℕ) : SevenZSeekReader := { r with reads := k }

section Fields

variable (r : SevenZSeekReader) (k : ℕ)

@[simp] theorem withReads_input : (withReads r k).input = r.input := rfl
@[simp] theorem withReads_limits : (withReads r k).limits = r.limits := rfl
@[simp] theorem withReads_archiveMetadata :
    (withReads r k).archiveMetadata = r.archiveMetadata := rfl
@[simp] theorem withReads_files : (withReads r k).files = r.files := rfl
@[simp] theorem withReads_folders : (withReads r k).folders = r.folders := rfl
@[simp] theorem withReads_activeFolder : (withReads r k).activeFolder = r.activeFolder := rfl
@[simp] theorem withReads_nextFile : (withReads r k).nextFile = r.nextFile := rfl
@[simp] theorem withReads_phase : (withReads r k).phase = r.phase := rfl
@[simp] theorem withReads_decodedPosition :
    (withReads r k).decodedPosition = r.decodedPosition := rfl
@[simp] theorem withReads_decodedTotal : (withReads r k).decodedTotal = r.decodedTotal := rfl
@[simp] theorem withReads_entryCrc : (withReads r k).entryCrc = r.entryCrc := rfl
@[simp] theorem withReads_activeFolderEncrypted :
    (withReads r k).activeFolderEncrypted = r.activeFolderEncrypted := rfl
@[simp] theorem withReads_hasDecoder : (withReads r k).hasDecoder = r.hasDecoder := rfl

end Fields

/-- So many bytes more are within the limits. -/
def Fits (r : SevenZSeekReader) (n : ℕ) : Prop :=
  r.decodedPosition + n ≤ u64Max ∧ r.decodedTotal + n ≤ u64Max ∧
    Within (r.decodedTotal + n) r.limits.decodedTotal

variable {m : ℕ}

theorem Fits.mono {r : SevenZSeekReader} {n : ℕ} (h : Fits r n) (hmn : m ≤ n) : Fits r m :=
  ⟨by have := h.1; omega, by have := h.2.1; omega, h.2.2.mono (by omega)⟩

/-- The reader after so many bytes of the decoder's, folded into the running CRC or not. -/
def advance (r : SevenZSeekReader) (left : List Byte) (n : ℕ) (fold : Bool) (reads : ℕ) :
    SevenZSeekReader :=
  { r with
    input := .decoder (left.drop n)
    decodedPosition := r.decodedPosition + n
    decodedTotal := r.decodedTotal + n
    entryCrc := if fold then r.entryCrc.map (fun c => (c.1 ++ left.take n, c.2)) else r.entryCrc
    reads := reads }

theorem fits_advance {r : SevenZSeekReader} {left : List Byte} {m n : ℕ} {fold : Bool} {k : ℕ} :
    Fits (advance r left m fold k) n ↔ Fits r (m + n) := by
  unfold Fits advance
  dsimp only
  rw [Nat.add_assoc, Nat.add_assoc]

theorem advance_advance (r : SevenZSeekReader) (left : List Byte) (m n : ℕ) (fold : Bool)
    (j k : ℕ) :
    advance (advance r left m fold j) (left.drop m) n fold k = advance r left (m + n) fold k := by
  have hcrc : ∀ c : Option (List Byte × UInt32),
      (c.map fun c => (c.1 ++ left.take m, c.2)).map
        (fun c => (c.1 ++ (left.drop m).take n, c.2)) =
      c.map fun c => (c.1 ++ left.take (m + n), c.2) := by
    intro c
    cases c with
    | none => rfl
    | some c => simp [List.take_add]
  unfold advance
  cases fold with
  | true => simp only [if_true, hcrc, List.drop_drop, Nat.add_assoc]
  | false => simp only [Bool.false_eq_true, if_false, List.drop_drop, Nat.add_assoc]

theorem advance_zero {r : SevenZSeekReader} {left : List Byte} (hin : r.input = .decoder left)
    (fold : Bool) : advance r left 0 fold r.reads = r := by
  cases r with
  | mk input =>
    cases hin
    unfold advance
    cases fold with
    | true => simp
    | false => simp

/-- The accounting of some bytes. -/
theorem accountDecoded_of_fits {r : SevenZSeekReader} {n : ℕ} (h : Fits r n) :
    accountDecoded n r = .ok ((), { r with
      decodedPosition := r.decodedPosition + n, decodedTotal := r.decodedTotal + n }) := by
  have hx := within_iff.mp h.2.2
  unfold accountDecoded
  rw [Parser.bind_of_ok rfl, checkedAdd_of_le h.1]
  dsimp only
  rw [checkedAdd_of_le h.2.1]
  dsimp only
  rw [hx]
  rfl

theorem accountDecoded_of_not_fits {r : SevenZSeekReader} {n : ℕ} (h : ¬ Fits r n) :
    ∃ e, accountDecoded n r = .error e ∧ ¬ IsDigest e := by
  unfold accountDecoded
  rw [Parser.bind_of_ok rfl]
  cases h1 : checkedAdd r.decodedPosition n with
  | none => exact ⟨_, rfl, by decide⟩
  | some p =>
    dsimp only
    cases h2 : checkedAdd r.decodedTotal n with
    | none => exact ⟨_, rfl, by decide⟩
    | some t =>
      dsimp only
      obtain ⟨rfl, hp⟩ := checkedAdd_eq_some.mp h1
      obtain ⟨rfl, ht⟩ := checkedAdd_eq_some.mp h2
      have hx : exceeds (r.decodedTotal + n) r.limits.decodedTotal = true := by
        by_contra hx
        exact h ⟨hp, ht, within_of_not_exceeds hx⟩
      rw [if_pos hx]
      exact ⟨_, rfl, by decide⟩

/-- One read of the decoder: at least a byte, unless there is none left. -/
theorem readDecoded_cases (ch : Chunking) {r : SevenZSeekReader} {left : List Byte} (hin : r.input = .decoder left)
    {amount : ℕ} (ha : 0 < amount) :
    ∃ n ≤ amount, n ≤ left.length ∧ (left ≠ [] → 0 < n) ∧
      ((Fits r n ∧ readDecoded ch amount r =
          .ok (left.take n, advance r left n false (r.reads + 1))) ∨
        (¬ Fits r n ∧ ∃ e, readDecoded ch amount r = .error e ∧ ¬ IsDigest e)) := by
  have hpos := ch.count_pos r.reads amount ha
  refine ⟨min (min (ch.count r.reads amount) amount) left.length, by omega, by omega, ?_, ?_⟩
  · intro hne
    have := List.length_pos_iff.mpr hne
    omega
  · unfold readDecoded
    rw [Parser.bind_of_ok rfl, hin]
    dsimp only
    rw [Parser.bind_of_ok rfl]
    set n := min (min (ch.count r.reads amount) amount) left.length
    by_cases hf : Fits r n
    · refine .inl ⟨hf, ?_⟩
      have hf' : Fits { r with input := .decoder (left.drop n), reads := r.reads + 1 } n := hf
      rw [Parser.bind_of_ok (accountDecoded_of_fits hf')]
      rfl
    · have hf' : ¬ Fits { r with input := .decoder (left.drop n), reads := r.reads + 1 } n := hf
      obtain ⟨e, he, hd⟩ := accountDecoded_of_not_fits hf'
      exact .inr ⟨hf, e, by rw [Parser.bind_of_error he], hd⟩

/-- A failed call fails, whatever was to follow. -/
theorem fail_bind {α β : Type} (kind : ErrorKind) (context : String) (f : α → Act β)
    (r : SevenZSeekReader) :
    ((fail kind context : Act α) >>= f) r = .error (sevenError kind context) :=
  Parser.bind_of_error (Parser.throw_apply _ _)

/-- The guard at the head of a call, as `do` spells it. -/
theorem guard_of_pos {p : Prop} [Decidable p] {β : Type} {kind : ErrorKind} {context : String}
    {f : Unit → Act β} {g : Act β} {r : SevenZSeekReader} (h : p) :
    (if p then fail kind context >>= f else g) r = .error (sevenError kind context) := by
  rw [if_pos h, fail_bind]

theorem guard_of_neg {p : Prop} [Decidable p] {β : Type} {kind : ErrorKind} {context : String}
    {f : Unit → Act β} {g : Act β} {r : SevenZSeekReader} (h : ¬ p) :
    (if p then fail kind context >>= f else g) r = g r := by
  rw [if_neg h]

/-- The bytes of one read folded into the running CRC, or not. -/
theorem updateCrcIf_advance {r : SevenZSeekReader} {left : List Byte} {n k : ℕ} (fold : Bool) :
    updateCrcIf fold (left.take n) (advance r left n false k) =
      .ok ((), advance r left n fold k) := by
  cases fold with
  | false => rfl
  | true => rfl

variable {c : ℕ}

theorem take_not_isEmpty {left : List Byte} (hc : 0 < c) (hcl : c ≤ left.length) :
    ¬ (left.take c).isEmpty = true := by
  rw [List.isEmpty_iff, List.take_eq_nil_iff]
  rintro (h | h)
  · omega
  · rw [h, List.length_nil] at hcl
    omega

/-- **A reading loop**, in pieces of any size: it reads what it is to read if the decoder has that
much and the limits allow it, and fails otherwise, but not on a digest. -/
theorem readLoop_spec (ch : Chunking) {cap : ℕ} (hcap : 0 < cap) (fold : Bool) (context : String) :
    ∀ (fuel : ℕ) {n : ℕ} {r : SevenZSeekReader} {left : List Byte}, r.input = .decoder left →
    Fits r 0 → n ≤ fuel →
    (n ≤ left.length → Fits r n → ∃ k, readLoop ch cap fold context fuel n r =
      .ok (left.take n, advance r left n fold k)) ∧
    (¬ (n ≤ left.length ∧ Fits r n) → ∃ e, readLoop ch cap fold context fuel n r = .error e ∧
      ¬ IsDigest e)
  | 0, n, r, left, hin, h0, hn => by
    obtain rfl : n = 0 := by omega
    refine ⟨fun _ _ => ⟨r.reads, ?_⟩, fun h => absurd ⟨Nat.zero_le _, h0⟩ h⟩
    rw [readLoop, Parser.pure_apply]
    rw [advance_zero hin, List.take_zero]
  | fuel + 1, n, r, left, hin, h0, hn => by
    rw [readLoop]
    by_cases hn0 : n = 0
    · subst hn0
      rw [if_pos rfl]
      refine ⟨fun _ _ => ⟨r.reads, ?_⟩, fun h => absurd ⟨Nat.zero_le _, h0⟩ h⟩
      rw [Parser.pure_apply, advance_zero hin, List.take_zero]
    rw [if_neg hn0]
    obtain ⟨c, hca, hcl, hcpos, ⟨hfc, hread⟩ | ⟨hfc, e, hread, hd⟩⟩ :=
      readDecoded_cases ch hin (show 0 < min n cap by omega)
    · rw [Parser.bind_of_ok hread]
      by_cases hne : left = []
      · subst hne
        rw [List.take_nil, guard_of_pos (List.isEmpty_nil (α := Byte))]
        refine ⟨fun h _ => ?_, fun _ => ⟨_, rfl, not_isDigest_malformed context⟩⟩
        rw [List.length_nil] at h
        omega
      · have hc := hcpos hne
        have hlen : (left.take c).length = c := List.length_take_of_le hcl
        rw [guard_of_neg (take_not_isEmpty hc hcl)]
        dsimp only
        rw [Parser.bind_of_ok (updateCrcIf_advance fold), hlen]
        have hin' : (advance r left c fold (r.reads + 1)).input = .decoder (left.drop c) := rfl
        have h0' : Fits (advance r left c fold (r.reads + 1)) 0 := fits_advance.mpr hfc
        obtain ⟨ihok, iherr⟩ := readLoop_spec ch hcap fold context fuel (n := n - c) hin' h0' (by omega)
        have hsum : c + (n - c) = n := by omega
        refine ⟨fun hl hf => ?_, fun hno => ?_⟩
        · obtain ⟨k, hk⟩ := ihok (by rw [List.length_drop]; omega)
            (fits_advance.mpr (by rw [hsum]; exact hf))
          refine ⟨k, ?_⟩
          rw [Parser.bind_of_ok hk, Parser.pure_apply, advance_advance, hsum, ← List.take_add, hsum]
        · obtain ⟨e, he, hd⟩ := iherr fun ⟨h1, h2⟩ => by
            rw [List.length_drop] at h1
            rw [fits_advance, hsum] at h2
            exact hno ⟨by omega, h2⟩
          exact ⟨e, by rw [Parser.bind_of_error he], hd⟩
    · refine ⟨fun _ hf => absurd (hf.mono (by omega)) hfc, fun _ => ⟨e, ?_, hd⟩⟩
      rw [Parser.bind_of_error hread]

/-! ### The data of an entry -/

variable {i : ℕ}

variable {r : SevenZSeekReader} {left : List Byte} {n k : ℕ}

/-- The digest of the entry, if it has one, is that of its bytes. -/
def DigestOk (env : Env) (c : Option (List Byte × UInt32)) : Prop :=
  ∀ bs expected, c = some (bs, expected) → env.crc32 bs = expected

/-- The failure of the digest of the open entry. -/
def digestError (r : SevenZSeekReader) : ArchiveError :=
  sevenError .integrity (if r.activeFolderEncrypted then "wrong password or corrupt data"
    else "substream CRC-32 mismatch")

theorem verifyEntryCrc_of_ok (h : DigestOk env r.entryCrc) :
    verifyEntryCrc env r = .ok ((), { r with entryCrc := none }) := by
  unfold verifyEntryCrc
  rw [Parser.bind_of_ok rfl]
  obtain hc | ⟨bs, expected, hc⟩ : r.entryCrc = none ∨ ∃ bs expected, r.entryCrc = some (bs, expected) := by
    cases r.entryCrc with
    | none => exact .inl rfl
    | some c => exact .inr ⟨c.1, c.2, rfl⟩
  · rw [hc]
    cases r
    cases hc
    rfl
  · rw [hc]
    exact guard_of_neg fun hne => hne (h bs expected hc)

theorem verifyEntryCrc_of_not_ok (h : ¬ DigestOk env r.entryCrc) :
    verifyEntryCrc env r = .error (digestError r) := by
  unfold DigestOk at h
  push Not at h
  obtain ⟨bs, expected, hc, hne⟩ := h
  unfold verifyEntryCrc
  rw [Parser.bind_of_ok rfl, hc]
  exact guard_of_pos hne

/-- The running CRC of an entry after so many bytes. -/
def crcAfter (r : SevenZSeekReader) (left : List Byte) (n : ℕ) : Option (List Byte × UInt32) :=
  r.entryCrc.map fun c => (c.1 ++ left.take n, c.2)

/-- The reader after an entry of so many bytes. -/
def closed (r : SevenZSeekReader) (left : List Byte) (n j : ℕ) : SevenZSeekReader :=
  { advance r left n true j with entryCrc := none, phase := .idle }

/-- The reader within an entry, after so many of its bytes. -/
def within (r : SevenZSeekReader) (left : List Byte) (n m j : ℕ) : SevenZSeekReader :=
  { advance r left m true j with phase := .data (n - m) }

theorem closed_within {j : ℕ} (hc : c ≤ n) :
    closed (within r left n c i) (left.drop c) (n - c) j = closed r left n j := by
  have h := advance_advance r left c (n - c) true i j
  rw [show c + (n - c) = n by omega] at h
  unfold closed
  rw [← h]
  rfl

theorem within_within {j : ℕ} :
    within (within r left n c i) (left.drop c) (n - c) m j = within r left n (c + m) j := by
  have h := advance_advance r left c m true i j
  unfold within
  rw [← h, Nat.sub_sub]
  rfl

theorem fits_within : Fits (within r left n c i) m ↔ Fits r (c + m) :=
  @fits_advance r left c m true i

theorem fits_closed : Fits (closed r left n i) 0 ↔ Fits r n :=
  @fits_advance r left n 0 true i

theorem crcAfter_within :
    crcAfter (within r left n c i) (left.drop c) m = crcAfter r left (c + m) := by
  have h := congrArg SevenZSeekReader.entryCrc (advance_advance r left c m true i i)
  exact h

theorem crcAfter_zero : crcAfter r left 0 = r.entryCrc := by
  unfold crcAfter
  cases r.entryCrc with
  | none => rfl
  | some c => simp

/-- The next event in the data of an entry. -/
theorem nextEvent_data (hmeta : r.archiveMetadata = none) (hphase : r.phase = .data n) :
    nextEvent env ch r = (if n = 0 then do
        verifyEntryCrc env
        modify fun r => { r with phase := .idle }
        pure (some .endEntry)
      else do
        let bs ← readDecoded ch (min n bufferSize)
        if bs.isEmpty then fail .malformed "folder ended before the declared substream size"
        updateCrc bs
        modify fun r => { r with phase := .data (n - bs.length) }
        pure (some (.data bs)) : Act (Option ReaderEvent)) r := by
  unfold nextEvent
  rw [Parser.bind_of_ok rfl, hmeta]
  dsimp only
  rw [hphase]

theorem nextEvent_end (hin : r.input = .decoder left) (hmeta : r.archiveMetadata = none)
    (hphase : r.phase = .data 0) (hd : DigestOk env (crcAfter r left 0)) :
    nextEvent env ch r = .ok (some .endEntry, closed r left 0 r.reads) := by
  have hd' : DigestOk env r.entryCrc := by
    rw [crcAfter_zero] at hd
    exact hd
  rw [nextEvent_data hmeta hphase, if_pos rfl, Parser.bind_of_ok (verifyEntryCrc_of_ok hd')]
  unfold closed
  rw [advance_zero hin]
  rfl

theorem nextEvent_digest (hmeta : r.archiveMetadata = none) (hphase : r.phase = .data 0)
    (hd : ¬ DigestOk env (crcAfter r left 0)) :
    nextEvent env ch r = .error (digestError r) := by
  rw [crcAfter_zero] at hd
  rw [nextEvent_data hmeta hphase, if_pos rfl,
    Parser.bind_of_error (verifyEntryCrc_of_not_ok hd)]

theorem nextEvent_step (env : Env) (ch : Chunking) (hin : r.input = .decoder left) (hmeta : r.archiveMetadata = none)
    (hphase : r.phase = .data n) (hn : 0 < n) :
    (∃ c, 0 < c ∧ c ≤ n ∧ c ≤ left.length ∧ Fits r c ∧ ∃ j,
      nextEvent env ch r = .ok (some (.data (left.take c)), within r left n c j)) ∨
    (¬ (n ≤ left.length ∧ Fits r n) ∧ ∃ e, nextEvent env ch r = .error e ∧ ¬ IsDigest e) := by
  rw [nextEvent_data hmeta hphase, if_neg (by omega)]
  have hamount : 0 < min n bufferSize := by
    unfold bufferSize
    omega
  obtain ⟨c, hca, hcl, hcpos, ⟨hfc, hread⟩ | ⟨hfc, e, hread, hd⟩⟩ :=
    readDecoded_cases ch hin hamount
  · rw [Parser.bind_of_ok hread]
    by_cases hne : left = []
    · subst hne
      rw [List.take_nil, guard_of_pos (List.isEmpty_nil (α := Byte))]
      refine .inr ⟨fun h => ?_, _, rfl, not_isDigest_malformed _⟩
      have := h.1
      rw [List.length_nil] at this
      omega
    · have hc := hcpos hne
      have hlen : (left.take c).length = c := List.length_take_of_le hcl
      refine .inl ⟨c, hc, by omega, hcl, hfc, r.reads + 1, ?_⟩
      rw [guard_of_neg (take_not_isEmpty hc hcl)]
      dsimp only
      rw [hlen]
      rfl
  · refine .inr ⟨fun h => hfc (h.2.mono (by omega)), e, ?_, hd⟩
    rw [Parser.bind_of_error hread]

theorem nextEvent_endEntry (hmeta : r.archiveMetadata = none) (hphase : r.phase = .endEntry) :
    nextEvent env ch r = .ok (some .endEntry, { r with phase := .idle }) := by
  unfold nextEvent
  rw [Parser.bind_of_ok rfl, hmeta]
  dsimp only
  rw [hphase]
  cases r
  cases hmeta
  rfl

/-- What comes of reading at most `k` events of an entry with `n` bytes to go: it is still open
after `m` of them, or it has been read to its end, or its digest failed, or the decoder did. -/
inductive DataOutcome (env : Env) (r : SevenZSeekReader) (left : List Byte) (n k : ℕ) :
    Except ArchiveError ((List Byte × Bool) × SevenZSeekReader) → Prop where
  | stopped (m j : ℕ) (hk : k ≤ m) (hm : m ≤ n) (hl : m ≤ left.length) (hf : Fits r m) :
      DataOutcome env r left n k (.ok ((left.take m, false), within r left n m j))
  | ended (j : ℕ) (hl : n ≤ left.length) (hf : Fits r n) (hd : DigestOk env (crcAfter r left n)) :
      DataOutcome env r left n k (.ok ((left.take n, true), closed r left n j))
  | digest (hl : n ≤ left.length) (hf : Fits r n) (hd : ¬ DigestOk env (crcAfter r left n)) :
      DataOutcome env r left n k (.error (digestError r))
  | failed (e : ArchiveError) (h : ¬ (n ≤ left.length ∧ Fits r n)) (he : ¬ IsDigest e) :
      DataOutcome env r left n k (.error e)

/-- **Reading data events** from an open entry. -/
theorem readData_data : ∀ (k : ℕ) {n : ℕ} {r : SevenZSeekReader} {left : List Byte},
    r.input = .decoder left → r.archiveMetadata = none → r.phase = .data n → Fits r 0 →
    DataOutcome env r left n k (readData env ch k r)
  | 0, n, r, left, hin, hmeta, hphase, h0 => by
    have hr : within r left n 0 r.reads = r := by
      unfold within
      rw [advance_zero hin, Nat.sub_zero, ← hphase]
    rw [readData, Parser.pure_apply, ← hr]
    have hstop : DataOutcome env r left n 0
        (.ok ((left.take 0, false), within r left n 0 r.reads)) :=
      .stopped 0 r.reads le_rfl (Nat.zero_le _) (Nat.zero_le _) h0
    rw [hr] at hstop ⊢
    exact hstop
  | k + 1, n, r, left, hin, hmeta, hphase, h0 => by
    rw [readData]
    by_cases hn : n = 0
    · subst hn
      by_cases hd : DigestOk env (crcAfter r left 0)
      · rw [Parser.bind_of_ok (nextEvent_end hin hmeta hphase hd)]
        exact .ended r.reads (Nat.zero_le _) h0 hd
      · rw [Parser.bind_of_error (nextEvent_digest hmeta hphase hd)]
        exact .digest (Nat.zero_le _) h0 hd
    · obtain ⟨c, hc0, hcn, hcl, hfc, j, hok⟩ | ⟨hno, e, he, hd⟩ :=
        nextEvent_step env ch hin hmeta hphase (Nat.pos_of_ne_zero hn)
      · rw [Parser.bind_of_ok hok]
        have ih : DataOutcome env (within r left n c j) (left.drop c) (n - c) k
            (readData env ch k (within r left n c j)) :=
          readData_data k rfl hmeta rfl (fits_within.mpr hfc)
        have hsum : c + (n - c) = n := by omega
        have hdrop : (left.drop c).length = left.length - c := List.length_drop
        change DataOutcome env r left n (k + 1) ((readData env ch k >>= fun p =>
          pure (left.take c ++ p.1, p.2)) (within r left n c j))
        generalize hres : readData env ch k (within r left n c j) = res at ih
        cases ih with
        | stopped m i hk hm hl hf =>
          rw [Parser.bind_of_ok hres, Parser.pure_apply, within_within, ← List.take_add]
          exact .stopped (c + m) i (by omega) (by omega) (by omega) (fits_within.mp hf)
        | ended i hl hf hd =>
          rw [crcAfter_within, hsum] at hd
          rw [fits_within, hsum] at hf
          rw [Parser.bind_of_ok hres, Parser.pure_apply, closed_within hcn, ← List.take_add, hsum]
          exact .ended i (by omega) hf hd
        | digest hl hf hd =>
          rw [crcAfter_within, hsum] at hd
          rw [fits_within, hsum] at hf
          rw [Parser.bind_of_error hres]
          exact .digest (by omega) hf hd
        | failed e h he =>
          rw [fits_within, hsum] at h
          rw [Parser.bind_of_error hres]
          exact .failed e (fun h' => h ⟨by omega, h'.2⟩) he
      · rw [Parser.bind_of_error he]
        exact .failed e hno hd

/-- What comes of dealing with an open entry with `n` bytes to go: it is passed, with one of some
bodies, or its digest failed, or the decoder did. -/
inductive EntryOutcome (env : Env) (r : SevenZSeekReader) (left : List Byte) (n : ℕ)
    (bodies : Option (List Byte) → Prop) :
    Except ArchiveError (Option (List Byte) × SevenZSeekReader) → Prop where
  | passed (body : Option (List Byte)) (j : ℕ) (hl : n ≤ left.length) (hf : Fits r n)
      (hd : DigestOk env (crcAfter r left n)) (hbody : bodies body) :
      EntryOutcome env r left n bodies (.ok (body, closed r left n j))
  | digest (hl : n ≤ left.length) (hf : Fits r n) (hd : ¬ DigestOk env (crcAfter r left n)) :
      EntryOutcome env r left n bodies (.error (digestError r))
  | failed (e : ArchiveError) (h : ¬ (n ≤ left.length ∧ Fits r n)) (he : ¬ IsDigest e) :
      EntryOutcome env r left n bodies (.error e)

/-- What is left of an entry after `m` of its bytes decides about the entry. -/
theorem EntryOutcome.of_within {j : ℕ} {bodies bodies' : Option (List Byte) → Prop}
    {res : Except ArchiveError (Option (List Byte) × SevenZSeekReader)} (hm : m ≤ n)
    (hl : m ≤ left.length) (hb : ∀ body, bodies body → bodies' body)
    (h : EntryOutcome env (within r left n m j) (left.drop m) (n - m) bodies res) :
    EntryOutcome env r left n bodies' res := by
  have hsum : m + (n - m) = n := by omega
  have hdrop : (left.drop m).length = left.length - m := List.length_drop
  cases h with
  | passed body i hl' hf hd hbody =>
    rw [closed_within hm]
    rw [crcAfter_within, hsum] at hd
    rw [fits_within, hsum] at hf
    exact .passed body i (by omega) hf hd (hb body hbody)
  | digest hl' hf hd =>
    rw [crcAfter_within, hsum] at hd
    rw [fits_within, hsum] at hf
    exact .digest (by omega) hf hd
  | failed e h he =>
    rw [fits_within, hsum] at h
    exact .failed e (fun h' => h ⟨by omega, h'.2⟩) he

/-- What a caller does who skips the rest of an entry. -/
def skipRest (env : Env) (ch : Chunking) : Act (Option (List Byte)) := do
  skipEntry env ch
  let _ ← nextEvent env ch
  pure none

/-- What is skipped is decoded and folded into the CRC all the same. -/
theorem skipRest_data (hin : r.input = .decoder left) (hmeta : r.archiveMetadata = none)
    (hphase : r.phase = .data n) (h0 : Fits r 0) :
    EntryOutcome env r left n (· = none) (skipRest env ch r) := by
  have hskip : skipEntry env ch r = (do
      let _ ← readLoop ch bufferSize true "folder ended while skipping a substream" n n
      verifyEntryCrc env
      modify fun r => { r with phase := .endEntry } : Act Unit) r := by
    unfold skipEntry
    rw [Parser.bind_of_ok rfl, hphase]
  obtain ⟨hok, herr⟩ := readLoop_spec ch (by decide : 0 < bufferSize) true
    "folder ended while skipping a substream" n hin h0 le_rfl
  unfold skipRest
  by_cases hfit : n ≤ left.length ∧ Fits r n
  · obtain ⟨j, hj⟩ := hok hfit.1 hfit.2
    rw [Parser.bind_of_ok hj] at hskip
    by_cases hd : DigestOk env (crcAfter r left n)
    · have hd' : DigestOk env (advance r left n true j).entryCrc := hd
      rw [Parser.bind_of_ok (verifyEntryCrc_of_ok hd')] at hskip
      have hskip' : skipEntry env ch r = .ok ((), { closed r left n j with phase := .endEntry }) :=
        hskip
      have hend : nextEvent env ch { closed r left n j with phase := .endEntry } =
          .ok (some .endEntry, closed r left n j) := nextEvent_endEntry hmeta rfl
      rw [Parser.bind_of_ok hskip', Parser.bind_of_ok hend]
      exact .passed none j hfit.1 hfit.2 hd rfl
    · have hd' : ¬ DigestOk env (advance r left n true j).entryCrc := hd
      rw [Parser.bind_of_error (verifyEntryCrc_of_not_ok hd')] at hskip
      rw [Parser.bind_of_error hskip]
      exact .digest hfit.1 hfit.2 hd
  · obtain ⟨e, he, hd⟩ := herr hfit
    rw [Parser.bind_of_error he] at hskip
    rw [Parser.bind_of_error hskip]
    exact .failed e hfit hd

/-- **Every way of dealing with an entry** decodes it completely, and checks its digest. -/
theorem processEntry_data (choice : Choice) (hin : r.input = .decoder left)
    (hmeta : r.archiveMetadata = none) (hphase : r.phase = .data n) (h0 : Fits r 0) :
    EntryOutcome env r left n (fun body => ∀ bs, body = some bs → bs = left.take n)
      (processEntry env ch choice r) := by
  have hread {bs : List Byte} (h : some (left.take n) = some bs) : bs = left.take n :=
    (Option.some.inj h).symm
  cases choice with
  | readAll =>
    have hbound : eventBound r = n + 1 := by
      unfold eventBound
      rw [hphase]
    have hdata : DataOutcome env r left n (n + 1) (readData env ch (n + 1) r) :=
      readData_data (n + 1) hin hmeta hphase h0
    change EntryOutcome env r left n _ ((readData env ch (eventBound r) >>= fun p =>
      pure (some p.1)) r)
    rw [hbound]
    generalize hres : readData env ch (n + 1) r = res at hdata
    cases hdata with
    | stopped m j hk hm => omega
    | ended j hl hf hd =>
      rw [Parser.bind_of_ok hres]
      exact .passed (some _) j hl hf hd fun bs => hread
    | digest hl hf hd =>
      rw [Parser.bind_of_error hres]
      exact .digest hl hf hd
    | failed e h he =>
      rw [Parser.bind_of_error hres]
      exact .failed e h he
  | skipAfter k =>
    have hdata : DataOutcome env r left n k (readData env ch k r) :=
      readData_data k hin hmeta hphase h0
    change EntryOutcome env r left n _ ((readData env ch k >>= fun p =>
      if p.2 then pure (some p.1) else skipRest env ch) r)
    generalize hres : readData env ch k r = res at hdata
    cases hdata with
    | stopped m j hk hm hl hf =>
      rw [Parser.bind_of_ok hres]
      have hskip : EntryOutcome env (within r left n m j) (left.drop m) (n - m) (· = none)
          (skipRest env ch (within r left n m j)) :=
        skipRest_data rfl hmeta rfl (fits_within.mpr hf)
      exact hskip.of_within hm hl fun body hb bs hbs => by rw [hb] at hbs; cases hbs
    | ended j hl hf hd =>
      rw [Parser.bind_of_ok hres]
      exact .passed (some _) j hl hf hd fun bs => hread
    | digest hl hf hd =>
      rw [Parser.bind_of_error hres]
      exact .digest hl hf hd
    | failed e h he =>
      rw [Parser.bind_of_error hres]
      exact .failed e h he

/-! ### Between entries -/

/-- Between entries the next event is the next entry or the end. -/
theorem nextEvent_idle (hphase : r.phase = .idle) (hmeta : r.archiveMetadata = none) :
    nextEvent env ch r = match r.files[r.nextFile]? with
      | none => (do
          finalizeActiveFolder ch
          modify fun r => { r with phase := .done }
          pure none : Act (Option ReaderEvent)) r
      | some record => (do
          let m ← prepareRecord env ch record
          pure (some (.entry m)) : Act (Option ReaderEvent)) { r with nextFile := r.nextFile + 1 } := by
  cases r
  cases hphase
  cases hmeta
  unfold nextEvent
  rw [Parser.bind_of_ok rfl]
  dsimp only
  split
  · rename_i h
    rw [h]
  · rename_i h
    rw [h]
    rfl

/-! ### Entries without data -/

/-- An entry that is at its end already is passed. -/
theorem processEntry_endEntry (env : Env) (ch : Chunking) (choice : Choice) (hmeta : r.archiveMetadata = none)
    (hphase : r.phase = .endEntry) :
    ∃ body, processEntry env ch choice r = .ok (body, { r with phase := .idle }) ∧
      ∀ bs, body = some bs → bs = [] := by
  have hread (k : ℕ) : readData env ch (k + 1) r = .ok (([], true), { r with phase := .idle }) := by
    rw [readData, Parser.bind_of_ok (nextEvent_endEntry hmeta hphase)]
    rfl
  cases choice with
  | readAll =>
    have hbound : eventBound r = 1 := by
      unfold eventBound
      rw [hphase]
    refine ⟨some [], ?_, fun bs hbs => (Option.some.inj hbs).symm⟩
    change (readData env ch (eventBound r) >>= fun p => pure (some p.1)) r = _
    rw [hbound, Parser.bind_of_ok (hread 0)]
    rfl
  | skipAfter k =>
    change ∃ body, (readData env ch k >>= fun p =>
      if p.2 then pure (some p.1) else skipRest env ch) r = _ ∧ _
    cases k with
    | zero =>
      refine ⟨none, ?_, nofun⟩
      have hskip : skipEntry env ch r = .ok ((), r) := by
        unfold skipEntry
        rw [Parser.bind_of_ok rfl, hphase]
        rfl
      rw [readData, Parser.bind_of_ok (Parser.pure_apply _ _)]
      change skipRest env ch r = _
      unfold skipRest
      rw [Parser.bind_of_ok hskip, Parser.bind_of_ok (nextEvent_endEntry hmeta hphase)]
      rfl
    | succ k =>
      refine ⟨some [], ?_, fun bs hbs => (Option.some.inj hbs).symm⟩
      rw [Parser.bind_of_ok (hread k)]
      rfl

/-- An entry that cannot be decoded can be skipped at once; reading it fails. -/
theorem processEntry_unsupported (choice : Choice) (hmeta : r.archiveMetadata = none)
    (hphase : r.phase = .unsupported) :
    processEntry env ch choice r = if choice = .skipAfter 0 then .ok (none, { r with phase := .idle })
      else .error (sevenError .unsupported "payload coder is unsupported") := by
  have hnext : nextEvent env ch r =
      .error (sevenError .unsupported "payload coder is unsupported") := by
    unfold nextEvent
    rw [Parser.bind_of_ok rfl, hmeta]
    dsimp only
    rw [hphase]
    rfl
  have hread (k : ℕ) : readData env ch (k + 1) r =
      .error (sevenError .unsupported "payload coder is unsupported") := by
    rw [readData, Parser.bind_of_error hnext]
  cases choice with
  | readAll =>
    have hbound : eventBound r = 1 := by
      unfold eventBound
      rw [hphase]
    rw [if_neg nofun]
    change (readData env ch (eventBound r) >>= fun p => pure (some p.1)) r = _
    rw [hbound, Parser.bind_of_error (hread 0)]
  | skipAfter k =>
    change (readData env ch k >>= fun p =>
      if p.2 then pure (some p.1) else skipRest env ch) r = _
    cases k with
    | zero =>
      have hskip : skipEntry env ch r = .ok ((), { r with phase := .endEntry }) := by
        unfold skipEntry
        rw [Parser.bind_of_ok rfl, hphase]
        rfl
      have hend : nextEvent env ch { r with phase := .endEntry } =
          .ok (some .endEntry, { r with phase := .idle }) := nextEvent_endEntry hmeta rfl
      rw [if_pos rfl, readData, Parser.bind_of_ok (Parser.pure_apply _ _)]
      change skipRest env ch r = _
      unfold skipRest
      rw [Parser.bind_of_ok hskip, Parser.bind_of_ok hend]
      rfl
    | succ k =>
      rw [if_neg (fun h => Nat.succ_ne_zero k (Choice.skipAfter.inj h)),
        Parser.bind_of_error (hread k)]

end LibarchiveOxide.SevenZip.Runs
