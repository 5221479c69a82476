import LibarchiveOxide.Core.Failure
import LibarchiveOxide.Lib.Result
import LibarchiveOxide.Stream.Reader

/-! # The digests of a layer

`OciLayerSession` reads a layer through two hashing readers, one below and one above the outer filter.
Digests are whole as long as no drain has failed and the decoded stream is within its limit: a drain
that fails gives the reader away, so that the next call finds nothing left to drain, and a failed read
at the limit loses a byte of the decoded stream. -/

namespace LibarchiveOxide.Oci.Layer

open Core.Failure Core.Metadata Core.Budget Lib.Result Stream.Event Stream.Filtered Stream.Reader

variable {F : Formats} {C : Codec} {δ : Type}

/-- `LayerReader`. -/
abbrev LayerReader (F : Formats) (C : Codec) : Type := ArchiveReader F (Decoded C)

/-- The raw source of a reader, with its hasher. -/
def LayerReader.source (r : LayerReader F C) : Compressed := r.reader.inner.inner.2

/-- `OciLayerSession`; the hashers are shared with the reader. -/
structure OciLayerSession (F : Formats) (C : Codec) where
  reader : Option (LayerReader F C)
  compressed : List Byte
  diffId : List Byte

/-- `OciLayerEntry`. -/
structure OciLayerEntry where
  path : List Byte
  kind : EntryKind
  size : Option UInt64
  linkTarget : Option (List Byte)
  mode : Option UInt32
  uid : Option UInt64
  gid : Option UInt64
deriving DecidableEq

/-- `OciLayerEntry::from_metadata`. -/
def OciLayerEntry.fromMetadata (m : EntryMetadata) : OciLayerEntry where
  path := m.path.raw
  kind := m.kind
  size := m.size
  linkTarget := m.linkTarget.map ArchivePath.raw
  mode := m.mode
  uid := m.owner.uid
  gid := m.owner.gid

/-- `DigestKind`. -/
inductive DigestKind where
  | compressed
  | diffId
deriving DecidableEq

/-- `OciLayerError`, as far as a session reports it. -/
inductive OciLayerError (δ : Type) where
  | stream (error : StreamError)
  | io (error : IoError)
  | digestMismatch (kind : DigestKind) (expected actual : δ)
deriving DecidableEq

/-- `LayerDigests`. -/
structure LayerDigests (δ : Type) where
  compressed : δ
  diffId : δ
deriving DecidableEq

namespace OciLayerSession

/-- The session after its reader has moved to a state, with the reader or without. -/
def shared (r : LayerReader F C) (reader : Option (LayerReader F C)) : OciLayerSession F C where
  reader := reader
  compressed := r.source.hasher
  diffId := r.reader.hasher

/-- `OciLayerEngine::open`. -/
def openLayer (F : Formats) (C : Codec) (limits : Limits) (source : Source) :
    Except IoError (OciLayerSession F C) := do
  let decompressed ← FilterReader.withLimits C { inner := source } limits.decodedTotal
  let r : LayerReader F C :=
    { reader := { inner := decompressed }, pipeline := .new F limits.inFlightBytes }
  .ok (shared r (some r))

/-- The loop of `next_entry`. -/
def nextEntryLoop : ℕ → LayerReader F C →
    Option (Except StreamError (Option OciLayerEntry) × LayerReader F C)
  | 0, _ => none
  | rounds + 1, r =>
    match r.nextEvent readDecoded rounds with
    | none => none
    | some (.error error, r) => some (.error error, r)
    | some (.ok none, r) => some (.ok none, r)
    | some (.ok (some (.entry m)), r) => some (.ok (some (.fromMetadata m)), r)
    | some (.ok (some _), r) => nextEntryLoop rounds r

/-- `next_entry`. -/
def nextEntry (rounds : ℕ) (s : OciLayerSession F C) :
    Option (Except (OciLayerError δ) (Option OciLayerEntry) × OciLayerSession F C) :=
  match s.reader with
  | none => some (.ok none, s)
  | some r => (nextEntryLoop rounds r).map fun (result, r) =>
    (result.mapError .stream, shared r (some r))

/-- The first loop of `finish`. -/
def drainEvents : ℕ → LayerReader F C → Option (Except StreamError Unit × LayerReader F C)
  | 0, _ => none
  | rounds + 1, r =>
    match r.nextEvent readDecoded rounds with
    | none => none
    | some (.error error, r) => some (.error error, r)
    | some (.ok none, r) => some (.ok (), r)
    | some (.ok (some _), r) => drainEvents rounds r

/-- `DRAIN_BUFFER`. -/
def drainBuffer : ℕ := 64 * 1024

/-- The second loop of `finish`. -/
def drainSource : ℕ → Compressed → Option (Except IoError Unit × Compressed)
  | 0, _ => none
  | rounds + 1, source =>
    match readCompressed drainBuffer source with
    | (.error error, source) => some (.error error, source)
    | (.ok [], source) => some (.ok (), source)
    | (.ok (_ :: _), source) => drainSource rounds source

/-- `finish`. The reader is taken out of the session first. -/
def finish (rounds : ℕ) (s : OciLayerSession F C) :
    Option (Except (OciLayerError δ) Unit × OciLayerSession F C) :=
  match s.reader with
  | none => some (.ok (), s)
  | some r =>
    match drainEvents rounds r with
    | none => none
    | some (.error error, r) => some (.error (.stream error), shared r none)
    | some (.ok (), r) => (drainSource rounds r.source).map fun (result, source) =>
      (result.mapError .io, { reader := none, compressed := source.hasher, diffId := r.reader.hasher })

/-- `digests`, for a hash function. -/
def digests (sha : List Byte → δ) (rounds : ℕ) (s : OciLayerSession F C) :
    Option (Except (OciLayerError δ) (LayerDigests δ) × OciLayerSession F C) :=
  (s.finish rounds).map fun (result, s) =>
    (result.map fun _ => ⟨sha s.compressed, sha s.diffId⟩, s)

/-- The comparison of `verify`. -/
def compare [DecidableEq δ] (expected actual : LayerDigests δ) : Except (OciLayerError δ) Unit :=
  if actual.compressed ≠ expected.compressed then
    .error (.digestMismatch .compressed expected.compressed actual.compressed)
  else if actual.diffId ≠ expected.diffId then
    .error (.digestMismatch .diffId expected.diffId actual.diffId)
  else .ok ()

/-- `verify`. -/
def verify [DecidableEq δ] (sha : List Byte → δ) (rounds : ℕ) (expected : LayerDigests δ)
    (s : OciLayerSession F C) : Option (Except (OciLayerError δ) Unit × OciLayerSession F C) :=
  (s.digests sha rounds).map fun (result, s) => (result >>= compare expected, s)

end OciLayerSession

/-! ### Runs -/

/-- A call of the session and what it answers. -/
inductive Answered (δ : Type) where
  | nextEntry (result : Except (OciLayerError δ) (Option OciLayerEntry))
  | digests (result : Except (OciLayerError δ) (LayerDigests δ))
  | verify (expected : LayerDigests δ) (result : Except (OciLayerError δ) Unit)
deriving DecidableEq

/-- The calls of a session. -/
inductive Call (δ : Type) where
  | nextEntry
  | digests
  | verify (expected : LayerDigests δ)

/-- One call; `none` if its loops need more rounds. -/
def OciLayerSession.call [DecidableEq δ] (sha : List Byte → δ) (rounds : ℕ)
    (s : OciLayerSession F C) : Call δ → Option (Answered δ × OciLayerSession F C)
  | .nextEntry => (s.nextEntry rounds).map fun (result, s) => (.nextEntry result, s)
  | .digests => (s.digests sha rounds).map fun (result, s) => (.digests result, s)
  | .verify expected => (s.verify sha rounds expected).map fun (result, s) =>
    (.verify expected result, s)

/-- A sequence of calls that come back, with the answers in order. -/
inductive Run [DecidableEq δ] (sha : List Byte → δ) (start : OciLayerSession F C) :
    List (Answered δ) → OciLayerSession F C → Prop
  | start : Run sha start [] start
  | call {log s rounds call answered s'} : Run sha start log s →
    s.call sha rounds call = some (answered, s') → Run sha start (log ++ [answered]) s'

/-- The failures of a filter that lose what they have read. -/
def Lost (error : IoError) : Prop :=
  error = ⟨"other", "decoded stream exceeds configured limit"⟩ ∨
    error = ⟨"other", "decoded stream size overflow"⟩

/-- A call spoils the digests: its drain fails, or a byte of the decoded stream is lost at the limit. -/
def Answered.Spoils : Answered δ → Prop
  | .nextEntry result => ∃ error, result = .error (.stream (.io error)) ∧ Lost error
  | .digests result => ∃ error, result = .error error
  | .verify _ result => ∃ error, result = .error error ∧
    ∀ kind expected actual, error ≠ .digestMismatch kind expected actual

/-- A call asks for the digests. -/
def Answered.Asks : Answered δ → Prop
  | .nextEntry _ => False
  | .digests _ => True
  | .verify _ _ => True

/-- An answer certifies the whole blob and its whole decoded stream, if it certifies anything. -/
def Whole (sha : List Byte → δ) (blob decoded : List Byte) : Answered δ → Prop
  | .digests (.ok found) => found = ⟨sha blob, sha decoded⟩
  | .verify expected (.ok ()) => expected = ⟨sha blob, sha decoded⟩
  | _ => True

/-! ### One read -/

section Reads

variable {decode : List Byte → List Byte} {blob : List Byte} {limit : Option ℕ}

/-- What was yielded is the beginning of the decoded stream, and what was hashed of the blob is its
beginning. -/
structure Following (C : Codec) (blob : List Byte) (limit : Option ℕ) (out : List Byte)
    (r : FilterReader C) : Prop where
  reads : ∃ before rest answers, before ++ rest = blob ∧
    C.Reads (C.start before, ⟨⟨rest, answers⟩, before⟩) out r.inner
  input : r.inner.2.hasher ++ r.inner.2.inner.rest = blob
  decoded : r.decoded = out.length
  limited : r.decodedLimit = limit

variable {out : List Byte} {r : FilterReader C}

theorem Following.length_le (law : C.Decodes decode) (h : Following C blob limit out r) :
    out.length ≤ (decode blob).length := by
  obtain ⟨before, rest, answers, rfl, hreads⟩ := h.reads
  exact (law.yields hreads).length_le

variable {room : ℕ} {inner : C.State × Compressed}

theorem Following.error (law : C.Decodes decode) {error : IoError}
    (h : Following C blob limit out r) (hroom : 0 < room)
    (hread : C.read room r.inner = (.error error, inner)) :
    Following C blob limit out { r with inner := inner } := by
  obtain ⟨before, rest, answers, hblob, hreads⟩ := h.reads
  exact ⟨⟨before, rest, answers, hblob, hreads.error hroom hread⟩, (law.input hread).trans h.input,
    h.decoded, h.limited⟩

theorem Following.ok (law : C.Decodes decode) {bytes : List Byte} (h : Following C blob limit out r)
    (hroom : 0 < room) (hread : C.read room r.inner = (.ok bytes, inner)) :
    Following C blob limit (out ++ bytes)
      { r with inner := inner, decoded := r.decoded + bytes.length } := by
  obtain ⟨before, rest, answers, hblob, hreads⟩ := h.reads
  refine ⟨⟨before, rest, answers, hblob, hreads.ok hroom hread⟩, (law.input hread).trans h.input, ?_,
    h.limited⟩
  rw [List.length_append, ← h.decoded]

theorem Following.ended (law : C.Decodes decode) (h : Following C blob limit out r)
    (hroom : 0 < room) (hread : C.read room r.inner = (.ok [], inner)) : out = decode blob := by
  obtain ⟨before, rest, answers, rfl, hreads⟩ := h.reads
  exact law.ends hreads hroom hread

/-- A result that follows what was yielded, and is the end only behind all of it. -/
def Yields (C : Codec) (blob : List Byte) (limit : Option ℕ) (decoded out : List Byte) :
    Except IoError (List Byte) × FilterReader C → Prop
  | (.ok bytes, r) => Following C blob limit (out ++ bytes) r ∧ (bytes = [] → out = decoded)
  | (.error error, r) => ¬ Lost error → Following C blob limit out r

theorem yields_readAllowed (law : C.Decodes decode) {allowed : ℕ} (h : Following C blob limit out r)
    (hallowed : 0 < allowed) :
    Yields C blob limit (decode blob) out (FilterReader.readAllowed allowed r) := by
  unfold FilterReader.readAllowed
  cases hinner : C.read allowed r.inner with
  | mk answer inner =>
    cases answer with
    | error error => exact fun _ => h.error law hallowed hinner
    | ok bytes =>
      dsimp only
      cases hdecoded : checkedAdd r.decoded bytes.length with
      | none => exact fun hkept => absurd (.inr rfl) hkept
      | some decoded =>
        obtain ⟨rfl, -⟩ := checkedAdd_eq_some.mp hdecoded
        refine ⟨h.ok law hallowed hinner, ?_⟩
        rintro rfl
        exact h.ended law hallowed hinner

/-- **A read of the filter** yields what comes next, and nothing only at the end. -/
theorem yields_read (law : C.Decodes decode) (h : Following C blob limit out r) (hroom : 0 < room) :
    Yields C blob limit (decode blob) out (FilterReader.read room r) := by
  obtain ⟨inner, decoded, decodedLimit⟩ := r
  obtain rfl : decodedLimit = limit := h.limited
  unfold FilterReader.read
  rw [if_neg hroom.ne']
  cases decodedLimit with
  | none => exact yields_readAllowed law h hroom
  | some most =>
    dsimp only
    by_cases hfull : most - decoded = 0
    · rw [if_pos hfull]
      cases hinner : C.read 1 inner with
      | mk answer inner =>
        match answer, hinner with
        | .error error, hinner => exact fun _ => h.error law Nat.one_pos hinner
        | .ok [], hinner =>
          exact ⟨h.ok law Nat.one_pos hinner, fun _ => h.ended law Nat.one_pos hinner⟩
        | .ok (byte :: bytes), hinner => exact fun hkept => absurd (.inl rfl) hkept
    · rw [if_neg hfull]
      exact yields_readAllowed law h (by omega)

/-- What holds of the hashing reader above the filter. -/
def Inv (C : Codec) (blob : List Byte) (limit : Option ℕ) (r : Decoded C) : Prop :=
  Following C blob limit r.hasher r.inner

/-- Its hasher has seen the whole decoded stream. -/
def Ended (decoded : List Byte) (r : Decoded C) : Prop := r.hasher = decoded

theorem sound_readDecoded (law : C.Decodes decode) :
    ArchiveReader.Sound (Inv C blob limit) (Ended (decode blob)) Lost readDecoded := by
  intro room r r' result hroom hinv hread hkept
  unfold readDecoded HashingReader.read at hread
  cases hinner : FilterReader.read room r.inner with
  | mk answer inner =>
    have hnext := yields_read law hinv hroom
    rw [hinner] at hread hnext
    cases answer with
    | error error =>
      cases hread
      exact ⟨hnext (hkept error rfl), id, nofun⟩
    | ok bytes =>
      cases hread
      obtain ⟨hfollowing, hend⟩ := hnext
      refine ⟨hfollowing, fun hended => ?_, fun hnil => ?_⟩
      · -- behind the end nothing follows
        have hle := hfollowing.length_le law
        rw [List.length_append, show r.hasher = decode blob from hended] at hle
        have hnil : bytes = [] := List.length_eq_zero_iff.mp (by omega)
        change r.hasher ++ bytes = decode blob
        rw [hnil, List.append_nil]
        exact hended
      · cases Except.ok.inj hnil
        change r.hasher ++ [] = decode blob
        rw [List.append_nil]
        exact hend rfl

end Reads

/-! ### Calls -/

section Calls

variable {decode : List Byte → List Byte} {blob : List Byte} {limit : Option ℕ}

/-- What holds of a session that nothing has spoilt: its reader is good, or both hashers have seen
everything. -/
def Sane (C : Codec) (blob decoded : List Byte) (limit : Option ℕ) (s : OciLayerSession F C) : Prop :=
  match s.reader with
  | some r => r.Good (Inv C blob limit) (Ended decoded)
  | none => s.compressed = blob ∧ s.diffId = decoded

variable {s : OciLayerSession F C}

theorem sane_openLayer {limits : Limits} {source : Source}
    (hopen : OciLayerSession.openLayer F C limits source = .ok s) (decoded : List Byte) :
    Sane C source.rest decoded limits.decodedTotal s := by
  obtain ⟨filter, hfilter, h⟩ := bind_eq_ok.mp hopen
  obtain ⟨⟨before, input⟩, hbefore, hfilter⟩ := bind_eq_ok.mp hfilter
  cases hfilter
  cases h
  have hempty : ({ inner := source } : Compressed).hasher = [] := rfl
  obtain ⟨hhasher, hblob⟩ := readPrefix_eq_ok hempty hbefore
  refine ⟨⟨⟨before, input.inner.rest, input.inner.answers, ?_, ?_⟩, hblob, rfl, rfl⟩, nofun, nofun⟩
  · rw [← hhasher]
    exact hblob
  · have hinput : input = ⟨⟨input.inner.rest, input.inner.answers⟩, before⟩ := by rw [← hhasher]
    rw [← hinput]
    exact .start

/-- Both hashers have seen everything. -/
def Drained (blob decoded : List Byte) (s : OciLayerSession F C) : Prop :=
  s.reader = none ∧ s.compressed = blob ∧ s.diffId = decoded

theorem Drained.sane {decoded : List Byte} (h : Drained blob decoded s) :
    Sane C blob decoded limit s := by
  unfold Sane
  rw [h.1]
  exact h.2

theorem good_nextEntryLoop (law : C.Decodes decode) : ∀ {rounds : ℕ} {r r' : LayerReader F C}
    {result : Except StreamError (Option OciLayerEntry)},
    r.Good (Inv C blob limit) (Ended (decode blob)) →
    OciLayerSession.nextEntryLoop rounds r = some (result, r') →
    (∀ error, result = .error (.io error) → ¬ Lost error) →
    r'.Good (Inv C blob limit) (Ended (decode blob))
  | 0, _, _, _, _, h, _ => by cases h
  | rounds + 1, r, r', result, hgood, h, hkept => by
    unfold OciLayerSession.nextEntryLoop at h
    cases hevent : r.nextEvent readDecoded rounds with
    | none =>
      rw [hevent] at h
      cases h
    | some answered =>
      obtain ⟨answer, r₁⟩ := answered
      obtain ⟨hnext, -⟩ := ArchiveReader.good_nextEvent (sound_readDecoded law) hgood hevent
      rw [hevent] at h
      match answer, hnext, h with
      | .error error, hnext, h =>
        cases h
        refine hnext fun error' herror => ?_
        cases herror
        exact hkept error' rfl
      | .ok none, hnext, h =>
        cases h
        exact hnext nofun
      | .ok (some (.entry m)), hnext, h =>
        cases h
        exact hnext nofun
      | .ok (some (.archiveMetadata m)), hnext, h => exact good_nextEntryLoop law (hnext nofun) h hkept
      | .ok (some (.data bytes)), hnext, h => exact good_nextEntryLoop law (hnext nofun) h hkept
      | .ok (some .endEntry), hnext, h => exact good_nextEntryLoop law (hnext nofun) h hkept

/-- When the events are drained, so is the decoded stream. -/
theorem ended_drainEvents (law : C.Decodes decode) : ∀ {rounds : ℕ} {r r' : LayerReader F C},
    r.Good (Inv C blob limit) (Ended (decode blob)) →
    OciLayerSession.drainEvents rounds r = some (.ok (), r') →
    r'.Good (Inv C blob limit) (Ended (decode blob)) ∧ r'.reader.hasher = decode blob
  | 0, _, _, _, h => by cases h
  | rounds + 1, r, r', hgood, h => by
    unfold OciLayerSession.drainEvents at h
    cases hevent : r.nextEvent readDecoded rounds with
    | none =>
      rw [hevent] at h
      cases h
    | some answered =>
      obtain ⟨answer, r₁⟩ := answered
      obtain ⟨hnext, hended⟩ := ArchiveReader.good_nextEvent (sound_readDecoded law) hgood hevent
      rw [hevent] at h
      match answer, hnext, hended, h with
      | .error error, _, _, h => cases h
      | .ok none, hnext, hended, h =>
        cases h
        exact ⟨hnext nofun, hended rfl⟩
      | .ok (some event), hnext, _, h => exact ended_drainEvents law (hnext nofun) h

/-- When the source is drained, its hasher has seen the blob. -/
theorem hasher_drainSource : ∀ {rounds : ℕ} {source source' : Compressed},
    source.hasher ++ source.inner.rest = blob →
    OciLayerSession.drainSource rounds source = some (.ok (), source') → source'.hasher = blob
  | 0, _, _, _, h => by cases h
  | rounds + 1, source, source', hblob, h => by
    unfold OciLayerSession.drainSource at h
    have hnext := readCompressed_blob OciLayerSession.drainBuffer source
    cases hread : readCompressed OciLayerSession.drainBuffer source with
    | mk answer source₁ =>
      rw [hread] at h hnext
      match answer, hread, h with
      | .error error, _, h => cases h
      | .ok [], hread, h =>
        cases h
        obtain ⟨hhasher, -, hend⟩ := readCompressed_ok hread
        rw [hhasher, List.append_nil, ← hblob, hend (by decide) rfl, List.append_nil]
      | .ok (byte :: bytes), _, h => exact hasher_drainSource (hnext.trans hblob) h

variable {rounds : ℕ} {s' : OciLayerSession F C}

/-- **A drain that succeeds leaves both hashers with everything.** -/
theorem drained_finish (law : C.Decodes decode) (hsane : Sane C blob (decode blob) limit s)
    (h : s.finish rounds = some ((.ok () : Except (OciLayerError δ) Unit), s')) :
    Drained blob (decode blob) s' := by
  unfold OciLayerSession.finish at h
  unfold Sane at hsane
  cases hreader : s.reader with
  | none =>
    rw [hreader] at h hsane
    cases h
    exact ⟨hreader, hsane⟩
  | some r =>
    rw [hreader] at h hsane
    dsimp only at h
    cases hevents : OciLayerSession.drainEvents rounds r with
    | none =>
      rw [hevents] at h
      cases h
    | some drained =>
      obtain ⟨answer, r₁⟩ := drained
      rw [hevents] at h
      match answer, hevents, h with
      | .error error, _, h => cases h
      | .ok (), hevents, h =>
        obtain ⟨hgood, hdiff⟩ := ended_drainEvents law hsane hevents
        obtain ⟨⟨answer, source⟩, hsource, h⟩ := Option.map_eq_some_iff.mp h
        match answer, hsource, h with
        | .error error, _, h => cases h
        | .ok (), hsource, h =>
          cases h
          exact ⟨rfl, hasher_drainSource hgood.reader.input hsource, hdiff⟩

theorem sane_nextEntry (law : C.Decodes decode)
    {result : Except (OciLayerError δ) (Option OciLayerEntry)}
    (hsane : Sane C blob (decode blob) limit s) (h : s.nextEntry rounds = some (result, s'))
    (hkept : ¬ (Answered.nextEntry result).Spoils) : Sane C blob (decode blob) limit s' := by
  unfold OciLayerSession.nextEntry at h
  unfold Sane at hsane
  cases hreader : s.reader with
  | none =>
    rw [hreader] at h hsane
    cases h
    unfold Sane
    rw [hreader]
    exact hsane
  | some r =>
    rw [hreader] at h hsane
    obtain ⟨⟨answer, r'⟩, hloop, h⟩ := Option.map_eq_some_iff.mp h
    cases h
    refine good_nextEntryLoop law hsane hloop fun error herror hlost => hkept ⟨error, ?_, hlost⟩
    rw [herror]
    rfl

theorem drained_digests (law : C.Decodes decode) {sha : List Byte → δ} {found : LayerDigests δ}
    (hsane : Sane C blob (decode blob) limit s) (h : s.digests sha rounds = some (.ok found, s')) :
    Drained blob (decode blob) s' ∧ found = ⟨sha blob, sha (decode blob)⟩ := by
  obtain ⟨⟨answer, s₁⟩, hfinish, h⟩ := Option.map_eq_some_iff.mp h
  match answer, hfinish, h with
  | .error error, _, h => cases h
  | .ok (), hfinish, h =>
    cases h
    have hdrained := drained_finish law hsane hfinish
    refine ⟨hdrained, ?_⟩
    rw [hdrained.2.1, hdrained.2.2]

theorem compare_eq_ok [DecidableEq δ] {expected actual : LayerDigests δ}
    (h : OciLayerSession.compare expected actual = .ok ()) : expected = actual := by
  unfold OciLayerSession.compare at h
  split_ifs at h with hcompressed hdiff
  obtain ⟨compressed, diffId⟩ := expected
  obtain ⟨compressed', diffId'⟩ := actual
  rw [show compressed' = compressed from not_not.mp hcompressed,
    show diffId' = diffId from not_not.mp hdiff]

/-- A drain compares nothing. -/
theorem finish_ne_mismatch {kind : DigestKind} {expected actual : δ} :
    s.finish rounds ≠ some (.error (.digestMismatch kind expected actual), s') := by
  intro h
  unfold OciLayerSession.finish at h
  cases hreader : s.reader with
  | none =>
    rw [hreader] at h
    cases h
  | some r =>
    rw [hreader] at h
    dsimp only at h
    cases hevents : OciLayerSession.drainEvents rounds r with
    | none =>
      rw [hevents] at h
      cases h
    | some drained =>
      obtain ⟨answer, r₁⟩ := drained
      rw [hevents] at h
      match answer, h with
      | .error error, h => cases h
      | .ok (), h =>
        obtain ⟨⟨answer, source⟩, -, h⟩ := Option.map_eq_some_iff.mp h
        cases answer with
        | error error => cases h
        | ok _ => cases h

/-- What a call does to a session that nothing has spoilt. -/
theorem sane_call [DecidableEq δ] (law : C.Decodes decode) {sha : List Byte → δ} {call : Call δ}
    {answered : Answered δ} (hsane : Sane C blob (decode blob) limit s)
    (h : s.call sha rounds call = some (answered, s')) :
    Whole sha blob (decode blob) answered ∧
      (¬ answered.Spoils → Sane C blob (decode blob) limit s') := by
  cases call with
  | nextEntry =>
    obtain ⟨⟨result, s₁⟩, hcall, h⟩ := Option.map_eq_some_iff.mp h
    cases h
    exact ⟨trivial, fun hkept => sane_nextEntry law hsane hcall hkept⟩
  | digests =>
    obtain ⟨⟨result, s₁⟩, hcall, h⟩ := Option.map_eq_some_iff.mp h
    cases h
    cases result with
    | error error => exact ⟨trivial, fun hkept => absurd ⟨error, rfl⟩ hkept⟩
    | ok found =>
      obtain ⟨hdrained, hfound⟩ := drained_digests law hsane hcall
      exact ⟨hfound, fun _ => hdrained.sane⟩
  | verify expected =>
    obtain ⟨⟨result, s₁⟩, hcall, h⟩ := Option.map_eq_some_iff.mp h
    cases h
    obtain ⟨⟨answer, s₂⟩, hdigests, h⟩ := Option.map_eq_some_iff.mp hcall
    cases h
    cases answer with
    | error error =>
      refine ⟨trivial, fun hkept => absurd ⟨error, rfl, ?_⟩ hkept⟩
      rintro kind expected' actual rfl
      -- the drain does not compare
      obtain ⟨⟨answer, s₃⟩, hfinish, h⟩ := Option.map_eq_some_iff.mp hdigests
      cases answer with
      | ok _ => cases h
      | error error =>
        cases h
        exact finish_ne_mismatch hfinish
    | ok found =>
      obtain ⟨hdrained, rfl⟩ := drained_digests law hsane hdigests
      refine ⟨?_, fun _ => hdrained.sane⟩
      change Whole sha blob (decode blob) (.verify expected (OciLayerSession.compare expected _))
      cases hcompare : OciLayerSession.compare expected ⟨sha blob, sha (decode blob)⟩ with
      | error _ => trivial
      | ok _ => exact compare_eq_ok hcompare

/-- **The digests of a layer are whole** in every run in which no call asks for them after a drain has
failed or a byte of the decoded stream has been lost at the limit. -/
theorem digests_whole [DecidableEq δ] (law : C.Decodes decode) (sha : List Byte → δ) {limits : Limits}
    {source : Source} {s₀ s : OciLayerSession F C} {log : List (Answered δ)}
    (hopen : OciLayerSession.openLayer F C limits source = .ok s₀) (hrun : Run sha s₀ log s)
    (hlog : log.Pairwise fun earlier later => earlier.Spoils → ¬ later.Asks) :
    ∀ answered ∈ log, Whole sha source.rest (decode source.rest) answered := by
  suffices h : (∀ answered ∈ log, Whole sha source.rest (decode source.rest) answered) ∧
      ((∀ answered ∈ log, ¬ answered.Spoils) →
        Sane C source.rest (decode source.rest) limits.decodedTotal s) from h.1
  induction hrun with
  | start => exact ⟨nofun, fun _ => sane_openLayer hopen _⟩
  | @call log s _ _ answered s' _ hcall ih =>
    obtain ⟨hbefore, -, hcross⟩ := List.pairwise_append.mp hlog
    obtain ⟨hwhole, hsane⟩ := ih hbefore
    have hlast := fun earlier hmem => hcross earlier hmem answered List.mem_cons_self
    constructor
    · intro asked hmem
      rcases List.mem_append.mp hmem with hmem | hmem
      · exact hwhole asked hmem
      · rw [List.mem_singleton.mp hmem]
        by_cases hasks : answered.Asks
        · exact (sane_call law (hsane fun earlier hmem hspoils =>
            hlast earlier hmem hspoils hasks) hcall).1
        · cases answered with
          | nextEntry _ => trivial
          | digests _ => exact absurd trivial hasks
          | verify _ _ => exact absurd trivial hasks
    · intro hnone
      refine (sane_call law (hsane fun earlier hmem =>
        hnone earlier (List.mem_append_left _ hmem)) hcall).2 (hnone answered ?_)
      exact List.mem_append_right _ List.mem_cons_self

end Calls

/-! ### Examples -/

/-- The answers to some calls. -/
def answersOf [DecidableEq δ] (sha : List Byte → δ) (rounds : ℕ) :
    List (Call δ) → OciLayerSession F C → Option (List (Answered δ))
  | [], _ => some []
  | call :: calls, s =>
    match s.call sha rounds call with
    | none => none
    | some (answered, s) => (answersOf sha rounds calls s).map (answered :: ·)

theorem run_answersOf [DecidableEq δ] {sha : List Byte → δ} {rounds : ℕ} :
    ∀ {calls : List (Call δ)} {start s : OciLayerSession F C} {before log : List (Answered δ)},
    Run sha start before s → answersOf sha rounds calls s = some log →
    ∃ s', Run sha start (before ++ log) s'
  | [], start, s, before, log, hrun, h => by
    cases h
    exact ⟨s, by rwa [List.append_nil]⟩
  | call :: calls, start, s, before, log, hrun, h => by
    unfold answersOf at h
    cases hcall : s.call sha rounds call with
    | none =>
      rw [hcall] at h
      cases h
    | some answer =>
      rw [hcall] at h
      obtain ⟨rest, hrest, h⟩ := Option.map_eq_some_iff.mp h
      cases h
      rw [List.append_cons]
      exact run_answersOf (hrun.call hcall) hrest

/-- What detects and decodes streams of zero bytes: an empty stream is an empty archive, and blocks of
zeros are a tar archive without entries. -/
def zeros : Formats where
  Selection := Unit
  Decoder := Unit
  probeCodec bytes := .ok (if bytes.isEmpty then .needMore 4 else .noMatch)
  probeFormat bytes := .ok (.needMore (if bytes.length < 512 then 512 else detectionMinimum))
  emptyAvailable := true
  selectFormat _ := .ok ()
  decoder _ := .ok ()
  step _ _ _ _ := (.ok { consumed := 0, produced := 0, event := .done }, ())

/-- The answers for a plain layer, where the hash is the bytes themselves. -/
def plainAnswers (limits : Limits) (source : Source) (calls : List (Call (List Byte))) :
    Option (List (Answered (List Byte))) :=
  match OciLayerSession.openLayer zeros plain limits source with
  | .error _ => none
  | .ok s => answersOf id 20 calls s

theorem run_plainAnswers {limits : Limits} {source : Source} {calls : List (Call (List Byte))}
    {log : List (Answered (List Byte))} (h : plainAnswers limits source calls = some log) :
    ∃ (s₀ s : OciLayerSession zeros plain), OciLayerSession.openLayer zeros plain limits source = .ok s₀ ∧
      Run id s₀ log s := by
  unfold plainAnswers at h
  cases hopen : OciLayerSession.openLayer zeros plain limits source with
  | error _ =>
    rw [hopen] at h
    cases h
  | ok s₀ =>
    rw [hopen] at h
    obtain ⟨s, hrun⟩ := run_answersOf .start h
    exact ⟨s₀, s, rfl, hrun⟩

/-- The failure of a source. -/
def late : IoError := ⟨"other", "late"⟩

/-- Two blocks of zeros; the reads behind the first six bytes fail as often as given. -/
def failing (times : ℕ) : Source :=
  ⟨List.replicate 1024 0, .short 5 :: List.replicate times (.fail late)⟩

/-- The only call that fails is one of `next_entry`. -/
theorem digests_whole_failing : ∃ (s₀ s : OciLayerSession zeros plain) (log : List (Answered (List Byte))),
    OciLayerSession.openLayer zeros plain .safe (failing 1) = .ok s₀ ∧ Run id s₀ log s ∧
      .digests (.ok ⟨(failing 1).rest, (failing 1).rest⟩) ∈ log ∧
      ∀ answered ∈ log, Whole id (failing 1).rest (failing 1).rest answered := by
  have hlog : plainAnswers .safe (failing 1) [.nextEntry, .digests] = some [.nextEntry (.error (.stream (.io late))),
      .digests (.ok ⟨(failing 1).rest, (failing 1).rest⟩)] := by decide +kernel
  obtain ⟨s₀, s, hopen, hrun⟩ := run_plainAnswers hlog
  refine ⟨s₀, s, _, hopen, hrun, List.mem_cons_of_mem _ List.mem_cons_self, ?_⟩
  refine digests_whole plain_decodes id hopen hrun (List.pairwise_pair.mpr ?_)
  rintro ⟨error, herror, hlost⟩
  cases herror
  exact absurd hlost (by unfold Lost; decide)

/-- After a drain that failed the digests cover what was read before, and after a failure at the limit
they leave out what was read there. -/
theorem digests_partial :
    (∃ (s₀ s : OciLayerSession zeros plain) (log : List (Answered (List Byte))),
      OciLayerSession.openLayer zeros plain .safe (failing 2) = .ok s₀ ∧ Run id s₀ log s ∧
      log = [.nextEntry (.error (.stream (.io late))), .digests (.error (.stream (.io late))),
        .digests (.ok ⟨List.replicate 6 0, List.replicate 6 0⟩)] ∧
      ¬ ∀ answered ∈ log, Whole id (failing 2).rest (failing 2).rest answered) ∧
    ∃ (s₀ s : OciLayerSession zeros plain) (log : List (Answered (List Byte))),
      OciLayerSession.openLayer zeros plain { Limits.safe with decodedTotal := some 0 } ⟨[0], []⟩ =
        .ok s₀ ∧ Run id s₀ log s ∧
      log = [.nextEntry (.error (.stream (.io ⟨"other", "decoded stream exceeds configured limit"⟩))),
        .digests (.ok ⟨[0], []⟩)] ∧
      ¬ ∀ answered ∈ log, Whole id [0] [0] answered := by
  have hfirst : plainAnswers .safe (failing 2) [.nextEntry, .digests, .digests] =
      some [.nextEntry (.error (.stream (.io late))), .digests (.error (.stream (.io late))),
        .digests (.ok ⟨List.replicate 6 0, List.replicate 6 0⟩)] := by decide +kernel
  have hsecond : plainAnswers { Limits.safe with decodedTotal := some 0 } ⟨[0], []⟩
      [.nextEntry, .digests] =
      some [.nextEntry (.error (.stream (.io ⟨"other", "decoded stream exceeds configured limit"⟩))),
        .digests (.ok ⟨[0], []⟩)] := by decide +kernel
  obtain ⟨s₀, s, hopen, hrun⟩ := run_plainAnswers hfirst
  obtain ⟨t₀, t, hopen', hrun'⟩ := run_plainAnswers hsecond
  refine ⟨⟨s₀, s, _, hopen, hrun, rfl, fun h => ?_⟩, t₀, t, _, hopen', hrun', rfl, fun h => ?_⟩
  · have hwhole := h (.digests (.ok ⟨List.replicate 6 0, List.replicate 6 0⟩)) (by simp)
    exact absurd hwhole (by unfold Whole; decide +kernel)
  · have hwhole := h (.digests (.ok ⟨[0], []⟩)) (by simp)
    exact absurd hwhole (by unfold Whole; decide)

end LibarchiveOxide.Oci.Layer
