import LibarchiveOxide.Udf.Failing

/-! # Going on after an error

A caller may go on with `next_event` after an error of the source. A file then comes whole as long as
each failure strikes at the start of an event (`never_shortened`); bytes that the event has taken
before it fails are lost (`nextEventFrom_loses`). -/

namespace LibarchiveOxide.Udf.Resuming

open Core.Failure Core.Budget Core.Metadata Lib.Result Stream.Event Udf.Partitions Udf.Translation
open Udf.Descriptors Udf.Cursor Udf.Reader Udf.Contents Udf.Failing

variable (v : Volume) {maximum : Option ℕ}

/-- An open payload of `UdfSeekReader::next_event`: the next piece of it, or its end. -/
def dataEventFrom (faults : Faults) (r : UdfSeekReader) (c : UdfDataCursor) :
    UdfSeekReader × Except StreamError (Option ReaderEvent) :=
  if c.remaining = 0 then (r.ended, .ok (some .endEntry))
  else if r.eventChunk = 0 then
    (r, .error (udfError .limit "UDF payload cannot progress under a zero in-flight byte limit"))
  else
    let count := min c.remaining r.eventChunk
    match readExactFrom v.image faults c count with
    | (c, .error e) => ({ r with body := .data c }, .error e)
    | (c, .ok bytes) =>
      match checkedAdd r.decodedTotal count with
      | none => ({ r with body := .data c }, .error (udfError .limit "UDF decoded total overflow"))
      | some total =>
        let r := { r with body := .data c, decodedTotal := total }
        if exceeds total r.limits.decodedTotal then
          (r, .error (udfError .limit "UDF decoded total exceeds configured limit"))
        else (r, .ok (some (.data bytes)))

/-- `UdfSeekReader::next_event` on a source that may fail; no event for `Done`. -/
def nextEventFrom (faults : Faults) (r : UdfSeekReader) :
    UdfSeekReader × Except StreamError (Option ReaderEvent) :=
  match r.archiveMetadata with
  | some metadata => ({ r with archiveMetadata := none }, .ok (some (.archiveMetadata metadata)))
  | none =>
    match r.body with
    | .idle =>
      match r.entries[r.nextEntry]? with
      | none => ({ r with body := .done }, .ok none)
      | some entry =>
        let r := { r with nextEntry := r.nextEntry + 1 }
        match entry.payload with
        | .none => ({ r with body := .endEntry }, .ok (some (.entry entry.metadata)))
        | payload =>
          match UdfDataCursor.new payload ((entry.metadata.size.map UInt64.toNat).getD 0) with
          | .error e => (r, .error e)
          | .ok cursor => ({ r with body := .data cursor }, .ok (some (.entry entry.metadata)))
    | .data c => dataEventFrom v faults r c
    | .endEntry => (r.ended, .ok (some .endEntry))
    | .done => (r, .ok none)

/-- A call of the caller. -/
inductive Call where
  | next (faults : Faults)
  | skip

/-- A reader that is watched: the entry that is open, the bytes that have been delivered of it, and
whether it has been skipped. -/
structure Watch where
  reader : UdfSeekReader
  entry : Option UdfIndex := none
  given : List Byte := []
  skipped : Bool := false

/-- What a call makes of it, whether it fails or not. -/
def Watch.after (w : Watch) : Call → Watch
  | .next faults =>
    let reader := (nextEventFrom v faults w.reader).1
    match (nextEventFrom v faults w.reader).2 with
    | .ok (some (.entry _)) => ⟨reader, w.reader.entries[w.reader.nextEntry]?, [], false⟩
    | .ok (some (.data bytes)) => { w with reader := reader, given := w.given ++ bytes }
    | _ => { w with reader := reader }
  | .skip =>
    match w.reader.skipEntry with
    | .ok reader => { w with reader := reader, skipped := true }
    | .error _ => w

/-- The watches that calls lead to, all of which meet a condition. -/
inductive Runs (P : UdfSeekReader → Call → Prop) (start : UdfSeekReader) : Watch → Prop
  | start : Runs P start ⟨start, none, [], false⟩
  | step {w : Watch} (hw : Runs P start w) (call : Call) (h : P w.reader call) :
      Runs P start (w.after v call)

/-- **No entry is shortened**: when the end of an entry comes that has not been skipped, and it is a
file, its bytes have been delivered, as many as its size says. -/
def NeverShortened (P : UdfSeekReader → Call → Prop) (start : UdfSeekReader) : Prop :=
  ∀ w, Runs v P start w → ∀ faults, (nextEventFrom v faults w.reader).2 = .ok (some .endEntry) →
    w.skipped = false → ∃ e, w.entry = some e ∧ (e.metadata.kind = .file →
      w.given = contents v.image e.payload ∧
      ∃ size : UInt64, e.metadata.size = some size ∧ w.given.length = size.toNat)

/-- The count of all the bytes may grow by so many. -/
def Admits (r : UdfSeekReader) (count : ℕ) : Prop :=
  r.decodedTotal + count ≤ u64Max ∧ exceeds (r.decodedTotal + count) r.limits.decodedTotal = false

/-- **An event that loses nothing**: a call on the source that fails is one for its first piece, and
if none fails its bytes may be counted. -/
def Harmless (r : UdfSeekReader) : Call → Prop
  | .skip => True
  | .next faults => ∀ c, r.body = .data c → 0 < min c.remaining r.eventChunk →
      failsAfter faults (pieces c (min c.remaining r.eventChunk)) = some 0 ∨
      failsAfter faults (pieces c (min c.remaining r.eventChunk)) = none ∧
        Admits r (min c.remaining r.eventChunk)

/-- A reader as `new` leaves it: over the index, whose files have payloads, under any limits. -/
structure Loaded (v : Volume) (maximum : Option ℕ) (start : UdfSeekReader) : Prop where
  entries : ∀ e ∈ start.entries, Indexed v maximum e
  files : ∀ e ∈ start.entries, e.metadata.kind = .file → e.payload ≠ .none
  idle : start.body = .idle

/-- **What holds of a watched reader**: the bytes of an open file are those that have been delivered
and those that its cursor still owes. -/
structure Kept (v : Volume) (maximum : Option ℕ) (w : Watch) : Prop where
  entries : ∀ e ∈ w.reader.entries, Indexed v maximum e
  files : ∀ e ∈ w.reader.entries, e.metadata.kind = .file → e.payload ≠ .none
  data : ∀ c, w.reader.body = .data c → Sane v.image c ∧ ∃ e size, w.entry = some e ∧
    e.metadata.size = some size ∧ contents v.image e.payload = w.given ++ left v.image c ∧
    (contents v.image e.payload).length = UInt64.toNat size ∧
    w.given.length + c.remaining = UInt64.toNat size
  ending : w.reader.body = .endEntry → w.skipped = false → ∃ e, w.entry = some e ∧
    e.metadata.kind ≠ .file

variable {v} {r : UdfSeekReader}

/-- An event of an open payload takes bytes from its cursor; it delivers them, or they are lost. -/
theorem dataEventFrom_spec {c : UdfDataCursor} (hc : Sane v.image c)
    (hcount : 0 < min c.remaining r.eventChunk) (faults : Faults) :
    ∃ taken c', left v.image c = taken ++ left v.image c' ∧ Sane v.image c' ∧
      c'.remaining + taken.length = c.remaining ∧
      (∃ total, (dataEventFrom v faults r c).1 = { r with body := .data c', decodedTotal := total }) ∧
      ((failsAfter faults (pieces c (min c.remaining r.eventChunk)) = none ∧
        Admits r (min c.remaining r.eventChunk) ∧ taken.length = min c.remaining r.eventChunk ∧
        (dataEventFrom v faults r c).2 = .ok (some (.data taken))) ∨
      ((∃ e, (dataEventFrom v faults r c).2 = .error e) ∧
        ¬ (failsAfter faults (pieces c (min c.remaining r.eventChunk)) = none ∧
          Admits r (min c.remaining r.eventChunk)) ∧
        (taken = [] ↔ failsAfter faults (pieces c (min c.remaining r.eventChunk)) = some 0))) := by
  obtain ⟨taken, htakes⟩ := readExactFrom_spec v.length_le hc
    (min_le_left c.remaining r.eventChunk) faults
  unfold dataEventFrom
  rw [if_neg (by omega), if_neg (by omega)]
  dsimp only
  generalize min c.remaining r.eventChunk = count at *
  generalize readExactFrom v.image faults c count = result at htakes ⊢
  obtain ⟨c', answer⟩ := result
  obtain ⟨hleft, -, hc', hremaining, hwhole, hlost⟩ := htakes
  refine ⟨taken, c', hleft, hc', hremaining, ?_⟩
  cases hfails : failsAfter faults (pieces c count) with
  | some k =>
    obtain ⟨hk, e, hanswer⟩ := hlost k hfails
    dsimp only at hanswer
    rw [hanswer]
    refine ⟨⟨_, rfl⟩, .inr ⟨⟨e, rfl⟩, (nomatch ·.1), ?_⟩⟩
    rw [← List.length_eq_zero_iff, hk, Option.some.injEq]
  | none =>
    obtain ⟨hlength, hanswer⟩ := hwhole hfails
    dsimp only at hanswer
    rw [hanswer]
    dsimp only
    have hlost : taken = [] ↔ (none : Option ℕ) = some 0 := by
      rw [← List.length_eq_zero_iff, hlength]
      exact ⟨fun hzero => absurd hzero hcount.ne', nofun⟩
    by_cases hfits : r.decodedTotal + count ≤ u64Max
    · rw [checkedAdd_of_le hfits]
      dsimp only
      cases hexceeds : exceeds (r.decodedTotal + count) r.limits.decodedTotal with
      | false => exact ⟨⟨_, rfl⟩, .inl ⟨rfl, ⟨hfits, hexceeds⟩, hlength, rfl⟩⟩
      | true =>
        refine ⟨⟨_, rfl⟩, .inr ⟨⟨_, rfl⟩, fun hgrows => ?_, hlost⟩⟩
        exact Bool.noConfusion (hgrows.2.2.symm.trans hexceeds)
    · rw [checkedAdd, if_neg hfits]
      exact ⟨⟨_, rfl⟩, .inr ⟨⟨_, rfl⟩, fun hgrows => hfits hgrows.2.1, hlost⟩⟩

/-- The event of an open payload that does not end it. -/
theorem nextEventFrom_data {c : UdfDataCursor} (hmetadata : r.archiveMetadata = none)
    (hbody : r.body = .data c) (faults : Faults) :
    nextEventFrom v faults r = dataEventFrom v faults r c := by
  unfold nextEventFrom
  rw [hmetadata, hbody]

/-- Opening an entry of the index. -/
theorem opened_kept {e : UdfIndex} (he : e ∈ r.entries)
    (hentries : ∀ e ∈ r.entries, Indexed v maximum e)
    (hfiles : ∀ e ∈ r.entries, e.metadata.kind = .file → e.payload ≠ .none)
    (hmetadata : r.archiveMetadata = none) (hidle : r.body = .idle)
    (hnext : r.entries[r.nextEntry]? = some e) (faults : Faults) :
    (nextEventFrom v faults r).2 = .ok (some (.entry e.metadata)) ∧
      Kept v maximum ⟨(nextEventFrom v faults r).1, some e, [], false⟩ := by
  unfold nextEventFrom
  rw [hmetadata, hidle]
  dsimp only
  rw [hnext]
  dsimp only
  rcases indexed_new (hentries e he) with hnone | ⟨size, hsize, hfitting, hnew, hsane⟩
  · rw [hnone]
    refine ⟨rfl, ⟨hentries, hfiles, nofun, fun _ _ => ⟨e, rfl, fun hkind => ?_⟩⟩⟩
    exact hfiles e he hkind hnone
  · have hkept : Kept v maximum ⟨{ r with
        nextEntry := r.nextEntry + 1,
        body := .data { payload := e.payload, remaining := size.toNat } }, some e, [], false⟩ := by
      refine ⟨hentries, hfiles, ?_, nofun⟩
      rintro c ⟨⟩
      refine ⟨hsane, e, size, rfl, hsize, ?_, hfitting.contents_eq, by simp⟩
      rw [left_new, List.nil_append]
    rw [hsize, Option.map_some, Option.getD_some]
    cases hpayload : e.payload with
    | none =>
      refine ⟨rfl, ⟨hentries, hfiles, nofun, fun _ _ => ⟨e, rfl, fun hkind => ?_⟩⟩⟩
      exact hfiles e he hkind hpayload
    | inline data location =>
      rw [hpayload, hmetadata] at hkept
      rw [hpayload] at hnew
      dsimp only
      rw [hnew]
      exact ⟨rfl, hkept⟩
    | extents es =>
      rw [hpayload, hmetadata] at hkept
      rw [hpayload] at hnew
      dsimp only
      rw [hnew]
      exact ⟨rfl, hkept⟩

/-- **A call that is harmless keeps it.** -/
theorem Kept.after {w : Watch} (h : Kept v maximum w) {call : Call} (hcall : Harmless w.reader call) :
    Kept v maximum (w.after v call) := by
  obtain ⟨hentries, hfiles, hdata, hending⟩ := h
  cases call with
  | skip =>
    unfold Watch.after UdfSeekReader.skipEntry
    cases hbody : w.reader.body with
    | idle => exact ⟨hentries, hfiles, hdata, hending⟩
    | done => exact ⟨hentries, hfiles, hdata, hending⟩
    | data c => exact ⟨hentries, hfiles, nofun, nofun⟩
    | endEntry => exact ⟨hentries, hfiles, nofun, nofun⟩
  | next faults =>
    cases hmetadata : w.reader.archiveMetadata with
    | some metadata =>
      unfold Watch.after nextEventFrom
      rw [hmetadata]
      exact ⟨hentries, hfiles, hdata, hending⟩
    | none =>
      cases hbody : w.reader.body with
      | idle =>
        cases hentry : w.reader.entries[w.reader.nextEntry]? with
        | none =>
          unfold Watch.after nextEventFrom
          rw [hmetadata, hbody]
          dsimp only
          rw [hentry]
          exact ⟨hentries, hfiles, nofun, nofun⟩
        | some e =>
          obtain ⟨hevent, hkept⟩ := opened_kept (List.mem_of_getElem? hentry) hentries hfiles hmetadata
            hbody hentry faults
          unfold Watch.after
          dsimp only
          rw [hevent, hentry]
          exact hkept
      | endEntry =>
        unfold Watch.after nextEventFrom
        rw [hmetadata, hbody]
        exact ⟨hentries, hfiles, nofun, nofun⟩
      | done =>
        unfold Watch.after nextEventFrom
        rw [hmetadata, hbody]
        dsimp only
        refine ⟨hentries, hfiles, ?_, ?_⟩
        · intro c hc
          rw [hbody] at hc
          cases hc
        · intro hc
          rw [hbody] at hc
          cases hc
      | data c =>
        obtain ⟨hc, e, size, hopen, hsize, hcontents, hlength, hgiven⟩ := hdata c hbody
        unfold Watch.after
        dsimp only
        rw [nextEventFrom_data hmetadata hbody]
        by_cases hzero : c.remaining = 0
        · unfold dataEventFrom
          rw [if_pos hzero]
          exact ⟨hentries, hfiles, nofun, nofun⟩
        · by_cases hchunk : w.reader.eventChunk = 0
          · unfold dataEventFrom
            rw [if_neg hzero, if_pos hchunk]
            exact ⟨hentries, hfiles, hdata, hending⟩
          · have hcount : 0 < min c.remaining w.reader.eventChunk := by omega
            obtain ⟨taken, c', hleft, hc', hremaining, ⟨total, hreader⟩, hresult⟩ :=
              dataEventFrom_spec (r := w.reader) hc hcount faults
            rcases hresult with ⟨-, -, -, hevent⟩ | ⟨⟨error, hevent⟩, hfails, htaken⟩
            · -- the bytes that the cursor gives are delivered
              rw [hevent, hreader]
              refine ⟨hentries, hfiles, ?_, nofun⟩
              rintro c₀ ⟨⟩
              refine ⟨hc', e, size, hopen, hsize, ?_, hlength, ?_⟩
              · rw [hcontents, hleft, List.append_assoc]
              · rw [List.length_append]
                omega
            · -- the cursor has not given any
              obtain rfl : taken = [] := by
                rcases hcall c hbody hcount with hfirst | hgrows
                · exact htaken.mpr hfirst
                · exact absurd hgrows hfails
              rw [hevent, hreader]
              refine ⟨hentries, hfiles, ?_, nofun⟩
              rintro c₀ ⟨⟩
              rw [List.nil_append] at hleft
              refine ⟨hc', e, size, hopen, hsize, by rw [hcontents, hleft], hlength, ?_⟩
              rw [List.length_nil, Nat.add_zero] at hremaining
              rw [hremaining]
              exact hgiven

theorem Loaded.kept {start : UdfSeekReader} (h : Loaded v maximum start) :
    Kept v maximum ⟨start, none, [], false⟩ := by
  refine ⟨h.entries, h.files, fun c hc => ?_, fun hend => ?_⟩
  · rw [h.idle] at hc
    cases hc
  · rw [h.idle] at hend
    cases hend

/-- So it is in every run whose calls are harmless. -/
theorem Kept.runs {start : UdfSeekReader} (h : Loaded v maximum start) {w : Watch}
    (hw : Runs v Harmless start w) : Kept v maximum w := by
  induction hw with
  | start => exact h.kept
  | step _ call hcall ih => exact ih.after hcall

/-- The end of an entry comes when its cursor owes nothing, or with no cursor at all. -/
theorem ends_cases {faults : Faults} (hidle : ∀ c, r.body = .data c → Sane v.image c)
    (h : (nextEventFrom v faults r).2 = .ok (some .endEntry)) :
    (∃ c, r.body = .data c ∧ c.remaining = 0) ∨ r.body = .endEntry := by
  cases hmetadata : r.archiveMetadata with
  | some metadata =>
    unfold nextEventFrom at h
    rw [hmetadata] at h
    cases h
  | none =>
    cases hbody : r.body with
    | endEntry => exact .inr rfl
    | data c =>
      refine .inl ⟨c, rfl, ?_⟩
      rw [nextEventFrom_data hmetadata hbody] at h
      by_contra hzero
      by_cases hchunk : r.eventChunk = 0
      · unfold dataEventFrom at h
        rw [if_neg hzero, if_pos hchunk] at h
        cases h
      · obtain ⟨taken, c', -, -, -, -, ⟨-, -, -, hevent⟩ | ⟨⟨e, hevent⟩, -, -⟩⟩ :=
          dataEventFrom_spec (r := r) (hidle c hbody) (by omega) faults
        · rw [hevent] at h
          cases h
        · rw [hevent] at h
          cases h
    | done =>
      unfold nextEventFrom at h
      rw [hmetadata, hbody] at h
      cases h
    | idle =>
      unfold nextEventFrom at h
      rw [hmetadata, hbody] at h
      dsimp only at h
      cases hentry : r.entries[r.nextEntry]? with
      | none =>
        rw [hentry] at h
        cases h
      | some e =>
        rw [hentry] at h
        dsimp only at h
        cases hpayload : e.payload with
        | none =>
          rw [hpayload] at h
          cases h
        | inline data location =>
          rw [hpayload] at h
          dsimp only at h
          cases hnew : UdfDataCursor.new (.inline data location)
              ((e.metadata.size.map UInt64.toNat).getD 0) with
          | error error => rw [hnew] at h; cases h
          | ok c => rw [hnew] at h; cases h
        | extents es =>
          rw [hpayload] at h
          dsimp only at h
          cases hnew : UdfDataCursor.new (.extents es)
              ((e.metadata.size.map UInt64.toNat).getD 0) with
          | error error => rw [hnew] at h; cases h
          | ok c => rw [hnew] at h; cases h

/-- **In a run whose events all lose nothing no entry is shortened**, whatever fails and however often
the caller goes on. -/
theorem never_shortened {start : UdfSeekReader} (h : Loaded v maximum start) :
    NeverShortened v Harmless start := by
  intro w hw faults hend hskipped
  obtain ⟨-, -, hdata, hending⟩ := Kept.runs h hw
  rcases ends_cases (fun c hc => (hdata c hc).1) hend with ⟨c, hbody, hzero⟩ | hbody
  · obtain ⟨-, e, size, hopen, hsize, hcontents, hlength, hgiven⟩ := hdata c hbody
    rw [hzero, Nat.add_zero] at hgiven
    refine ⟨e, hopen, fun _ => ⟨?_, size, hsize, hgiven⟩⟩
    rw [hcontents, List.length_append] at hlength
    have hnil : left v.image c = [] := List.length_eq_zero_iff.mp (by omega)
    rw [hcontents, hnil, List.append_nil]
  · obtain ⟨e, hopen, hkind⟩ := hending hbody hskipped
    exact ⟨e, hopen, fun hfile => absurd hfile hkind⟩

/-! ### A file that begins with a hole -/

/-- A file of two extents: 2048 bytes that are not allocated, and one byte that is recorded. -/
def splitFile : FileEntry where
  allocationType := 0
  allocation := [0, 8, 0, 128, 0, 0, 0, 0, 1, 0, 0, 0, 0, 0, 0, 0]
  partitionRef := 0
  logicalBlock := 0
  informationLength := 2049
  constraint := .any

/-- Its place in the index. -/
def splitIndex : UdfIndex :=
  ⟨fileMetadata holeIndex.metadata splitFile [⟨0, 2048, by decide, by decide⟩],
    .extents [⟨none, 2048, 0⟩, ⟨some 0, 1, 0⟩]⟩

set_option maxRecDepth 20000 in
theorem filePayload_splitFile : filePayload holeVolume none 0 splitFile =
    .ok (.extents [⟨none, 2048, 0⟩, ⟨some 0, 1, 0⟩], [⟨0, 2048, by decide, by decide⟩]) := by
  rfl

/-- A reader of this file alone. -/
def splitReader : UdfSeekReader where
  limits := .unlimited
  archiveMetadata := none
  entries := [splitIndex]
  eventChunk := 65536
  decodedTotal := 48

theorem loaded_splitReader : Loaded holeVolume none splitReader where
  entries e he := by
    obtain rfl := List.mem_singleton.mp he
    exact .file _ filePayload_splitFile
  files e he _ := by
    obtain rfl := List.mem_singleton.mp he
    nofun
  idle := rfl

theorem never_shortened_splitReader : NeverShortened holeVolume Harmless splitReader :=
  never_shortened loaded_splitReader

/-- The source answers every call. -/
def quiet : Faults := fun _ => none

/-- The first read of an event fails. -/
def tripped : Faults := fun i => if i = 1 then some ⟨"TimedOut", "timed out"⟩ else none

/-- The reader after the entry, an event that fails, and one that does not. -/
def splitWatch : Watch :=
  (((⟨splitReader, none, [], false⟩ : Watch).after holeVolume (.next quiet)).after holeVolume
    (.next tripped)).after holeVolume (.next quiet)

set_option maxRecDepth 20000 in
theorem splitWatch_ends : splitWatch.given = [0] ∧ splitWatch.skipped = false ∧
    (splitWatch.entry.map fun e => (e.metadata.kind, e.metadata.size)) = some (.file, some 2049) ∧
    (nextEventFrom holeVolume quiet splitWatch.reader).2 = .ok (some .endEntry) := by
  refine ⟨?_, rfl, rfl, rfl⟩
  decide +kernel

/-- **The bytes of the hole are lost** when the read behind it fails once: the file ends after one byte
of 2049. -/
theorem shortened_by_failure : Loaded holeVolume none splitReader ∧
    ¬ NeverShortened holeVolume (fun _ _ => True) splitReader := by
  refine ⟨loaded_splitReader, fun h => ?_⟩
  have hruns : Runs holeVolume (fun _ _ => True) splitReader splitWatch :=
    .step (.step (.step .start _ trivial) _ trivial) _ trivial
  obtain ⟨hgiven, hskipped, hentry, hends⟩ := splitWatch_ends
  obtain ⟨e, hopen, hwhole⟩ := h _ hruns quiet hends hskipped
  rw [hopen, Option.map_some, Option.some.injEq, Prod.mk.injEq] at hentry
  obtain ⟨-, size, hsize, hlength⟩ := hwhole hentry.1
  rw [hsize, Option.some.injEq] at hentry
  rw [hgiven, hentry.2] at hlength
  exact absurd hlength (by decide)

end LibarchiveOxide.Udf.Resuming
