import LibarchiveOxide.Xar.Payloads

/-! # Entries deliver their declared content

A run reads, skips, or reads for a while and then skips each entry, and stops at the first failure.
At the `EndEntry` of a file the bytes decoded for it are as many as declared, and its blob is its
encoded stream. For zlib the reader does not look at what is left of the blob when the stream ends,
as it does for bzip2. -/

namespace LibarchiveOxide.Xar.Exactness

open Core.Failure Core.Budget Core.Metadata Lib.Slice Lib.Result Stream.Event Xar.Reader
open Xar.Payloads

/-! ### Runs -/

/-- What a run has delivered: the entries, the bytes decoded for the last one, all bytes decoded, and
whether the last entry has been left at its end. -/
structure Log where
  entries : List EntryMetadata := []
  current : List Byte := []
  total : ℕ := 0
  ended : Bool := false
deriving DecidableEq

namespace Log

/-- The log after a call of `next_event`. -/
def event (l : Log) : XarSeekReader.Delivered → Log
  | some (.entry m) => { l with entries := l.entries ++ [m], current := [], ended := false }
  | some (.data bytes) =>
    { l with current := l.current ++ bytes, total := l.total + bytes.length }
  | some .endEntry => { l with ended := true }
  | some (.archiveMetadata _) | none => l

/-- The log after a call of `skip_entry`. -/
def skip (l : Log) (bytes : List Byte) : Log :=
  { l with current := l.current ++ bytes, total := l.total + bytes.length, ended := true }

end Log

/-- The states a run reaches, with any choice at each entry. -/
inductive Reaches (a : Archive) : XarSeekReader a → Log → Prop
  | opened : Reaches a {} {}
  | event {r r' : XarSeekReader a} {log : Log} {fuel : ℕ} {delivered : XarSeekReader.Delivered}
      (hr : Reaches a r log) (h : r.nextEvent fuel = some (.ok (delivered, r'))) :
      Reaches a r' (log.event delivered)
  | skip {r r' : XarSeekReader a} {log : Log} {fuel : ℕ} {bytes : List Byte}
      (hr : Reaches a r log) (h : r.skipEntry fuel = some (.ok (bytes, r'))) :
      Reaches a r' (log.skip bytes)

variable {a : Archive} {r r' : XarSeekReader a} {log : Log} {fuel remaining : ℕ}
  {bytes : List Byte} {record : XarFile} {d : XarData}

/-- The entry that is open, or was last. -/
def Current (r : XarSeekReader a) (record : XarFile) : Prop :=
  ∃ i, r.nextFile = i + 1 ∧ a.files[i]? = some record

/-- A file whose payload can be decoded. -/
def Payloaded (record : XarFile) (d : XarData) : Prop :=
  record.kind = .file ∧ record.data = some d ∧ d.encoding ≠ .unsupported

/-- The last entry has been decoded. -/
def Finished (r : XarSeekReader a) (log : Log) : Prop :=
  ∀ record d, Current r record → Payloaded record d →
    log.current.length = d.length.toNat ∧ Delivers a d log.current

/-- The payload of the open entry is being decoded, with this much to come. -/
structure Streaming (r : XarSeekReader a) (log : Log) (remaining : ℕ) : Prop where
  file : ∃ record d p, Current r record ∧ record.kind = .file ∧ record.data = some d ∧
    r.payload = some p ∧ Archive.blobEnd a d ≤ a.image.length ∧ Holds a d r.input log.current p ∧
    log.current.length + remaining = d.length.toNat
  within : Within (r.decodedTotal + remaining) a.limits.decodedTotal

/-- Where a reader stands. -/
def Standing (r : XarSeekReader a) (log : Log) : XarPhase → Prop
  | .idle => Finished r log
  | .done => Finished r log ∧ r.nextFile = a.files.length
  | .endEntry => Finished r log
  | .data remaining => Streaming r log remaining ∧ log.ended = false
  | .unsupported => Finished r log ∧ log.ended = false

/-- **The invariant.** -/
structure Inv (r : XarSeekReader a) (log : Log) : Prop where
  entries_eq : log.entries.map Except.ok =
    (a.files.take r.nextFile).map XarSeekReader.metadataOf
  nextFile_le : r.nextFile ≤ a.files.length
  total_eq : log.total = r.decodedTotal
  within : Within r.decodedTotal a.limits.decodedTotal
  standing : Standing r log r.phase

/-! ### Opening a payload -/

variable {delivered : XarSeekReader.Delivered}

/-- What `begin_payload` does. -/
theorem beginPayload_spec (h : r.beginPayload d = .ok r') :
    Archive.blobEnd a d ≤ a.image.length ∧ r'.nextFile = r.nextFile ∧
      r'.decodedTotal = r.decodedTotal ∧ r'.archiveMetadata = r.archiveMetadata ∧
      ((d.encoding = .unsupported ∧ r'.phase = .unsupported) ∨
        r'.phase = .data d.length.toNat ∧
          Within (r.decodedTotal + d.length.toNat) a.limits.decodedTotal ∧
          ∃ p, r'.payload = some p ∧ Holds a d r'.input [] p) := by
  simp only [XarSeekReader.beginPayload, bind_eq_ok, okOr_eq_ok, guard_eq_ok,
    checkedAdd_eq_some] at h
  obtain ⟨start, ⟨rfl, -⟩, last, ⟨rfl, -⟩, hend, hlimit, h⟩ := h
  have hblobEnd : Archive.blobEnd a d ≤ a.image.length := Nat.le_of_not_lt hend
  have hwithin : Within (r.decodedTotal + d.length.toNat) a.limits.decodedTotal := by
    intro maximum hm
    rw [hm] at hlimit
    by_contra hgt
    refine hlimit ?_
    rw [Option.any_some, Option.all_eq_true]
    intro total htotal
    rw [(checkedAdd_eq_some.mp htotal).1]
    exact decide_eq_true (by omega)
  have hblob : ∀ input : Input, input.position = a.heapStart + d.offset →
      Archive.blob a d = [] ++ ahead a input d.storedSize := by
    intro input hpos
    rw [List.nil_append, ahead, hpos]
    rfl
  refine ⟨hblobEnd, ?_⟩
  cases henc : d.encoding with
  | stored =>
    rw [henc] at h
    simp only [guard_eq_ok, pure_eq_ok, Except.ok.injEq] at h
    obtain ⟨hsize, rfl⟩ := h
    exact ⟨rfl, rfl, rfl, .inr ⟨rfl, hwithin, _, rfl, henc, rfl, hblob _ rfl⟩⟩
  | zlib =>
    rw [henc] at h
    cases h
    exact ⟨rfl, rfl, rfl, .inr ⟨rfl, hwithin, _, rfl, henc, rfl, [], hblob _ rfl,
      fun _ => .new, fun hf => absurd hf Bool.false_ne_true⟩⟩
  | bzip2 =>
    rw [henc] at h
    simp only [guard_eq_ok, pure_eq_ok, Except.ok.injEq] at h
    obtain ⟨-, rfl⟩ := h
    exact ⟨rfl, rfl, rfl, .inr ⟨rfl, hwithin, _, rfl, henc, ⟨rfl, [], hblob _ rfl,
      fun _ => .new, fun hf => absurd hf Bool.false_ne_true⟩,
      fun hf => absurd hf Bool.false_ne_true⟩⟩
  | unsupported =>
    rw [henc] at h
    cases h
    exact ⟨rfl, rfl, rfl, .inl ⟨rfl, rfl⟩⟩

/-- **The next entry.** -/
theorem inv_nextIdle (h : Inv r log) (hp : r.phase = .idle)
    (hn : r.nextIdle = .ok (delivered, r')) : Inv r' (log.event delivered) := by
  have hfin : Finished r log := by
    have := h.standing
    rwa [hp] at this
  unfold XarSeekReader.nextIdle at hn
  cases hrecord : a.files[r.nextFile]? with
  | none =>
    rw [hrecord] at hn
    cases hn
    have hlen : r.nextFile = a.files.length :=
      le_antisymm h.nextFile_le (List.getElem?_eq_none_iff.mp hrecord)
    exact ⟨h.entries_eq, h.nextFile_le, h.total_eq, h.within, hfin, hlen⟩
  | some record =>
    rw [hrecord] at hn
    obtain ⟨⟨_, _⟩, hprep, hout⟩ := map_eq_ok.mp hn
    cases hout
    simp only [XarSeekReader.prepareRecord, bind_eq_ok, pure_eq_ok, Except.ok.injEq,
      Prod.mk.injEq] at hprep
    obtain ⟨r1, hopen, metadata, hmeta, rfl, rfl⟩ := hprep
    have hlt : r.nextFile < a.files.length := (List.getElem?_eq_some_iff.mp hrecord).1
    have hentries : (log.entries ++ [metadata]).map Except.ok =
        (a.files.take (r.nextFile + 1)).map XarSeekReader.metadataOf := by
      rw [List.take_add_one, List.map_append, List.map_append, h.entries_eq, hrecord]
      simp [hmeta]
    have hcurrent : ∀ {r2 : XarSeekReader a} {rec : XarFile}, r2.nextFile = r.nextFile + 1 →
        (Current r2 rec ↔ rec = record) := by
      intro r2 rec h2
      constructor
      · rintro ⟨i, hi, hrec⟩
        rw [show i = r.nextFile by omega, hrecord] at hrec
        exact (Option.some.inj hrec).symm
      · rintro rfl
        exact ⟨r.nextFile, h2, hrecord⟩
    -- an entry without a payload
    have hnone : r1 = { r with nextFile := r.nextFile + 1, payload := none, phase := .endEntry } →
        (∀ d, ¬ Payloaded record d) → Inv r1 (log.event (some (.entry metadata))) := by
      rintro rfl hno
      refine ⟨hentries, hlt, h.total_eq, h.within, ?_⟩
      intro rec d hrec hd
      obtain rfl := (hcurrent rfl).mp hrec
      exact absurd hd (hno d)
    unfold XarSeekReader.openRecord at hopen
    split at hopen
    · next data hkind hdata =>
      obtain ⟨hend, hnext, htotal, -, hcases⟩ := beginPayload_spec hopen
      have hwithin : Within r1.decodedTotal a.limits.decodedTotal := by
        rw [htotal]
        exact h.within
      refine ⟨by rw [hnext]; exact hentries, by rw [hnext]; exact hlt, h.total_eq.trans htotal.symm,
        hwithin, ?_⟩
      rcases hcases with ⟨henc, hphase⟩ | ⟨hphase, hroom, p, hpay, hholds⟩
      · rw [hphase]
        refine ⟨fun rec d hrec hd => ?_, rfl⟩
        obtain rfl := (hcurrent hnext).mp hrec
        rw [hd.2.1] at hdata
        cases hdata
        exact absurd henc hd.2.2
      · rw [hphase]
        exact ⟨⟨⟨record, data, p, (hcurrent hnext).mpr rfl, hkind, hdata, hpay, hend, hholds,
          Nat.zero_add _⟩, by rw [htotal]; exact hroom⟩, rfl⟩
    · next hno =>
      refine hnone (Except.ok.inj hopen).symm fun d hd => ?_
      exact hno _ hd.1 hd.2.1

/-! ### Decoding -/

theorem accountDecoded_eq_ok {count : ℕ} (h : r.accountDecoded count = .ok r') :
    r' = { r with decodedTotal := r.decodedTotal + count } := by
  unfold XarSeekReader.accountDecoded at h
  split_ifs at h
  exact (Except.ok.inj h).symm

/-- The log after bytes that are delivered or thrown away. -/
def took (l : Log) (bytes : List Byte) : Log :=
  { l with current := l.current ++ bytes, total := l.total + bytes.length }

/-- **A piece of the payload.** -/
theorem readPayloadChunk_spec {amount : ℕ} (h : Streaming r log remaining)
    (hle : amount ≤ remaining) (hr : r.readPayloadChunk fuel amount = some (.ok (bytes, r'))) :
    Streaming r' (took log bytes) (remaining - bytes.length) ∧ bytes.length ≤ remaining ∧
      r'.nextFile = r.nextFile ∧ r'.decodedTotal = r.decodedTotal + bytes.length ∧
      r'.archiveMetadata = r.archiveMetadata := by
  obtain ⟨⟨record, d, p, hcur, hkind, hdata, hpay, hend, hholds, hlen⟩, hwithin⟩ := h
  unfold XarSeekReader.readPayloadChunk at hr
  rw [hpay] at hr
  obtain ⟨result, hfill, hout⟩ := Option.map_eq_some_iff.mp hr
  cases result with
  | error e => cases hout
  | ok result =>
    obtain ⟨bytes1, input1, payload1⟩ := result
    obtain ⟨r1, hacc, hout⟩ := map_eq_ok.mp hout
    cases hout
    obtain ⟨p', rfl, hholds', hle'⟩ := fill_spec hend hholds hfill
    obtain rfl := accountDecoded_eq_ok hacc
    refine ⟨⟨⟨record, d, p', hcur, hkind, hdata, rfl, hend, hholds', ?_⟩, ?_⟩, by omega, rfl, rfl,
      rfl⟩
    · have hl : (took log bytes).current.length = log.current.length + bytes.length :=
        List.length_append
      omega
    · refine hwithin.mono ?_
      dsimp only
      omega

/-- **The end of the payload.** The stream has ended, so the entry is finished. -/
theorem finishPayload_spec (h : Streaming r log 0)
    (hr : r.finishPayload fuel = some (.ok r')) :
    r'.nextFile = r.nextFile ∧ r'.decodedTotal = r.decodedTotal ∧ Finished r log := by
  obtain ⟨⟨record, d, p, hcur, -, hdata, hpay, hend, hholds, hlen⟩, -⟩ := h
  unfold XarSeekReader.finishPayload at hr
  rw [hpay] at hr
  obtain ⟨result, hread, hout⟩ := Option.map_eq_some_iff.mp hr
  cases result with
  | error e => cases hout
  | ok result =>
    obtain ⟨bytes1, input1, payload1⟩ := result
    dsimp only at hout
    split_ifs at hout with hnil
    cases hout
    obtain ⟨p', -, hholds', -, hended⟩ := readPayload_spec hend hholds hread
    rw [hnil, List.append_nil] at hholds'
    refine ⟨rfl, rfl, fun rec d' hrec hd' => ?_⟩
    obtain ⟨i, hi, hrecord⟩ := hcur
    obtain ⟨j, hj, hrecord'⟩ := hrec
    rw [show j = i by omega, hrecord] at hrecord'
    cases hrecord'
    rw [hd'.2.1] at hdata
    cases hdata
    exact ⟨hlen, delivers_of_ended hholds' (hended hnil one_pos)⟩

/-- **The next piece, or the end, of an entry.** -/
theorem inv_nextData (h : Inv r log) (hp : r.phase = .data remaining)
    (hn : r.nextData fuel remaining = some (.ok (delivered, r'))) :
    Inv r' (log.event delivered) := by
  have hstream : Streaming r log remaining ∧ log.ended = false := by
    have := h.standing
    rwa [hp] at this
  unfold XarSeekReader.nextData at hn
  split_ifs at hn with hzero
  · subst hzero
    obtain ⟨result, hfin, hout⟩ := Option.map_eq_some_iff.mp hn
    obtain ⟨r1, rfl, hout⟩ := map_eq_ok.mp hout
    cases hout
    obtain ⟨hnext, htotal, hdone⟩ := finishPayload_spec hstream.1 hfin
    refine ⟨by rw [hnext]; exact h.entries_eq, by rw [hnext]; exact h.nextFile_le,
      h.total_eq.trans htotal.symm, by rw [htotal]; exact h.within, ?_⟩
    rintro rec d ⟨i, hi, hrec⟩ hd
    exact hdone rec d ⟨i, hnext.symm.trans hi, hrec⟩ hd
  · obtain ⟨result, hchunk, hout⟩ := Option.map_eq_some_iff.mp hn
    cases result with
    | error e => cases hout
    | ok result =>
      obtain ⟨bytes, r1⟩ := result
      obtain ⟨hstream', hle, hnext, htotal, -⟩ :=
        readPayloadChunk_spec hstream.1 (min_le_left _ _) hchunk
      cases bytes with
      | nil => cases hout
      | cons b bytes =>
        cases hout
        refine ⟨by rw [hnext]; exact h.entries_eq, by rw [hnext]; exact h.nextFile_le, ?_,
          hstream'.within.mono (Nat.le_add_right _ _), ⟨?_, hstream'.within⟩, hstream.2⟩
        · exact (congrArg (· + (b :: bytes).length) h.total_eq).trans htotal.symm
        · exact hstream'.file

theorem inv_nextEvent (h : Inv r log) (hn : r.nextEvent fuel = some (.ok (delivered, r'))) :
    Inv r' (log.event delivered) := by
  have hst := h.standing
  unfold XarSeekReader.nextEvent at hn
  split_ifs at hn
  · cases hn
    refine ⟨h.entries_eq, h.nextFile_le, h.total_eq, h.within, ?_⟩
    cases hp : r.phase with
    | data remaining =>
      rw [hp] at hst
      exact ⟨⟨hst.1.file, hst.1.within⟩, hst.2⟩
    | idle => rw [hp] at hst; exact hst
    | unsupported => rw [hp] at hst; exact hst
    | endEntry => rw [hp] at hst; exact hst
    | done => rw [hp] at hst; exact hst
  · cases hp : r.phase with
    | idle =>
      rw [hp] at hn
      exact inv_nextIdle h hp (Option.some.inj hn)
    | data remaining =>
      rw [hp] at hn
      exact inv_nextData h hp hn
    | unsupported =>
      rw [hp] at hn
      cases hn
    | endEntry =>
      rw [hp] at hn hst
      cases hn
      exact ⟨h.entries_eq, h.nextFile_le, h.total_eq, h.within, hst⟩
    | done =>
      rw [hp] at hn
      cases hn
      exact h

/-! ### Skipping -/

theorem skipLoop_spec : ∀ {rounds : ℕ} {r : XarSeekReader a} {log : Log} {remaining : ℕ}
    {bytes : List Byte}, remaining ≤ rounds → Streaming r log remaining →
      XarSeekReader.skipLoop fuel rounds r remaining = some (.ok (bytes, r')) →
        Streaming r' (took log bytes) 0 ∧ r'.nextFile = r.nextFile ∧
          r'.decodedTotal = r.decodedTotal + bytes.length
  | 0, r, log, remaining, bytes, hle, hs, h => by
    cases h
    rw [Nat.le_zero.mp hle] at hs
    simp only [took, List.append_nil, List.length_nil, Nat.add_zero]
    exact ⟨hs, trivial, trivial⟩
  | rounds + 1, r, log, remaining, bytes, hle, hs, h => by
    unfold XarSeekReader.skipLoop at h
    split_ifs at h with hzero
    · cases h
      rw [hzero] at hs
      simp only [took, List.append_nil, List.length_nil, Nat.add_zero]
      exact ⟨hs, trivial, trivial⟩
    · split at h
      · cases h
      · cases h
      · cases h
      · next bytes1 r1 hne hchunk =>
        obtain ⟨hs1, hle1, hnext, htotal, -⟩ :=
          readPayloadChunk_spec hs (min_le_left _ _) hchunk
        have hpos : 0 < bytes1.length := List.length_pos_of_ne_nil hne
        obtain ⟨result, hrest, hout⟩ := Option.map_eq_some_iff.mp h
        obtain ⟨⟨more, r2⟩, rfl, hout⟩ := map_eq_ok.mp hout
        cases hout
        obtain ⟨hs2, hnext2, htotal2⟩ := skipLoop_spec (by omega) hs1 hrest
        simp only [took, List.append_assoc, Nat.add_assoc] at hs2
        simp only [took, List.length_append]
        exact ⟨hs2, hnext2.trans hnext, by omega⟩

/-- **Skipping the rest of an entry.** -/
theorem inv_skipEntry (h : Inv r log) (hn : r.skipEntry fuel = some (.ok (bytes, r'))) :
    Inv r' (log.skip bytes) := by
  have hst := h.standing
  have hnothing : log.current ++ [] = log.current := List.append_nil _
  unfold XarSeekReader.skipEntry at hn
  cases hp : r.phase with
  | data remaining =>
    rw [hp] at hn hst
    obtain ⟨result, hloop, hout⟩ := Option.bind_eq_some_iff.mp hn
    cases result with
    | error e => cases hout
    | ok result =>
      obtain ⟨bytes1, r1⟩ := result
      obtain ⟨result2, hfin, hout⟩ := Option.map_eq_some_iff.mp hout
      obtain ⟨r2, rfl, hout⟩ := map_eq_ok.mp hout
      cases hout
      obtain ⟨hs1, hnext1, htotal1⟩ := skipLoop_spec le_rfl hst.1 hloop
      obtain ⟨hnext2, htotal2, hdone⟩ := finishPayload_spec hs1 hfin
      have hnext := hnext2.trans hnext1
      refine ⟨by rw [hnext]; exact h.entries_eq, by rw [hnext]; exact h.nextFile_le, ?_, ?_, ?_⟩
      · have := h.total_eq
        simp only [Log.skip]
        omega
      · dsimp only
        rw [htotal2]
        exact hs1.within
      · rintro rec d ⟨i, hi, hrec⟩ hd
        exact hdone rec d ⟨i, hnext2.symm.trans hi, hrec⟩ hd
  | unsupported =>
    rw [hp] at hn hst
    cases hn
    refine ⟨h.entries_eq, h.nextFile_le, h.total_eq, h.within, fun rec d hrec hd => ?_⟩
    rw [Log.skip, hnothing]
    exact hst.1 rec d hrec hd
  | endEntry =>
    rw [hp] at hn hst
    cases hn
    refine ⟨h.entries_eq, h.nextFile_le, h.total_eq, h.within, ?_⟩
    rw [hp]
    intro rec d hrec hd
    rw [Log.skip, hnothing]
    exact hst rec d hrec hd
  | idle =>
    rw [hp] at hn
    cases hn
  | done =>
    rw [hp] at hn
    cases hn

/-! ### Runs -/

/-- **Run lemma.** -/
theorem inv_of_reaches (h : Reaches a r log) : Inv r log := by
  induction h with
  | opened =>
    refine ⟨rfl, Nat.zero_le _, rfl, within_zero _, ?_⟩
    rintro rec d ⟨i, hi, -⟩
    cases hi
  | event _ hn ih => exact inv_nextEvent ih hn
  | skip _ hn ih => exact inv_skipEntry ih hn

/-- An entry that has been left at its end has been decoded. -/
theorem finished_of_ended (h : Inv r log) (he : log.ended = true) : Finished r log := by
  have hst := h.standing
  cases hp : r.phase with
  | idle => rw [hp] at hst; exact hst
  | endEntry => rw [hp] at hst; exact hst
  | done => rw [hp] at hst; exact hst.1
  | data remaining =>
    rw [hp] at hst
    exact absurd (hst.2.symm.trans he) Bool.false_ne_true
  | unsupported =>
    rw [hp] at hst
    exact absurd (hst.2.symm.trans he) Bool.false_ne_true

theorem size_of_metadataOf {m : EntryMetadata} (h : XarSeekReader.metadataOf record = .ok m) :
    m.size = XarSeekReader.sizeOf record := by
  unfold XarSeekReader.metadataOf at h
  cases hl : record.linkTarget with
  | none =>
    simp only [hl, pure_eq_ok, ok_bind, bind_eq_ok, Except.ok.injEq] at h
    obtain ⟨_, -, rfl⟩ := h
    rfl
  | some target =>
    simp only [hl, bind_eq_ok, pure_eq_ok, Except.ok.injEq] at h
    obtain ⟨_, -, _, -, rfl⟩ := h
    rfl

/-- No zlib stream ends before its blob does. -/
def NoSurplus (a : Archive) : Prop :=
  ∀ record ∈ a.files, ∀ d, record.kind = .file → record.data = some d → d.encoding = .zlib →
    ∀ stream content, stream <+: Archive.blob a d → Decodes a.zlib stream content →
      stream = Archive.blob a d

/-- Without surplus the stream is the blob. -/
theorem exact_of_delivers (hs : NoSurplus a) (hmem : record ∈ a.files) (hp : Payloaded record d)
    {content : List Byte} (h : Delivers a d content) : Exact a d content := by
  unfold Delivers at h
  split at h
  · next henc =>
    obtain ⟨stream, hprefix, hdecodes⟩ := h
    rw [hs record hmem d hp.1 hp.2.1 henc stream content hprefix hdecodes] at hdecodes
    simp only [Exact, henc]
    exact hdecodes
  · exact h

/-- **Entries deliver exactly their declared content.** In every run over an archive in which no zlib
stream ends before its blob: the entries are those of the table of contents, in order, whatever is
read or skipped; no more than the limit is decoded; and a file that has been left at its end has
decoded to as many bytes as its metadata says, from a stream that is exactly its blob. -/
theorem payloads_exact (a : Archive) (hs : NoSurplus a) :
    ∀ r log, Reaches a r log →
      log.entries.map Except.ok =
          (a.files.take log.entries.length).map XarSeekReader.metadataOf ∧
        (r.phase = .done → log.entries.length = a.files.length) ∧
        (∀ maximum, a.limits.decodedTotal = some maximum → log.total ≤ maximum) ∧
        (log.ended = true → ∀ record d, Current r record → Payloaded record d →
          log.entries.getLast?.bind (·.size) = some d.length ∧
            log.current.length = d.length.toNat ∧ Exact a d log.current) := by
  intro r log hreach
  have h := inv_of_reaches hreach
  have hlen : log.entries.length = r.nextFile := by
    have := congrArg List.length h.entries_eq
    rwa [List.length_map, List.length_map, List.length_take, min_eq_left h.nextFile_le] at this
  refine ⟨by rw [hlen]; exact h.entries_eq, ?_, ?_, ?_⟩
  · intro hdone
    have hst := h.standing
    rw [hdone] at hst
    exact hlen.trans hst.2
  · intro maximum hm
    rw [h.total_eq]
    exact h.within maximum hm
  · intro hended record d hcur hpay
    obtain ⟨hcount, hdelivers⟩ := finished_of_ended h hended record d hcur hpay
    obtain ⟨i, hi, hrecord⟩ := hcur
    refine ⟨?_, hcount,
      exact_of_delivers hs (List.mem_of_getElem? hrecord) hpay hdelivers⟩
    have hlast : (log.entries[i]?).map Except.ok =
        some (XarSeekReader.metadataOf record) := by
      rw [← List.getElem?_map, h.entries_eq, hi, List.getElem?_map, List.getElem?_take,
        if_pos (Nat.lt_succ_self i), hrecord]
      rfl
    obtain ⟨m, hm, hok⟩ := Option.map_eq_some_iff.mp hlast
    have hsize := size_of_metadataOf hok.symm
    rw [List.getLast?_eq_getElem?, hlen, hi, Nat.add_sub_cancel, hm, Option.bind_some, hsize,
      XarSeekReader.sizeOf, hpay.1]
    simp [hpay.2.1]

/-! ### An empty file -/

/-- The zlib stream of no bytes. -/
def emptyStream : List Byte := [0x78, 0x9c, 3, 0, 0, 0, 0, 1]

/-- A decoder of that stream, given at once. -/
def emptyZlib : Codec where
  State := Unit
  new := ()
  decode _ input _ _ :=
    if input.take 8 = emptyStream then ⟨8, [], .streamEnd, ()⟩ else ⟨0, [], .failed, ()⟩
  consumed_le _ input _ _ := by
    split_ifs with h
    · have hlen := congrArg List.length h
      rw [List.length_take] at hlen
      have hsize : emptyStream.length = 8 := rfl
      have hle : 8 ≤ input.length := by omega
      exact hle
    · exact Nat.zero_le _
  written_le _ input room _ := by
    split_ifs
    · exact Nat.zero_le _
    · exact Nat.zero_le _

theorem calls_emptyZlib {x y : List Byte} {s : emptyZlib.State} (h : Calls emptyZlib x y s) :
    x = [] := by
  induction h with
  | new => rfl
  | step _ input room finish hs ih =>
    by_cases hin : input.take 8 = emptyStream
    · exact absurd (by simp [emptyZlib, hin]) hs
    · simp [emptyZlib, hin, ih]

theorem decodes_emptyZlib {stream content : List Byte} (h : Decodes emptyZlib stream content) :
    stream = emptyStream := by
  obtain ⟨hcalls, input, room, finish, hs⟩ := h
  rw [calls_emptyZlib hcalls, List.nil_append]
  by_cases hin : input.take 8 = emptyStream
  · simp [emptyZlib, hin]
  · exact absurd hs (by simp [emptyZlib, hin])

/-- An empty file in a blob of this size. -/
def emptyFile (storedSize : ℕ) : XarFile :=
  ⟨bstr "e", .file, none, none, none, none, none, some ⟨.zlib, 0, storedSize, 0⟩⟩

/-- A stored file of two bytes after the blob of the empty one. -/
def storedFile : XarFile :=
  ⟨bstr "s", .file, none, none, none, none, none, some ⟨.stored, 8, 2, 2⟩⟩

/-- The empty file, in a blob one byte longer than its stream. -/
def surplusArchive : Archive :=
  ⟨emptyStream ++ [0], 0, [emptyFile 9], .unlimited, emptyZlib, emptyZlib, fun _ => 65535⟩

/-- The empty file in a blob of its own, and a stored file. -/
def exactArchive : Archive :=
  ⟨emptyStream ++ bstr "ab", 0, [emptyFile 8, storedFile], .unlimited, emptyZlib, emptyZlib,
    fun _ => 65535⟩

/-- The reader leaves the empty file at its end without a failure, and its blob is not its stream. -/
theorem surplus_accepted : ∃ r log, Reaches surplusArchive r log ∧ log.ended = true ∧
    Current r (emptyFile 9) ∧ Payloaded (emptyFile 9) ⟨.zlib, 0, 9, 0⟩ ∧
      ¬ Exact surplusArchive ⟨.zlib, 0, 9, 0⟩ log.current := by
  have hopened : Reaches surplusArchive {} {} := .opened
  have hmeta := Reaches.event hopened (show XarSeekReader.nextEvent _ 0 = _ from rfl)
  have hentry := Reaches.event hmeta (show XarSeekReader.nextEvent _ 0 = _ from rfl)
  have hend := Reaches.event hentry (show XarSeekReader.nextEvent _ 1 = _ from rfl)
  refine ⟨_, _, hend, rfl, ⟨0, rfl, rfl⟩, ⟨rfl, rfl, nofun⟩, fun h => ?_⟩
  have hdecodes : Decodes emptyZlib (emptyStream ++ [0]) [] := h
  exact absurd (decodes_emptyZlib hdecodes) (by decide)

/-- Two entries, the first read and the second skipped. -/
theorem payloads_exact_skipped : ∃ r log, Reaches exactArchive r log ∧ log.ended = true ∧
    log.entries.length = 2 ∧ Current r storedFile ∧ log.current = bstr "ab" ∧
      Exact exactArchive ⟨.stored, 8, 2, 2⟩ log.current := by
  have hopened : Reaches exactArchive {} {} := .opened
  have hmeta := Reaches.event hopened (show XarSeekReader.nextEvent _ 0 = _ from rfl)
  have hentry := Reaches.event hmeta (show XarSeekReader.nextEvent _ 0 = _ from rfl)
  have hend := Reaches.event hentry (show XarSeekReader.nextEvent _ 1 = _ from rfl)
  have hentry' := Reaches.event hend (show XarSeekReader.nextEvent _ 0 = _ from rfl)
  have hskip := Reaches.skip hentry' (show XarSeekReader.skipEntry _ 1 = _ from rfl)
  have hsurplus : NoSurplus exactArchive := by
    intro record hmem d hkind hdata henc stream content hprefix hdecodes
    rw [decodes_emptyZlib hdecodes]
    rcases List.mem_cons.mp hmem with rfl | hmem
    · cases hdata
      decide
    · obtain rfl := List.mem_singleton.mp hmem
      cases hdata
      cases henc
  obtain ⟨-, -, -, hexact⟩ := payloads_exact exactArchive hsurplus _ _ hskip
  exact ⟨_, _, hskip, rfl, rfl, ⟨1, rfl, rfl⟩, rfl,
    (hexact rfl storedFile _ ⟨1, rfl, rfl⟩ ⟨rfl, rfl, nofun⟩).2.2⟩

end LibarchiveOxide.Xar.Exactness
