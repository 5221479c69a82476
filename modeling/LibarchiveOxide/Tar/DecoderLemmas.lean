import LibarchiveOxide.Core.Drive
import LibarchiveOxide.Tar.Decoder
import LibarchiveOxide.Tar.SourceLemmas

/-! # What a decoder step can do

The successful steps of the decoder under any budgets: it is already done, it fills a hole out of the
scratch buffer, or it asks its source and charges the answer. -/

namespace LibarchiveOxide.Tar.Decoder

open Core.Failure Core.Budget Core.Metadata Core.Protocol Core.Drive Lib.Result Tar.Header
open Tar.Source

namespace TarDecoder

variable {d d' : TarDecoder} {input : List Byte} {outputLen : ℕ} {eoi : EndOfInput}
  {st : DecodeStep}

/-! ### Accounts -/

/-- The accounts of data bytes have room for `n` more. -/
structure Room (d : TarDecoder) (n : ℕ) : Prop where
  entry_le : d.entryBytes + n ≤ u64Max
  total_le : d.totalBytes + n ≤ u64Max
  entry : Within (d.entryBytes + n) d.limits.entryBytes
  total : Within (d.totalBytes + n) d.limits.decodedTotal

/-- The decoder with `n` more data bytes. -/
def charged (d : TarDecoder) (n : ℕ) : TarDecoder :=
  { d with entryBytes := d.entryBytes + n, totalBytes := d.totalBytes + n }

theorem checkLimit_ok {a : ℕ} {l : Option ℕ} {m : String} (h : checkLimit a l m = .ok ()) :
    Within a l := by
  unfold checkLimit at h
  split_ifs at h with he
  exact within_of_not_exceeds he

theorem accountData_ok {n : ℕ} (h : d.accountData n = .ok d') : d.Room n ∧ d' = d.charged n := by
  obtain ⟨a, ha, h⟩ := bind_eq_ok.mp h
  obtain ⟨b, hb, h⟩ := bind_eq_ok.mp h
  obtain ⟨⟨⟩, h1, h⟩ := bind_eq_ok.mp h
  obtain ⟨⟨⟩, h2, h⟩ := bind_eq_ok.mp h
  obtain ⟨rfl, hale⟩ := checkedAdd_eq_some.mp (okOr_eq_ok.mp ha)
  obtain ⟨rfl, hble⟩ := checkedAdd_eq_some.mp (okOr_eq_ok.mp hb)
  cases h
  exact ⟨⟨hale, hble, checkLimit_ok h1, checkLimit_ok h2⟩, rfl⟩

theorem checkLimit_error {a : ℕ} {l : Option ℕ} {m : String} {e : ArchiveError}
    (h : checkLimit a l m = .error e) : ¬ Within a l ∧ e.kind = .limit := by
  unfold checkLimit at h
  split_ifs at h with he
  cases h
  exact ⟨fun hw => absurd he (by simp [within_iff.mp hw]), rfl⟩

/-- Data bytes are refused only if the accounts have no room for them. -/
theorem accountData_error {n : ℕ} {e : ArchiveError} (h : d.accountData n = .error e) :
    ¬ d.Room n ∧ e.kind = .limit := by
  rcases bind_eq_error.mp h with h | ⟨a, ha, h⟩
  · obtain ⟨hn, rfl⟩ := okOr_eq_error.mp h
    exact ⟨fun hr => by simp [checkedAdd_of_le hr.entry_le] at hn, rfl⟩
  obtain ⟨rfl, -⟩ := checkedAdd_eq_some.mp (okOr_eq_ok.mp ha)
  rcases bind_eq_error.mp h with h | ⟨b, hb, h⟩
  · obtain ⟨hn, rfl⟩ := okOr_eq_error.mp h
    exact ⟨fun hr => by simp [checkedAdd_of_le hr.total_le] at hn, rfl⟩
  obtain ⟨rfl, -⟩ := checkedAdd_eq_some.mp (okOr_eq_ok.mp hb)
  rcases bind_eq_error.mp h with h | ⟨⟨⟩, -, h⟩
  · obtain ⟨hw, hk⟩ := checkLimit_error h
    exact ⟨fun hr => hw hr.entry, hk⟩
  rcases bind_eq_error.mp h with h | ⟨⟨⟩, -, h⟩
  · obtain ⟨hw, hk⟩ := checkLimit_error h
    exact ⟨fun hr => hw hr.total, hk⟩
  cases h

/-- What a new entry has passed, and what it resets. -/
theorem beginEntry_ok {m : EntryMetadata} {sparse : List SparseExtent} {isSparse : Bool}
    (h : d.beginEntry m sparse isSparse = .ok d') :
    d.entries + 1 ≤ u64Max ∧ Within (d.entries + 1) d.limits.entries ∧
      Within m.path.raw.length d.limits.pathBytes ∧ ∃ metadataBytes, d' = { d with
        entries := d.entries + 1, metadataBytes, entryBytes := 0, sparseActive := isSparse, sparse
        sparseIndex := 0, logicalPosition := 0
        logicalSize := (m.size.map UInt64.toNat).getD 0 } := by
  obtain ⟨entries, he, h⟩ := bind_eq_ok.mp h
  obtain ⟨rfl, hmax⟩ := checkedAdd_eq_some.mp (okOr_eq_ok.mp he)
  obtain ⟨⟨⟩, hle, h⟩ := bind_eq_ok.mp h
  obtain ⟨hpath, h⟩ := guard_eq_ok.mp h
  obtain ⟨_, -, h⟩ := bind_eq_ok.mp h
  obtain ⟨_, -, h⟩ := bind_eq_ok.mp h
  obtain ⟨_, -, h⟩ := bind_eq_ok.mp h
  obtain ⟨-, h⟩ := guard_eq_ok.mp h
  cases h
  exact ⟨hmax, checkLimit_ok hle, within_of_not_exceeds hpath, _, rfl⟩

/-- A data window moves the position of a sparse entry. -/
theorem advanceSparse_ok {n : ℕ} (h : d.advanceSparse n = .ok d') :
    d' = { d with
      logicalPosition := if d.sparseActive then d.logicalPosition + n else d.logicalPosition } := by
  unfold advanceSparse at h
  split_ifs at h with ha
  · cases h
    rw [if_neg (by simpa using ha)]
  · have ha' : d.sparseActive = true := by simpa using ha
    obtain ⟨_, -, h⟩ := bind_eq_ok.mp h
    obtain ⟨next, hn, h⟩ := bind_eq_ok.mp h
    obtain ⟨-, h⟩ := guard_eq_ok.mp h
    obtain ⟨rfl, -⟩ := checkedAdd_eq_some.mp (okOr_eq_ok.mp hn)
    cases h
    rw [if_pos ha']

/-! ### Holes -/

/-- Where the next stored byte of the open sparse entry is. -/
def nextStored (d : TarDecoder) : ℕ :=
  (d.sparse[skipFinished d.sparse d.sparseIndex d.logicalPosition]?.map (·.offset)).getD
    d.logicalSize

/-- A step inside a hole. -/
theorem sparseHole_some (h : d.sparseHole outputLen = .ok (some st, d')) :
    d.sparseActive = true ∧ d.logicalPosition < d.nextStored ∧ ∃ index,
      (outputLen = 0 ∧ st = ⟨0, 0, .needOutput⟩ ∧ d' = { d with sparseIndex := index }) ∨
      ∃ n, 0 < n ∧ n ≤ outputLen ∧ d.logicalPosition + n ≤ d.nextStored ∧ d.Room n ∧
        st = ⟨0, n, .data (List.replicate n 0)⟩ ∧
        d' = ({ d with
          sparseIndex := index
          logicalPosition := (d.logicalPosition + n) % 2 ^ 64 } : TarDecoder).charged n := by
  unfold sparseHole at h
  dsimp only at h
  split_ifs at h with ha hpos h0
  · cases h
  · cases h
    exact ⟨by simpa using ha, hpos, _, .inl ⟨h0, rfl, rfl⟩⟩
  · obtain ⟨d1, hacc, h⟩ := bind_eq_ok.mp h
    cases h
    obtain ⟨hroom, rfl⟩ := accountData_ok hacc
    refine ⟨by simpa using ha, hpos, _, .inr ⟨_, ?_, ?_, ?_, ⟨hroom.entry_le, hroom.total_le,
      hroom.entry, hroom.total⟩, rfl, rfl⟩⟩
    · omega
    · omega
    · unfold nextStored; omega
  · split at h <;> cases h

/-- Outside holes only the place and the window limit are prepared. -/
theorem sparseHole_none (h : d.sparseHole outputLen = .ok (none, d')) :
    ∃ index limit, d' = { d with
      sparseIndex := index, source := { d.source with payloadChunkLimit := limit } } := by
  unfold sparseHole at h
  dsimp only at h
  split_ifs at h with ha hpos h0
  · cases h; exact ⟨_, _, rfl⟩
  · cases h
  · obtain ⟨_, _, h⟩ := bind_eq_ok.mp h
    cases h
  · split at h <;> (cases h; exact ⟨_, _, rfl⟩)

/-! ### Steps -/

theorem feedInput_ok {k : ℕ} {d1 : TarDecoder} (h : d.feedInput input = .ok (k, d1)) :
    k ≤ input.length ∧ (d.needsInput = true → input ≠ [] → 0 < k) ∧
      d1 = { d with
        needsInput := d.needsInput && k == 0
        source := { d.source with buf := d.source.buf ++ input.take k } } := by
  unfold feedInput at h
  dsimp only at h
  split_ifs at h with hf h0
  · rw [Bool.and_eq_true] at hf
    cases h
    refine ⟨?_, fun _ _ => Nat.pos_of_ne_zero h0, ?_⟩
    · cases d.limits.inFlightBytes with
      | none => exact le_rfl
      | some l => exact min_le_right _ _
    · simp only [hf.1, TarSource.feed]
      congr 1
      simpa using h0
  · cases h
    refine ⟨Nat.zero_le _, fun hn hi => ?_, ?_⟩
    · rw [hn] at hf
      simp [hi] at hf
    · simp

/-- The decoder as it asks its source: `k` bytes of the input were fed and the end was noted. -/
structure Handed (d : TarDecoder) (input : List Byte) (eoi : EndOfInput) (k : ℕ) (d1 : TarDecoder) :
    Prop where
  consumed_le : k ≤ input.length
  fed : d.needsInput = true → input ≠ [] → 0 < k
  eq : d1 = ({ d with
    needsInput := d.needsInput && k == 0
    source := d.source.feed (input.take k) } : TarDecoder).noteEnd eoi k input.length

theorem handed_of_feed {k : ℕ} {d1 : TarDecoder} (h : d.feedInput input = .ok (k, d1)) :
    Handed d input eoi k (d1.noteEnd eoi k input.length) := by
  obtain ⟨hk, hpos, rfl⟩ := feedInput_ok h
  exact ⟨hk, hpos, rfl⟩

/-- **A successful step**: the decoder is done, or fills a hole, or asks its source. -/
theorem step_ok (h : d.step input outputLen eoi = .ok (st, d')) :
    (d.done = true ∧ input = [] ∧ st = ⟨0, 0, .done⟩ ∧ d' = d) ∨
    (d.done = false ∧ d.sparseHole outputLen = .ok (some st, d')) ∨
    (d.done = false ∧ ∃ d0 k d1 ev source event, d.sparseHole outputLen = .ok (none, d0) ∧
      Handed d0 input eoi k d1 ∧ d1.source.pull = .ok (ev, source) ∧
      ({ d1 with source } : TarDecoder).handle ev = .ok (event, d') ∧ st = ⟨k, 0, event⟩) := by
  unfold step at h
  split_ifs at h with hd hi hl
  · cases h; exact .inl ⟨hd, by simpa using hi, rfl, rfl⟩
  · have hd' : d.done = false := by simpa using hd
    obtain ⟨⟨hole, d0⟩, hh, h⟩ := bind_eq_ok.mp h
    cases hole with
    | some s => cases h; exact .inr (.inl ⟨hd', hh⟩)
    | none =>
      obtain ⟨⟨k, d1⟩, hf, h⟩ := bind_eq_ok.mp h
      obtain ⟨⟨ev, source⟩, hp, h⟩ := bind_eq_ok.mp h
      obtain ⟨⟨event, d2⟩, hh2, h⟩ := bind_eq_ok.mp h
      cases h
      exact .inr (.inr ⟨hd', d0, k, _, ev, source, event, hh, handed_of_feed hf,
        mapError_eq_ok.mp hp, hh2, rfl⟩)

/-- The decoder as it asks its source: `k` bytes of the input were fed. -/
structure Asks (d : TarDecoder) (input : List Byte) (eoi : EndOfInput) (k : ℕ) (d1 : TarDecoder) :
    Prop where
  consumed_le : k ≤ input.length
  fed : d.needsInput = true → input ≠ [] → 0 < k
  frame : ∃ index limit finished inputFinished needsInput, d1 = { d with
    sparseIndex := index, inputFinished, needsInput
    source := { d.source with
      payloadChunkLimit := limit, buf := d.source.buf ++ input.take k, finished } }
  needsInput : d1.needsInput = (d.needsInput && k == 0)
  ended : eoi = .end → k = input.length → d1.inputFinished = true

/-- The ways a step can succeed. -/
inductive Stepped (d : TarDecoder) (input : List Byte) (outputLen : ℕ) (eoi : EndOfInput) :
    DecodeStep → TarDecoder → Prop
  | finished (hd : d.done = true) (hi : input = []) :
      Stepped d input outputLen eoi ⟨0, 0, .done⟩ d
  | hole (hd : d.done = false) {st : DecodeStep} {d' : TarDecoder}
      (hh : d.sparseHole outputLen = .ok (some st, d')) : Stepped d input outputLen eoi st d'
  | asked (hd : d.done = false) {k : ℕ} {d1 d' : TarDecoder} {ev : TarSourceEvent}
      {source : TarSource} {event : DecodeEvent} (ha : Asks d input eoi k d1)
      (hp : d1.source.pull = .ok (ev, source))
      (hh : ({ d1 with source } : TarDecoder).handle ev = .ok (event, d')) :
      Stepped d input outputLen eoi ⟨k, 0, event⟩ d'

theorem Handed.asks {k : ℕ} {d0 d1 : TarDecoder} (h : Handed d0 input eoi k d1)
    (h0 : d.sparseHole outputLen = .ok (none, d0)) : Asks d input eoi k d1 := by
  obtain ⟨index, limit, rfl⟩ := sparseHole_none h0
  obtain ⟨hk, hfed, rfl⟩ := h
  unfold noteEnd
  split_ifs with hc
  · exact ⟨hk, hfed, ⟨index, limit, _, _, _, rfl⟩, rfl, fun _ _ => rfl⟩
  · refine ⟨hk, hfed, ⟨index, limit, _, _, _, rfl⟩, rfl, fun he hke => ?_⟩
    by_contra hf
    exact hc ⟨he, hke, by simpa using hf⟩

/-- **Every successful step is one of the listed ways.** -/
theorem stepped_of_step (h : d.step input outputLen eoi = .ok (st, d')) :
    Stepped d input outputLen eoi st d' := by
  rcases step_ok h with ⟨hd, hi, rfl, rfl⟩ | ⟨hd, hh⟩ |
    ⟨hd, d0, k, d1, ev, source, event, h0, ha, hp, hh, rfl⟩
  · exact .finished hd hi
  · exact .hole hd hh
  · exact .asked hd (ha.asks h0) hp hh

theorem step_consumed_le (h : d.step input outputLen eoi = .ok (st, d')) :
    st.consumed ≤ input.length := by
  cases stepped_of_step h with
  | finished => exact Nat.zero_le _
  | hole _ hh =>
    obtain ⟨-, -, _, ⟨-, rfl, -⟩ | ⟨_, -, -, -, -, rfl, -⟩⟩ := sparseHole_some hh
    · exact Nat.zero_le _
    · exact Nat.zero_le _
  | asked _ ha => exact ha.consumed_le

end TarDecoder

end LibarchiveOxide.Tar.Decoder
