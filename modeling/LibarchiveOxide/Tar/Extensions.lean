import LibarchiveOxide.Tar.ChunkInvariance
import LibarchiveOxide.Tar.Expansion

/-! # Old-GNU sparse entries with extension blocks

The header's own descriptors are validated alone against its size field, so an extension block with
a descriptor in it fails the entry. If all extension blocks are empty, the header block is looked for
again among the bytes that the buffer still holds; what is found need not be the header
(`foundBlock`). `call_of_chain` says what a call does once its polls are at an extension block. -/

namespace LibarchiveOxide.Tar.Extensions

open Core.Failure Core.Budget Core.Metadata Core.Protocol Core.Drive Core.Grammar Lib.Machine
open Lib.Result Lib.Slice Tar.Header Tar.Pax Tar.Source Tar.Source.TarSource Tar.Stream Tar.Plans
open Tar.Simulation Tar.Refinement Tar.Position Tar.Decoder Tar.Decoder.TarDecoder Tar.Expansion
open Tar.ChunkInvariance

/-! ### The block that is gone back to -/

/-- The block that is taken for the header of the staged entry, when `held` are the bytes in the
buffer up to the end of the extension blocks. -/
def foundBlock (held : List Byte) : List Byte :=
  (held.drop (headerStart { buf := held, cursor := held.length })).take BLOCK

theorem take_drop_take {l : List Byte} {i m : ℕ} (h : i + BLOCK ≤ m) :
    ((l.take m).drop i).take BLOCK = (l.drop i).take BLOCK := by
  rw [List.drop_take, List.take_take, min_eq_left (by omega)]

theorem rpositionHeader_le {buf : List Byte} : ∀ {n i : ℕ}, rpositionHeader buf n = some i → i ≤ n
  | 0, i, h => by
    unfold rpositionHeader at h
    split_ifs at h
    cases h
    exact le_rfl
  | n + 1, i, h => by
    unfold rpositionHeader at h
    split_ifs at h
    · cases h; exact le_rfl
    · exact (rpositionHeader_le h).trans (Nat.le_succ n)

/-- Only the bytes before the cursor are searched. -/
theorem rpositionHeader_take (buf : List Byte) {m : ℕ} : ∀ {n : ℕ}, n + BLOCK ≤ m →
    rpositionHeader (buf.take m) n = rpositionHeader buf n
  | 0, h => by
    have h0 := take_drop_take (l := buf) (i := 0) h
    simp only [List.drop_zero] at h0
    simp only [rpositionHeader, h0]
  | n + 1, h => by
    have ih := rpositionHeader_take buf (m := m) (n := n) (by omega)
    simp only [rpositionHeader, take_drop_take h, ih]

/-- The re-read block is the one found among the bytes before the cursor. -/
theorem foundBlock_of_source {s : TarSource} (hb : BLOCK ≤ s.cursor)
    (hin : s.cursor ≤ s.buf.length) : s.headerStart + BLOCK ≤ s.cursor ∧
      (s.buf.drop s.headerStart).take BLOCK = foundBlock (s.buf.take s.cursor) := by
  have hlen : (s.buf.take s.cursor).length = s.cursor := by rw [List.length_take]; omega
  have hsub : s.cursor - BLOCK + BLOCK ≤ s.cursor := by omega
  have hstart : headerStart { buf := s.buf.take s.cursor, cursor := (s.buf.take s.cursor).length } =
      s.headerStart := by
    simp only [headerStart, hlen, take_drop_take hsub, rpositionHeader_take s.buf hsub, le_refl, hin, hb,
      true_and]
  have hle : s.headerStart + BLOCK ≤ s.cursor := by
    unfold headerStart
    split_ifs
    · exact hsub
    · cases hr : rpositionHeader s.buf (s.cursor - BLOCK) with
      | none => simpa using hb
      | some i =>
        have := rpositionHeader_le hr
        simp only [Option.getD_some]
        omega
    · simpa using hb
  refine ⟨hle, ?_⟩
  rw [foundBlock, hstart, take_drop_take hle]

/-! ### The staged header -/

/-- **Own descriptors alone** have the stored size only if there are no others. -/
theorem validateSparseExtents_own {n size : ℕ} {own more : List SparseExtent}
    (h : validateSparseExtents (own ++ more) n size = .ok ()) :
    validateSparseExtents own n size = .ok () ↔ more = [] := by
  constructor
  · intro h1
    obtain ⟨hs, hc⟩ := validateSparseExtents_ok h
    obtain ⟨hs1, hc1⟩ := validateSparseExtents_ok h1
    rw [count_planFrom hs, List.map_append, List.sum_append] at hc
    rw [count_planFrom hs1] at hc1
    cases more with
    | nil => rfl
    | cons e more =>
      have := e.length_pos
      rw [List.map_cons, List.sum_cons] at hc
      omega
  · rintro rfl
    rwa [List.append_nil] at h

/-- The blocks of an old-GNU sparse entry: the header with its extension blocks, and what they say
under the overrides in force. Together the descriptors are in order, inside the real size, and as
long as the stored size. -/
structure OldGnu (pending global : Overrides) (hdr : List Byte) (exts : List (List Byte)) (size : ℕ)
    (real : UInt64) (ph : ParsedHeader) (own more : List SparseExtent) : Prop where
  length : hdr.length = BLOCK
  typeflag : byteAt hdr oTypeflag = chr 'S'
  checksum : verifyChecksum hdr = .ok ()
  extended : byteAt hdr gnuSparseExtended ≠ 0
  raw : ∃ raw, parseNumeric (field hdr fSize) = .ok raw
  size_eq : entrySize hdr pending global = .ok size
  real_eq : parseNumeric (field hdr gnuSparseRealsize) = .ok real.toNat
  parsed : parseSourceHeader hdr pending global = .ok ph
  noMap : paxSparseExtents global pending = .ok []
  own_eq : parseGnuSparseDescriptors hdr gnuSparseStart gnuSparseCount = .ok own
  blocks : ∀ b ∈ exts, b.length = BLOCK
  more_eq : ∃ parts, exts.mapM (fun b => parseGnuSparseDescriptors b 0 gnuSparseExtCount) =
    .ok parts ∧ more = parts.flatten
  chain : ∃ init last, exts = init ++ [last] ∧ (∀ b ∈ init, byteAt b 504 ≠ 0) ∧ byteAt last 504 = 0
  valid : validateSparseExtents (own ++ more) real.toNat size = .ok ()

/-- What the header stages. -/
def stageOf (hdr : List Byte) (pending global : Overrides) (real : UInt64)
    (own : List SparseExtent) : Stage where
  pending := pending
  logicalSize := real
  sparse := own
  isSparse := true
  uname := (pending.uname.or global.uname).getD (cstr (field hdr fUname))
  gname := (pending.gname.or global.gname).getD (cstr (field hdr fGname))

section
variable {pending global : Overrides} {hdr : List Byte} {exts : List (List Byte)} {size : ℕ}
  {real : UInt64} {ph : ParsedHeader} {own more : List SparseExtent}

theorem OldGnu.isExtended (h : OldGnu pending global hdr exts size real ph own more) :
    isExtended hdr = true := by
  simp [Source.isExtended, h.typeflag, h.extended]

theorem OldGnu.nonzero (h : OldGnu pending global hdr exts size real ph own more) :
    ¬ hdr.all (· == 0) := by
  intro hz
  have hb : byteAt hdr oTypeflag = 0 := by
    rw [byteAt, List.getD_eq_getElem?_getD]
    cases hx : hdr[oTypeflag]? with
    | none => rfl
    | some b => simpa using List.all_eq_true.mp hz b (List.mem_of_getElem? hx)
  rw [h.typeflag] at hb
  revert hb
  decide

/-- The header block as it is read. -/
theorem OldGnu.readHeader_eq (h : OldGnu pending global hdr exts size real ph own more) :
    readHeader hdr pending global = do
      let pad ← padding size
      validateSparseExtents own real.toNat size
      return .entry size pad (stageOf hdr pending global real own) := by
  obtain ⟨raw, hraw⟩ := h.raw
  have hreal : UInt64.ofNat real.toNat = real := UInt64.ofNat_toNat
  have hdev : stageDevice hdr = .ok none := by
    rw [stageDevice, if_neg (by rw [h.typeflag]; decide)]
    rfl
  have hsparse : stageSparse hdr pending global size = .ok (own, real) := by
    simp only [stageSparse, h.noMap, ok_bind, h.typeflag, if_true, h.own_eq, h.real_eq, hreal,
      List.nil_append]
    rfl
  have his : stageIsSparse hdr pending global = true := by simp [stageIsSparse, h.typeflag]
  have hstage : stageHeaderMetadata hdr pending global size = do
      validateSparseExtents own real.toNat size
      return stageOf hdr pending global real own := by
    simp only [stageHeaderMetadata, hdev, hsparse, ok_bind, his, if_true]
    rfl
  have hkind : metaKindOf (byteAt hdr oTypeflag) = none := by rw [h.typeflag]; decide
  simp only [readHeader, h.checksum, ok_bind, hraw, hkind, stageEntry, h.size_eq, hstage]
  cases padding size with
  | error e => rfl
  | ok pad =>
    simp only [ok_bind]
    cases validateSparseExtents own real.toNat size with
    | error e => rfl
    | ok u => rfl

end

/-! ### Extension blocks -/

/-- The source stands before extension block `j`; the first one is at `q` in the input. -/
structure Extending (B : List Byte) (stage : Stage) (global : Overrides) (size pad q j : ℕ)
    (s : TarSource) (k : ℕ) : Prop where
  buffers : Buffers B s k
  state : s.state = .sparseExtensions size pad
  stage_eq : s.stage = stage
  global_eq : s.global = global
  unchanged : s.globalChanged = false
  place : k - s.available = q + BLOCK * j
  finished : s.finished = true → k = B.length

/-- Empty extension blocks at `q`, the last of them without a successor. -/
structure Empties (B : List Byte) (exts : List (List Byte)) (q : ℕ) : Prop where
  held : q + BLOCK * exts.length ≤ B.length
  at_ : ∀ j b, exts[j]? = some b → (B.drop (q + BLOCK * j)).take BLOCK = b
  empty : ∀ b ∈ exts, parseGnuSparseDescriptors b 0 gnuSparseExtCount = .ok []
  last : ∀ j b, exts[j]? = some b → (byteAt b 504 ≠ 0 ↔ j + 1 < exts.length)

/-- The source past a block. -/
def past (s : TarSource) : TarSource := { s with cursor := s.cursor + BLOCK }

/-- The source past the last extension block. -/
def opened (s : TarSource) (size pad : ℕ) : TarSource := { past s with state := .payload size pad }

section
variable {B : List Byte} {stage : Stage} {global : Overrides} {size pad q j k : ℕ}
  {s s' : TarSource} {exts : List (List Byte)}

theorem Extending.past (h : Extending B stage global size pad q j s k) (ha : BLOCK ≤ s.available) :
    Extending B stage global size pad q (j + 1) (past s) k := by
  have hin := h.buffers.inBuf
  have hle := h.buffers.available_le
  have hp := h.place
  refine ⟨h.buffers.of_moved rfl ?_, h.state, h.stage_eq, h.global_eq, h.unchanged, ?_, h.finished⟩
  · simp only [Extensions.past, available] at *
    omega
  · rw [Nat.mul_add]
    simp only [Extensions.past, available] at *
    omega

/-- A poll reads one block. -/
theorem Extending.poll_eq (h : Extending B stage global size pad q j s k) (hx : Empties B exts q)
    (hj : j < exts.length)
    (hv : validateSparseExtents stage.sparse stage.logicalSize.toNat size = .ok ()) :
    s.poll = if s.available < BLOCK then s.starved "tar: truncated GNU sparse extension header"
      else if j + 1 < exts.length then .ok (.again, Extensions.past s)
      else .ok (.entry, opened s size pad) := by
  have hget : exts[j]? = some exts[j] := List.getElem?_eq_getElem hj
  simp only [poll, h.state, pollSparseExtension]
  by_cases ha : s.available < BLOCK
  · rw [if_pos ha, if_pos ha]
  rw [if_neg ha, if_neg ha]
  have hblock : s.block = exts[j] := by
    rw [← hx.at_ j _ hget, ← h.place, ← h.buffers.left_eq, List.take_append_of_le_length]
    · rfl
    · rw [length_rest]
      exact not_lt.mp ha
  have hbyte := hx.last j _ hget
  rw [← hblock] at hbyte
  simp only [hblock ▸ hx.empty _ (List.getElem_mem hj), ok_bind, List.append_nil]
  by_cases hnext : j + 1 < exts.length
  · rw [if_pos (hbyte.mpr hnext), if_pos hnext, Extensions.past, ← h.state]
    rfl
  · rw [if_neg (fun hb => hnext (hbyte.mp hb)), if_neg hnext, h.stage_eq, hv]
    simp only [ok_bind]
    rw [opened, Extensions.past, ← h.stage_eq]
    rfl

theorem Extending.silent (h : Extending B stage global size pad q j s k) (hx : Empties B exts q)
    (hj : j < exts.length)
    (hv : validateSparseExtents stage.sparse stage.logicalSize.toNat size = .ok ())
    (hs : Silent s s') : ∃ j', j ≤ j' ∧ j' < exts.length ∧
      Extending B stage global size pad q j' s' k ∧ s'.buf = s.buf := by
  induction hs generalizing j with
  | refl => exact ⟨j, le_rfl, hj, h, rfl⟩
  | head hg hp _ ih =>
    rw [h.poll_eq hx hj hv] at hp
    split_ifs at hp with ha hnext
    · exact absurd (starved_ok hp).1 (by simp)
    · cases hp
      obtain ⟨j', h1, h2, h3, h4⟩ := ih (h.past (not_lt.mp ha)) hnext
      exact ⟨j', by omega, h2, h3, h4⟩
    · cases hp

/-- The staged metadata with the fields of the block that is found. -/
def shown (stage : Stage) (global : Overrides) (held : List Byte) : Except Error EntryMetadata := do
  return richMetadata stage global (← parseSourceHeader (foundBlock held) stage.pending global)

theorem entryEvent_shown_of_payload (hs : s.state = .payload size pad) (hb : BLOCK ≤ s.cursor)
    (hin : s.cursor ≤ s.buf.length) : s.entryEvent =
      (shown s.stage s.global (s.buf.take s.cursor)).map fun m =>
        .entry m s.stage.sparse s.stage.isSparse := by
  obtain ⟨hstart, hfound⟩ := foundBlock_of_source hb hin
  simp only [entryEvent, hs]
  rw [if_neg (by omega), hfound, shown]
  cases parseSourceHeader (foundBlock (s.buf.take s.cursor)) s.stage.pending s.global with
  | error e => rfl
  | ok ph => rfl

/-- **The answer before an extension block**: more input is asked for, or the last block is there and
the header is gone back to. -/
theorem Extending.answer (h : Extending B stage global size pad q j s k) (hx : Empties B exts q)
    (hj : j < exts.length)
    (hv : validateSparseExtents stage.sparse stage.logicalSize.toNat size = .ok ())
    (ha : s.Answers) :
    (s.available < BLOCK ∧ s.answer = .ok (.needInput, s)) ∨
      (BLOCK ≤ s.available ∧ j + 1 = exts.length ∧ s.answer =
        (shown stage global (window B (k - s.buf.length) (q + BLOCK * exts.length))).map fun m =>
          (.entry m stage.sparse stage.isSparse, opened s size pad)) := by
  have hpoll := h.poll_eq hx hj hv
  have hle := h.buffers.available_le
  have hp := h.place
  have hheld := hx.held
  by_cases hav : s.available < BLOCK
  · left
    refine ⟨hav, ?_⟩
    have hnf : s.finished = false := by
      by_contra hf
      have hk := h.finished (by simpa using hf)
      have hlast : BLOCK * (j + 1) ≤ BLOCK * exts.length := Nat.mul_le_mul_left _ hj
      rw [Nat.mul_add] at hlast
      omega
    rw [if_pos hav, starved, if_neg (by simp [hnf])] at hpoll
    rw [TarSource.answer, if_neg (by simp [h.unchanged]), hpoll]
    rfl
  · right
    rw [if_neg hav] at hpoll
    split_ifs at hpoll with hnext
    · exact absurd hpoll (ha h.unchanged _)
    · have hin := h.buffers.inBuf
      have hjl : j + 1 = exts.length := by omega
      refine ⟨not_lt.mp hav, hjl, ?_⟩
      have hcur : (opened s size pad).cursor ≤ (opened s size pad).buf.length := by
        simp only [opened, Extensions.past, available] at *
        omega
      have hheld : (opened s size pad).buf.take (opened s size pad).cursor =
          window B (k - s.buf.length) (q + BLOCK * exts.length) := by
        have hl := h.buffers.length_le
        change s.buf.take (s.cursor + BLOCK) = _
        conv_lhs => rw [h.buffers.buf_eq]
        rw [window, window, List.take_take]
        congr 1
        rw [← hjl, Nat.mul_add]
        simp only [available, BLOCK] at *
        omega
      have hevent : (opened s size pad).entryEvent =
          (shown stage global (window B (k - s.buf.length) (q + BLOCK * exts.length))).map
            fun m => .entry m stage.sparse stage.isSparse := by
        have he := entryEvent_shown_of_payload (s := opened s size pad) rfl (Nat.le_add_left _ _) hcur
        have hstage : (opened s size pad).stage = stage := h.stage_eq
        have hglobal : (opened s size pad).global = global := h.global_eq
        rw [he, hheld, hstage, hglobal]
      rw [TarSource.answer, if_neg (by simp [h.unchanged]), hpoll]
      simp only [ok_bind, hevent]
      cases shown stage global (window B (k - s.buf.length) (q + BLOCK * exts.length)) with
      | error e => rfl
      | ok m => rfl

end

/-! ### The decoder before extension blocks -/

/-- The decoder is between entries, with the accounts of the configuration and no budgets. -/
structure Between (cfg : Config) (d : TarDecoder) : Prop where
  limits : d.limits = .unlimited
  notDone : d.done = false
  dense : d.sparseActive = false
  entries : d.entries = cfg.entries
  totalBytes : d.totalBytes = cfg.totalBytes
  metadataBytes : d.metadataBytes = cfg.metadataBytes

/-- The decoder waits for extension block `j`. -/
structure Waiting (B : List Byte) (cfg : Config) (stage : Stage) (size pad q j : ℕ) (d : TarDecoder)
    (k : ℕ) : Prop where
  between : Between cfg d
  source : Extending B stage cfg.global size pad q j d.source k

/-- What the answer at the end of the extension blocks is: the entry with the fields of the block
that was found, or a failure. -/
structure Reveals (cfg : Config) (stage : Stage) (size pad : ℕ) (held : List Byte) (k place : ℕ)
    (res : Except ArchiveError (DecodeEvent × TarDecoder)) : Prop where
  entry : ∀ m cfg', shown stage cfg.global held = .ok m → charge cfg m = .ok cfg' →
    ∃ d', res = .ok (.entry m, d') ∧ d'.source.state = .payload size pad ∧
      d'.sparseActive = stage.isSparse ∧ k - d'.source.available = place
  refused : (∀ m cfg', shown stage cfg.global held = .ok m → charge cfg m ≠ .ok cfg') →
    ∃ e, res = .error e

section
variable {B : List Byte} {cfg : Config} {stage : Stage} {size pad q j k n outputLen : ℕ}
  {eoi : EndOfInput} {input : List Byte} {d d1 d' : TarDecoder} {s1 : TarSource}
  {exts : List (List Byte)}

/-- **The answer once the chain of polls is at an extension block.** -/
theorem Between.report (hb : Between cfg d) (hp : Placed B d k) (hx : Empties B exts q)
    (hv : validateSparseExtents stage.sparse stage.logicalSize.toNat size = .ok ())
    (hsil : Silent d.source.compact s1) (hj : j < exts.length)
    (h : Extending B stage cfg.global size pad q j s1 k) :
    (k < q + BLOCK * exts.length ∧ ∃ d' j', j' < exts.length ∧
      Refinement.report d d.source.pull = .ok (.needInput, d') ∧
      Waiting B cfg stage size pad q j' d' k) ∨
    (q + BLOCK * exts.length ≤ k ∧ Reveals cfg stage size pad
      (window B (k - d.source.available) (q + BLOCK * exts.length)) k (q + BLOCK * exts.length)
      (Refinement.report d d.source.pull)) := by
  obtain ⟨s2, hs2, hans, hpull⟩ := d.source.pull_eq
  obtain ⟨j', -, hj', h2, hbuf⟩ := h.silent hx hj hv (hsil.of_answers hs2 hans)
  have hbuf2 : s2.buf.length = d.source.available := by
    have hb1 : s1.buf = d.source.rest := hsil.invariant (P := fun s => s.buf = d.source.rest ∧
      s.cursor ≤ s.buf.length) ⟨rfl, Nat.zero_le _⟩ (fun _ hp h => by
        obtain ⟨hb, -, hc, -⟩ := cursor_of_polled hp h.2
        exact ⟨hb.trans h.1, hb ▸ hc⟩) |>.1
    rw [hbuf, hb1, length_rest]
  have hplace := h2.place
  have hle := h2.buffers.available_le
  have hheld := hx.held
  have hjm : BLOCK * (j' + 1) ≤ BLOCK * exts.length := Nat.mul_le_mul_left _ hj'
  rw [Nat.mul_add] at hjm
  rw [hpull]
  rcases h2.answer hx hj' hv hans with ⟨hav, he⟩ | ⟨hav, hjl, he⟩
  · have hk : k < q + BLOCK * exts.length := by omega
    refine .inl ⟨hk, { d with source := s2, needsInput := true }, j', hj', ?_, ?_⟩
    · have hnf : d.inputFinished = false := by
        by_contra hf
        have := hp.finished (hp.inputFinished ▸ by simpa using hf)
        omega
      rw [he]
      simp only [Refinement.report, liftError, mapError_ok, ok_bind, handle]
      rw [if_neg (by simp [hnf])]
    · exact ⟨⟨hb.limits, hb.notDone, hb.dense, hb.entries, hb.totalBytes, hb.metadataBytes⟩, h2⟩
  · have hk : q + BLOCK * exts.length ≤ k := by rw [← hjl, Nat.mul_add]; omega
    rw [hbuf2] at he
    refine .inr ⟨hk, ?_, ?_⟩
    · intro m cfg' hm hc
      have hbegin := beginEntry_eq (d := { d with source := opened s2 size pad }) (c := cfg)
        hb.limits hb.entries hb.metadataBytes m stage.sparse stage.isSparse
      rw [hc] at hbegin
      refine ⟨{ d with
        source := opened s2 size pad, entries := cfg'.entries, metadataBytes := cfg'.metadataBytes
        entryBytes := 0, sparseActive := stage.isSparse, sparse := stage.sparse, sparseIndex := 0
        logicalPosition := 0, logicalSize := (m.size.map UInt64.toNat).getD 0 }, ?_, rfl, rfl, ?_⟩
      · rw [he, hm]
        simp only [Refinement.report, liftError, Except.map, mapError_ok, ok_bind, handle, hbegin]
        rfl
      · have hin := h2.buffers.inBuf
        rw [← hjl, Nat.mul_add]
        simp only [opened, past, available] at *
        omega
    · intro hno
      cases hm : shown stage cfg.global
          (window B (k - d.source.available) (q + BLOCK * exts.length)) with
      | error e =>
        refine ⟨.ofError e, ?_⟩
        rw [he, hm]
        rfl
      | ok m =>
        have hbegin := beginEntry_eq (d := { d with source := opened s2 size pad }) (c := cfg)
          hb.limits hb.entries hb.metadataBytes m stage.sparse stage.isSparse
        cases hc : charge cfg m with
        | ok cfg' => exact absurd hc (hno m cfg' hm)
        | error e =>
          rw [hc] at hbegin
          refine ⟨e, ?_⟩
          rw [he, hm]
          simp only [Refinement.report, liftError, Except.map, mapError_ok, ok_bind, handle, hbegin]
          rfl

/-- The bytes a decoder without budgets takes from its input. -/
def taken (d : TarDecoder) (input : List Byte) : ℕ := if d.needsInput then input.length else 0

theorem Between.sparseHole (hb : Between cfg d) (outputLen : ℕ) :
    d.sparseHole outputLen = .ok (none, d.setChunkLimit u64Max) := by
  simp [TarDecoder.sparseHole, hb.dense]

theorem Between.feedInput (hb : Between cfg d) (input : List Byte) :
    ∃ d1, (d.setChunkLimit u64Max).feedInput input = .ok (taken d input, d1) := by
  unfold TarDecoder.feedInput taken
  by_cases hn : d.needsInput = true
  · cases input with
    | nil => exact ⟨_, by simp [TarDecoder.setChunkLimit]; rfl⟩
    | cons b input =>
      simp only [TarDecoder.setChunkLimit, hb.limits, Limits.unlimited, hn, List.isEmpty_cons,
        Bool.not_false, Bool.and_true, if_true, Option.map_none, Option.getD_none]
      rw [if_neg (by simp)]
      exact ⟨_, rfl⟩
  · rw [if_neg (by simp [TarDecoder.setChunkLimit, hn]), if_neg hn]
    exact ⟨_, rfl⟩

/-- A step between entries asks the source. -/
theorem Between.step_eq (hb : Between cfg d) (input : List Byte) (outputLen : ℕ)
    (eoi : EndOfInput) : ∃ d1, Handed (d.setChunkLimit u64Max) input eoi (taken d input) d1 ∧
      d.step input outputLen eoi = (Refinement.report d1 d1.source.pull).map
        fun r => (⟨taken d input, 0, r.1⟩, r.2) := by
  obtain ⟨d1, hfeed⟩ := hb.feedInput input
  refine ⟨_, handed_of_feed hfeed, ?_⟩
  have hfl : ¬ (d.limits.inFlightBytes.any fun limit => decide (limit < BLOCK)) = true := by
    rw [hb.limits]; decide
  rw [step, if_neg (by simp [hb.notDone]), if_neg hfl, hb.sparseHole]
  simp only [ok_bind, hfeed, Refinement.report]
  cases liftError (d1.noteEnd eoi (taken d input) input.length).source.pull with
  | error e => rfl
  | ok r =>
    simp only [ok_bind]
    cases ({ d1.noteEnd eoi (taken d input) input.length with source := r.2 } :
      TarDecoder).handle r.1 with
    | error e => rfl
    | ok r => rfl

theorem Between.handed (hb : Between cfg d) (ha : Handed (d.setChunkLimit u64Max) input eoi n d1) :
    Between cfg d1 := by
  obtain ⟨-, -, rfl⟩ := ha
  unfold noteEnd
  split_ifs <;>
    exact ⟨hb.limits, hb.notDone, hb.dense, hb.entries, hb.totalBytes, hb.metadataBytes⟩

end

/-! ### Calls -/

section
variable {B : List Byte} {cfg : Config} {stage : Stage} {size pad q j n : ℕ} {c : Cutting B}
  {exts : List (List Byte)}

/-- The place in the input of the source before call `n`. -/
def place (c : Cutting B) (n : ℕ) : ℕ :=
  (decoding .unlimited c n).consumed - (decoding .unlimited c n).decoder.source.available

/-- The place in the input up to which the source holds it in call `n`. -/
def heldAt (c : Cutting B) (n : ℕ) : ℕ :=
  (decoding .unlimited c n).consumed + if (decoding .unlimited c n).decoder.needsInput then
    c.supplied n - (decoding .unlimited c n).consumed else 0

theorem heldAt_eq (c : Cutting B) (n : ℕ) : heldAt c n = (decoding .unlimited c n).consumed +
    taken (decoding .unlimited c n).decoder
      (window B (decoding .unlimited c n).consumed (c.supplied n)) := by
  have hle := c.supplied_le n
  rw [heldAt, taken, length_window, min_eq_left (by omega)]

/-- What a call before extension blocks does. -/
inductive Call (cfg : Config) (stage : Stage) (size pad q : ℕ) (exts : List (List Byte))
    (c : Cutting B) (n : ℕ) : Prop
  | asks (hk : heldAt c n < q + BLOCK * exts.length) (d' : TarDecoder) (j : ℕ)
      (hj : j < exts.length) (hw : Waiting B cfg stage size pad q j d' (heldAt c n))
      (hrun : decoding .unlimited c (n + 1) =
        ⟨d', heldAt c n, (decoding .unlimited c n).events ++ [.needInput], none⟩)
  | shows (hk : q + BLOCK * exts.length ≤ heldAt c n) (m : EntryMetadata) (cfg' : Config)
      (hm : shown stage cfg.global (window B (place c n) (q + BLOCK * exts.length)) = .ok m)
      (hc : charge cfg m = .ok cfg') (d' : TarDecoder)
      (hs : d'.source.state = .payload size pad) (ha : d'.sparseActive = stage.isSparse)
      (hp : heldAt c n - d'.source.available = q + BLOCK * exts.length)
      (hrun : decoding .unlimited c (n + 1) =
        ⟨d', heldAt c n, (decoding .unlimited c n).events ++ [.entry m], none⟩)
  | refuses (hk : q + BLOCK * exts.length ≤ heldAt c n)
      (hno : ∀ m cfg', shown stage cfg.global
        (window B (place c n) (q + BLOCK * exts.length)) = .ok m → charge cfg m ≠ .ok cfg')
      (e : ArchiveError)
      (hrun : decoding .unlimited c (n + 1) = { decoding .unlimited c n with failure := some e })

/-- **A call whose polls reach an extension block.** -/
theorem call_of_chain (hgo : (decoding .unlimited c n).halted = false)
    (hb : Between cfg (decoding .unlimited c n).decoder) (hx : Empties B exts q)
    (hv : validateSparseExtents stage.sparse stage.logicalSize.toNat size = .ok ())
    (hchain : ∀ d1, Handed ((decoding .unlimited c n).decoder.setChunkLimit u64Max)
        (window B (decoding .unlimited c n).consumed (c.supplied n)) (c.eoi n)
        (taken (decoding .unlimited c n).decoder
          (window B (decoding .unlimited c n).consumed (c.supplied n))) d1 →
      ∃ j s1, j < exts.length ∧ Silent d1.source.compact s1 ∧
        Extending B stage cfg.global size pad q j s1 (heldAt c n)) :
    Call cfg stage size pad q exts c n := by
  have hplaced := tar_placed .unlimited c n
  obtain ⟨d1, ha, hstep⟩ := hb.step_eq
    (window B (decoding .unlimited c n).consumed (c.supplied n)) (c.outputLen n) (c.eoi n)
  obtain ⟨j, s1, hj, hsil, he⟩ := hchain d1 ha
  have hset : Placed B ((decoding .unlimited c n).decoder.setChunkLimit u64Max)
      (decoding .unlimited c n).consumed :=
    (hplaced.ready (hb.sparseHole 1)).1
  have hp1 := (hset.handed ha fun h => c.supplied_of_end n h).1
  rw [← heldAt_eq] at hp1
  have hpos : heldAt c n - d1.source.available = place c n := by
    have hfeed := Expanding.left_feed hset.buffers ha.consumed_le
    rw [← heldAt_eq] at hfeed
    obtain ⟨-, -, rfl⟩ := ha
    unfold noteEnd
    split_ifs <;> exact hfeed
  have hrun : decoding .unlimited c (n + 1) = (decoding .unlimited c n).advance TarDecoder.step B
    (c.supplied n) (c.outputLen n) (c.eoi n) := rfl
  rw [Run.advance, if_neg (by simp [hgo]), hstep] at hrun
  rcases (hb.handed ha).report hp1 hx hv hsil hj he with ⟨hk, d', j', hj', hr, hw⟩ | ⟨hk, hr⟩
  · refine .asks hk d' j' hj' hw ?_
    rw [hrun, hr, heldAt_eq]
    rfl
  · rw [hpos] at hr
    by_cases hm : ∃ m cfg', shown stage cfg.global
        (window B (place c n) (q + BLOCK * exts.length)) = .ok m ∧ charge cfg m = .ok cfg'
    · obtain ⟨m, cfg', hm, hc⟩ := hm
      obtain ⟨d', hd, h1, h2, h3⟩ := hr.entry m cfg' hm hc
      refine .shows hk m cfg' hm hc d' h1 h2 h3 ?_
      rw [hrun, hd, heldAt_eq]
      rfl
    · have hno : ∀ m cfg', shown stage cfg.global
          (window B (place c n) (q + BLOCK * exts.length)) = .ok m → charge cfg m ≠ .ok cfg' :=
        fun m cfg' h1 h2 => hm ⟨m, cfg', h1, h2⟩
      obtain ⟨e, he⟩ := hr.refused hno
      refine .refuses hk hno e ?_
      rw [hrun, he]
      rfl

/-- A decoder that waits for an extension block asks its source there. -/
theorem Waiting.chain {k : ℕ} {d d1 : TarDecoder} {input : List Byte} {eoi : EndOfInput} {m : ℕ}
    (hw : Waiting B cfg stage size pad q j d k) (hp : Placed B d k)
    (hin : input = window B k m) (hend : eoi = .end → m = B.length)
    (ha : Handed (d.setChunkLimit u64Max) input eoi n d1) :
    Extending B stage cfg.global size pad q j d1.source.compact (k + n) := by
  subst hin
  have hset := (hp.ready (hw.between.sparseHole 1)).1
  have hp1 := (hset.handed ha hend).1
  have hfeed := Expanding.left_feed hset.buffers ha.consumed_le
  have hpos : k + n - d1.source.available = q + BLOCK * j := by
    obtain ⟨-, -, rfl⟩ := ha
    unfold noteEnd
    split_ifs <;> exact hfeed.trans hw.source.place
  have hav : d1.source.compact.available = d1.source.available := by
    simp only [available, compact, List.length_drop, Nat.sub_zero]
  have hsrc := hw.source
  refine ⟨hp1.buffers.compact, ?_, ?_, ?_, ?_, by rw [hav]; exact hpos, hp1.finished⟩ <;>
    obtain ⟨-, -, rfl⟩ := ha <;> unfold noteEnd
  · split_ifs <;> exact hsrc.state
  · split_ifs <;> exact hsrc.stage_eq
  · split_ifs <;> exact hsrc.global_eq
  · split_ifs <;> exact hsrc.unchanged

/-! ### Up to the header -/

theorem not_extended_of_record {hdr : List Byte} {pending global : Overrides} {kind : MetaKind}
    {data pad : ℕ} (h : readHeader hdr pending global = .ok (.record kind data pad)) :
    ¬ isExtended hdr := by
  intro hx
  have hS : byteAt hdr oTypeflag = chr 'S' := by
    simpa [isExtended] using (Bool.and_eq_true_iff.mp hx).1
  have hkind : metaKindOf (byteAt hdr oTypeflag) = none := by rw [hS]; decide
  obtain ⟨_, -, h⟩ := bind_eq_ok.mp h
  obtain ⟨_, -, h⟩ := bind_eq_ok.mp h
  rw [hkind] at h
  obtain ⟨_, -, h⟩ := bind_eq_ok.mp h
  cases h

/-- At an extended header the machine halts. -/
theorem halts_of_pollsExtended {s : TarSource} {tail : List Byte} {c0 : Config}
    (h : SourceRep s tail c0) (hg : s.globalChanged = false) (hp : PollsExtended s) :
    ∃ o, machine c0 = .halt o := by
  rw [machine_header h hp.1 hg hp.2.1 hp.2.2.1]
  cases hr : readHeader s.block s.pending s.global with
  | error e => exact ⟨_, rfl⟩
  | ok a =>
    cases a with
    | record kind data pad => exact absurd hp.2.2.2 (not_extended_of_record hr)
    | entry size pad stage =>
      simp only [onAnnounced]
      rw [if_pos hp.2.2.2]
      exact ⟨_, rfl⟩

/-- The call that polls the extended header, as the source sees it. -/
theorem reaches_of_extends {d : TarDecoder} {input tail : List Byte} {eoi : EndOfInput}
    {outputLen : ℕ} {c0 : Config} (h : Rep d (input ++ tail) c0) (heoi : eoi = .end → tail = [])
    (hx : Extends d input outputLen eoi c0) : ∃ d0 n d1 s1 c1,
      d.sparseHole outputLen = .ok (none, d0) ∧ d0.feedInput input = .ok (n, d1) ∧
      Silent (d1.noteEnd eoi n input.length).source.compact s1 ∧ s1.globalChanged = false ∧
      PollsExtended s1 ∧ Quiet c0 c1 ∧ SourceRep s1 ((input ++ tail).drop n) c1 ∧
      machine c1 = .halt .extended := by
  obtain ⟨hhalt, hdr, ⟨s, s', hasked, hsil, hg, hs, hav, hz, hblock⟩, hext⟩ := hx
  unfold asked at hasked
  split at hasked
  · next d0 hh =>
    obtain ⟨h1, hr1, -⟩ := ready_of_sparseHole h hh
    obtain ⟨n, d1, hfeed, -, -, -, h2, hr2, -⟩ := fed_sim h1 hr1 heoi
    rw [hfeed] at hasked
    cases hasked
    refine ⟨d0, n, d1, ?_⟩
    rcases silent_sim_to hsil (SourceRep.compact h2.source) hr2.noHole with
      ⟨c1, hq, hrep⟩ | ⟨s1, c1, h3, h4, h5, h6, h7, h8⟩
    · have hp : PollsExtended s' := ⟨hs, hav, hz, hblock ▸ hext⟩
      obtain ⟨o, ho⟩ := halts_of_pollsExtended hrep hg hp
      obtain ⟨c2, hst, hm⟩ := hhalt
      have heq := hq.steps.halt_unique ho hst hm
      subst heq
      exact ⟨s', c1, hh, hfeed, hsil, hg, hp, hq, hrep, hm⟩
    · exact ⟨s1, c1, hh, hfeed, h3, h4, h5, h6, h7, h8⟩
  · cases hasked

end

end LibarchiveOxide.Tar.Extensions
