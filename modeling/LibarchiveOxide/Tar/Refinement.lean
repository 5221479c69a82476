import LibarchiveOxide.Tar.Plans
import LibarchiveOxide.Tar.Simulation

/-! # The decoder refines the stream machine

With unlimited budgets every step of the decoder is a number of steps of the stream machine with the
same atoms, for any part of the stream that has been supplied and any scratch buffer
(`step_ok_sim`, `step_error_sim`). The exception is an overflow of the account of data bytes: the
machine still emits the bytes that fit, the decoder refuses the whole window. -/

namespace LibarchiveOxide.Tar.Refinement

open Core.Failure Core.Budget Core.Metadata Core.Protocol Core.Drive Lib.Machine Lib.Result
open Tar.Header Tar.Pax Tar.Source Tar.Source.TarSource Tar.Stream Tar.Plans Tar.Simulation
open Tar.Decoder Tar.Decoder.TarDecoder

/-! ### The relation -/

/-- The decoder's place in the open entry is the plan. -/
def PlanRep (d : TarDecoder) : Option (List Bool) → Prop
  | none => d.sparseActive = false
  | some p =>
    (d.sparseActive = true →
      p = planFrom d.logicalSize d.logicalPosition (d.sparse.drop d.sparseIndex) ∧
        Fits d.logicalSize d.logicalPosition (d.sparse.drop d.sparseIndex) ∧
        d.logicalSize ≤ u64Max) ∧
      (d.sparseActive = false → p = List.replicate (p.count true) true)

/-- The decoder with the unconsumed `tail` stands where the machine stands. -/
structure Rep (d : TarDecoder) (tail : List Byte) (c : Config) : Prop where
  limits : d.limits = .unlimited
  notDone : d.done = false
  source : SourceRep d.source tail c
  inputFinished : d.inputFinished = d.source.finished
  entries : d.entries = c.entries
  totalBytes : d.totalBytes = c.totalBytes
  total_le : c.totalBytes ≤ u64Max
  entryBytes_le : d.entryBytes ≤ d.totalBytes
  metadataBytes : d.metadataBytes = c.metadataBytes
  plan : PlanRep d (plan c)

/-- The stream before anything was read. -/
def initial (B : List Byte) : Config := { stream := B }

theorem rep_new (B : List Byte) : Rep (.new .unlimited) B (initial B) where
  limits := rfl
  notDone := rfl
  source := ⟨le_rfl, rfl, nofun, rfl, rfl, rfl, rfl⟩
  inputFinished := rfl
  entries := rfl
  totalBytes := rfl
  total_le := Nat.zero_le _
  entryBytes_le := le_rfl
  metadataBytes := rfl
  plan := rfl

/-- The two failures of the accounts of data bytes. -/
def IsOverflow (e : ArchiveError) : Prop :=
  e = tarError .limit "entry byte count overflow" ∨
    e = tarError .limit "decoded byte count overflow"

/-- The machine fails as the decoder did, or overflows as it did after some more bytes. -/
def FailsAs (c : Config) (e : ArchiveError) : Prop :=
  Halts machine c [] (.fail e) ∨
    (IsOverflow e ∧ ∃ bs : List Byte, Halts machine c (bs.map .byte) .overflow)

theorem FailsAs.prepend {c c' : Config} {e : ArchiveError} (hs : Steps machine c [] c')
    (h : FailsAs c' e) : FailsAs c e := by
  obtain h | ⟨ho, bs, h⟩ := h
  · exact .inl (by simpa using Halts.prepend hs h)
  · exact .inr ⟨ho, bs, by simpa using Halts.prepend hs h⟩

variable {d d' : TarDecoder} {tail tail' input : List Byte} {c : Config} {outputLen : ℕ}
  {eoi : EndOfInput}

/-! ### Accounts -/

/-- The accounts of data bytes have room for a window exactly if the total has. -/
theorem accountData_cases (hl : d.limits = .unlimited) (he : d.entryBytes ≤ d.totalBytes) (n : ℕ) :
    (d.totalBytes + n ≤ u64Max ∧ d.accountData n =
      .ok { d with entryBytes := d.entryBytes + n, totalBytes := d.totalBytes + n }) ∨
    (u64Max < d.totalBytes + n ∧ ∃ e, IsOverflow e ∧ d.accountData n = .error e) := by
  unfold accountData
  by_cases h1 : d.totalBytes + n ≤ u64Max
  · left
    refine ⟨h1, ?_⟩
    rw [checkedAdd_of_le (by omega), checkedAdd_of_le h1]
    simp [checkLimit, hl, Limits.unlimited]
  · right
    refine ⟨not_le.mp h1, ?_⟩
    by_cases h2 : d.entryBytes + n ≤ u64Max
    · refine ⟨_, .inr rfl, ?_⟩
      rw [checkedAdd_of_le h2, show checkedAdd d.totalBytes n = none from if_neg h1]
      rfl
    · refine ⟨_, .inl rfl, ?_⟩
      rw [show checkedAdd d.entryBytes n = none from if_neg h2]
      rfl

/-! ### Holes -/

theorem Rep.settled (h : Rep d tail c) : Rep (settle d) tail c where
  limits := h.limits
  notDone := h.notDone
  source := h.source
  inputFinished := h.inputFinished
  entries := h.entries
  totalBytes := h.totalBytes
  total_le := h.total_le
  entryBytes_le := h.entryBytes_le
  metadataBytes := h.metadataBytes
  plan := by
    have hp := h.plan
    cases hc : Simulation.plan c with
    | none => rw [hc] at hp; exact hp
    | some p =>
      rw [hc] at hp
      refine ⟨fun ha => ?_, hp.2⟩
      obtain ⟨h1, h2, h3⟩ := hp.1 ha
      obtain ⟨h4, h5⟩ := planFrom_dropWhile h2
      rw [← drop_skipFinished] at h4 h5
      exact ⟨h1.trans h4.symm, h5, h3⟩

theorem Rep.setChunkLimit (h : Rep d tail c) (n : ℕ) : Rep (d.setChunkLimit n) tail c where
  limits := h.limits
  notDone := h.notDone
  source := ⟨h.source.inBuf, h.source.stream, h.source.finished, h.source.pending, h.source.global,
    h.source.globalChanged, h.source.phase⟩
  inputFinished := h.inputFinished
  entries := h.entries
  totalBytes := h.totalBytes
  total_le := h.total_le
  entryBytes_le := h.entryBytes_le
  metadataBytes := h.metadataBytes
  plan := h.plan

/-- A plan of stored bytes only has no hole. -/
theorem Rep.noHole_of_dense (h : Rep d tail c) (ha : d.sparseActive = false) : NoHole c := by
  intro p hc
  have hp := h.plan
  rw [hc] at hp
  have hmem : false ∈ List.replicate ((false :: p).count true) true := by
    rw [← hp.2 ha]; exact List.mem_cons_self
  cases List.eq_of_mem_replicate hmem

/-- The extents left once the finished ones are skipped, and the plan they give. -/
theorem Rep.active (h : Rep d tail c) (ha : d.sparseActive = true) :
    ∃ pad es, (settle d).sparse.drop (settle d).sparseIndex = es ∧
      c.phase = .payload (planFrom d.logicalSize d.logicalPosition es) pad ∧
      Fits d.logicalSize d.logicalPosition es ∧ d.logicalSize ≤ u64Max ∧
      ∀ e r, es = e :: r → d.logicalPosition ≠ e.end := by
  have hp := h.settled.plan
  cases hc : c.phase with
  | payload p pad =>
    simp only [Simulation.plan, hc] at hp
    obtain ⟨h1, h2, h3⟩ := hp.1 ha
    refine ⟨pad, _, rfl, by rw [h1]; rfl, h2, h3, fun e r he => ?_⟩
    exact head_dropWhile_end ((drop_skipFinished _ _ _).symm.trans he)
  | header => simp [Simulation.plan, hc, PlanRep, settle, ha] at hp
  | record => simp [Simulation.plan, hc, PlanRep, settle, ha] at hp

/-- What the decoder knows before it asks its source: the window it may be given is inside the
current extent. -/
structure Ready (d : TarDecoder) (c : Config) : Prop where
  noHole : NoHole c
  limit_pos : 0 < d.source.payloadChunkLimit
  inExtent : d.sparseActive = true → plan c = some [] ∨
    ∃ e r, d.sparse.drop d.sparseIndex = e :: r ∧ e.offset ≤ d.logicalPosition ∧
      d.logicalPosition + d.source.payloadChunkLimit = e.end

theorem ready_of_sparseHole (h : Rep d tail c) (hs : d.sparseHole outputLen = .ok (none, d')) :
    Rep d' tail c ∧ Ready d' c ∧ d'.needsInput = d.needsInput := by
  by_cases ha : d.sparseActive = true
  · have h' := h.settled
    obtain ⟨pad, es, hes, hc, hf, -, hne⟩ := h.active ha
    rw [sparseHole_active ha, ← List.head?_drop, hes] at hs
    split_ifs at hs with h1 h2
    · cases hs
    · obtain ⟨_, _, h3⟩ := bind_eq_ok.mp hs
      cases h3
    · cases es with
      | nil =>
        have h0 : planFrom d.logicalSize d.logicalPosition [] = [] := by
          simpa [planFrom, nextData, Nat.sub_eq_zero_iff_le] using h1
        cases hs
        refine ⟨h'.setChunkLimit _, ⟨?_, u64Max_pos, fun _ => .inl ?_⟩, rfl⟩
        · intro p hp
          rw [h0] at hc
          simp [Simulation.plan, hc] at hp
        · simp [Simulation.plan, hc, h0]
      | cons e r =>
        have hpos : d.logicalPosition ≤ e.end := hf.1
        have hlt : d.logicalPosition < e.end := lt_of_le_of_ne hpos (hne e r rfl)
        have hoff : e.offset ≤ d.logicalPosition := by simpa [nextData] using h1
        cases hs
        refine ⟨h'.setChunkLimit _, ⟨?_, ?_, fun _ => .inr ⟨e, r, hes, hoff, ?_⟩⟩, rfl⟩
        · intro p hp
          rw [planFrom_data (k := 1) hoff hlt] at hc
          simp [Simulation.plan, hc] at hp
        · simp only [TarDecoder.setChunkLimit]; omega
        · simp only [TarDecoder.setChunkLimit]
          exact Nat.add_sub_of_le hpos
  · have ha' : d.sparseActive = false := by simpa using ha
    simp only [sparseHole, ha', Bool.not_false, if_true] at hs
    cases hs
    exact ⟨h.setChunkLimit _, ⟨h.noHole_of_dense ha', u64Max_pos, fun h1 => absurd h1 ha⟩, rfl⟩

/-- The zeros of a hole are steps of the machine. -/
theorem hole_sim (h : Rep d tail c) (hout : 0 < outputLen) {st : DecodeStep}
    (hs : d.sparseHole outputLen = .ok (some st, d')) :
    st.consumed = 0 ∧ (∃ bs, st.event = .data bs) ∧
      ∃ c', Steps machine c (atoms st.event) c' ∧ Rep d' tail c' := by
  by_cases ha : d.sparseActive = true
  · have h' := h.settled
    obtain ⟨pad, es, hes, hc, hf, hu, -⟩ := h.active ha
    rw [sparseHole_active ha, hes] at hs
    split_ifs at hs with h1 h2
    · omega
    · set n := min (nextData d.logicalSize es - d.logicalPosition) outputLen with hn
      have hle : d.logicalPosition + n ≤ nextData d.logicalSize es := by omega
      have hfit : Fits d.logicalSize (d.logicalPosition + n) es := by
        refine Fits.advance hf ?_
        cases es with
        | nil => exact hle
        | cons e r =>
          have : e.offset ≤ e.end := Nat.le_add_right _ _
          simp only [nextData, List.head?_cons, Option.map_some, Option.getD_some] at hle
          exact hle.trans this
      have hmod : (d.logicalPosition + n) % 2 ^ 64 = d.logicalPosition + n := by
        have h2 : d.logicalPosition + n ≤ d.logicalSize := hfit.le
        have h3 : d.logicalSize ≤ u64Max := hu
        unfold u64Max at h3
        exact Nat.mod_eq_of_lt (by omega)
      obtain ⟨d2, h3, h4⟩ := bind_eq_ok.mp hs
      cases h4
      obtain ⟨hroom, h5⟩ | ⟨-, e, -, h5⟩ := accountData_cases (n := n)
        (d := { settle d with logicalPosition := (d.logicalPosition + n) % 2 ^ 64 })
        h'.limits h'.entryBytes_le
      · rw [h5] at h3
        cases h3
        have hroom' : c.totalBytes + n ≤ u64Max := by rw [← h.totalBytes]; exact hroom
        have hplan := planFrom_hole hle
        have hst := steps_hole n (c := c) (hc.trans (by rw [← hplan])) hroom'
        refine ⟨rfl, ⟨_, rfl⟩, _, hst, h'.limits, h'.notDone, ⟨h.source.inBuf, h.source.stream,
          h.source.finished, h.source.pending, h.source.global, h.source.globalChanged, ?_⟩,
          h'.inputFinished, h'.entries, ?_, hroom', ?_, h'.metadataBytes, ?_⟩
        · have hp := h.source.phase
          rw [hc] at hp
          obtain ⟨p1, p2, p3⟩ := hp
          change PhaseRep _ (.payload _ _)
          have hcount : (planFrom d.logicalSize d.logicalPosition es).count true =
              (planFrom d.logicalSize (d.logicalPosition + n) es).count true := by
            rw [hplan, List.count_append, List.count_replicate]; simp
          exact ⟨by rw [← hcount]; exact p1, by rw [← hcount]; exact p2, p3⟩
        · simp only [← h.totalBytes]; rfl
        · have := h.entryBytes_le
          exact Nat.add_le_add_right this n
        · refine ⟨fun _ => ?_, fun h0 => absurd (show d.sparseActive = false from h0) (by simp [ha])⟩
          simp only [hmod, hes]
          exact ⟨rfl, hfit, hu⟩
      · rw [h5] at h3
        cases h3
    · split at hs <;> cases hs
  · have ha' : d.sparseActive = false := by simpa using ha
    simp only [sparseHole, ha', Bool.not_false, if_true] at hs
    cases hs

/-- A hole that overflows the account. -/
theorem hole_error_sim (h : Rep d tail c) {e : ArchiveError}
    (hs : d.sparseHole outputLen = .error e) : FailsAs c e := by
  by_cases ha : d.sparseActive = true
  · have h' := h.settled
    obtain ⟨pad, es, hes, hc, hf, hu, -⟩ := h.active ha
    rw [sparseHole_active ha, hes] at hs
    split_ifs at hs with h1 h2
    · set n := min (nextData d.logicalSize es - d.logicalPosition) outputLen with hn
      have hle : d.logicalPosition + n ≤ nextData d.logicalSize es := by omega
      obtain ⟨hroom, h5⟩ | ⟨hbig, e', ho, h5⟩ := accountData_cases (n := n)
        (d := { settle d with logicalPosition := (d.logicalPosition + n) % 2 ^ 64 })
        h'.limits h'.entryBytes_le
      · simp only [h5] at hs
        cases hs
      · simp only [h5] at hs
        cases hs
        refine .inr ⟨ho, halts_hole_overflow (n := n)
          (hc.trans (by rw [← planFrom_hole hle])) h.total_le ?_⟩
        rw [← h.totalBytes]
        exact hbig
    · split at hs <;> cases hs
  · have ha' : d.sparseActive = false := by simpa using ha
    simp only [sparseHole, ha', Bool.not_false, if_true] at hs
    cases hs

/-! ### Feeding -/

variable {s s' : TarSource}

/-- The relation looks at the source only through `SourceRep`. -/
theorem Rep.withSource (h : Rep d tail c) (hs : SourceRep s tail' c)
    {inputFinished needsInput : Bool} (hf : inputFinished = s.finished) :
    Rep { d with source := s, inputFinished, needsInput } tail' c where
  limits := h.limits
  notDone := h.notDone
  source := hs
  inputFinished := hf
  entries := h.entries
  totalBytes := h.totalBytes
  total_le := h.total_le
  entryBytes_le := h.entryBytes_le
  metadataBytes := h.metadataBytes
  plan := h.plan

theorem SourceRep.feed (h : SourceRep s (input ++ tail') c) (hi : input ≠ []) :
    SourceRep (s.feed input) tail' c where
  inBuf := by
    have := h.inBuf
    simp only [TarSource.feed, List.length_append]
    omega
  stream := by
    rw [← h.stream, TarSource.rest, TarSource.feed, List.drop_append_of_le_length h.inBuf,
      List.append_assoc]
    rfl
  finished := fun hf => absurd (List.append_eq_nil_iff.mp (h.finished hf)).1 hi
  pending := h.pending
  global := h.global
  globalChanged := h.globalChanged
  phase := h.phase

/-- The decoder as it asks its source: fed, and told about the end. -/
theorem fed_sim (h : Rep d (input ++ tail') c) (hr : Ready d c) (heoi : eoi = .end → tail' = []) :
    ∃ k d1, d.feedInput input = .ok (k, d1) ∧ (k = input.length ∨ (k = 0 ∧ d.needsInput = false)) ∧
      (k ≠ 0 → d1.needsInput = false) ∧ (k = 0 → d1.needsInput = d.needsInput) ∧
      Rep (d1.noteEnd eoi k input.length) ((input ++ tail').drop k) c ∧
      Ready (d1.noteEnd eoi k input.length) c ∧
      (eoi = .end → k = input.length → (d1.noteEnd eoi k input.length).source.finished = true) := by
  have hnote : ∀ (d : TarDecoder) (k : ℕ) (tail : List Byte), Rep d tail c → Ready d c →
      (eoi = .end → k = input.length → tail = []) →
      Rep (d.noteEnd eoi k input.length) tail c ∧ Ready (d.noteEnd eoi k input.length) c ∧
      (eoi = .end → k = input.length → (d.noteEnd eoi k input.length).source.finished = true) := by
    intro d k tail h hr ht
    unfold noteEnd
    split_ifs with hc
    · obtain ⟨he, hk, -⟩ := hc
      obtain rfl := ht he hk
      exact ⟨h.withSource (s := d.source.finishInput) ⟨h.source.inBuf, h.source.stream, fun _ => rfl,
        h.source.pending, h.source.global, h.source.globalChanged, h.source.phase⟩ rfl,
        ⟨hr.noHole, hr.limit_pos, hr.inExtent⟩, fun _ _ => rfl⟩
    · refine ⟨h, hr, fun he hk => ?_⟩
      rw [← h.inputFinished]
      by_contra hf
      exact hc ⟨he, hk, by simpa using hf⟩
  unfold feedInput
  split_ifs with hfeed
  · have hi : input ≠ [] := by
      rintro rfl
      simp at hfeed
    have hacc : (d.limits.inFlightBytes.map fun limit =>
        min (limit - d.source.buf.length) input.length).getD input.length = input.length := by
      rw [h.limits]; rfl
    simp only [hacc]
    rw [if_neg (by simpa using hi)]
    refine ⟨_, _, rfl, .inl rfl, fun _ => rfl, fun h0 => absurd h0 (by simpa using hi), ?_⟩
    rw [List.drop_left, List.take_length]
    exact hnote _ _ _ (h.withSource (SourceRep.feed h.source hi) h.inputFinished)
      ⟨hr.noHole, hr.limit_pos, hr.inExtent⟩ fun he _ => heoi he
  · refine ⟨0, d, rfl, ?_, fun h0 => absurd rfl h0, fun _ => rfl, ?_⟩
    · cases input with
      | nil => exact .inl rfl
      | cons b input => exact .inr ⟨rfl, by simpa using hfeed⟩
    · refine hnote d 0 _ h hr fun he hk => ?_
      rw [List.length_eq_zero_iff.mp hk.symm, heoi he]
      rfl

theorem SourceRep.compact (h : SourceRep s tail c) : SourceRep s.compact tail c where
  inBuf := Nat.zero_le _
  stream := h.stream
  finished := h.finished
  pending := h.pending
  global := h.global
  globalChanged := h.globalChanged
  phase := h.phase

/-- The window limit lasts as long as no extended header is polled. -/
theorem chunkLimit_of_silent (hs : Silent s s') (h : SourceRep s' tail c) :
    s'.payloadChunkLimit = s.payloadChunkLimit := by
  have key : s'.payloadChunkLimit = s.payloadChunkLimit ∨
      ∃ r p, s'.state = .sparseExtensions r p := by
    refine hs.invariant (P := fun s' => s'.payloadChunkLimit = s.payloadChunkLimit ∨
      ∃ r p, s'.state = .sparseExtensions r p) (.inl rfl) ?_
    intro s1 s2 _ hp h1
    cases hp with
    | record _ _ _ hs => exact h1.imp_right fun ⟨_, _, h⟩ => by rw [hs] at h; cases h
    | extended _ _ _ hs => exact .inr ⟨_, _, rfl⟩
    | recordData _ _ _ _ hs => exact h1.imp_right fun ⟨_, _, h⟩ => by rw [hs] at h; cases h
    | recordPad _ _ _ hs => exact h1.imp_right fun ⟨_, _, h⟩ => by rw [hs] at h; cases h
    | recordEnd _ _ _ hs => exact h1.imp_right fun ⟨_, _, h⟩ => by rw [hs] at h; cases h
    | extension _ _ _ hs => exact .inr ⟨_, _, rfl⟩
    | payloadPad _ _ hs => exact h1.imp_right fun ⟨_, _, h⟩ => by rw [hs] at h; cases h
  exact key.resolve_right fun ⟨r, p, h'⟩ => h.state_ne_extensions r p h'

/-! ### Answers -/

/-- What the decoder reports is what the machine does. -/
def Agrees (c : Config) (tail : List Byte) : Except ArchiveError (DecodeEvent × TarDecoder) → Prop
  | .error e => FailsAs c e
  | .ok (ev, d') => (ev = .done ∧ Halts machine c [] .done) ∨
      (ev ≠ .done ∧ ∃ c', Steps machine c (atoms ev) c' ∧ Rep d' tail c')

/-- The answer of the source, charged and translated. -/
def report (d : TarDecoder) (r : Except Error (TarSourceEvent × TarSource)) :
    Except ArchiveError (DecodeEvent × TarDecoder) := do
  let (event, source) ← liftError r
  ({ d with source } : TarDecoder).handle event

theorem Agrees.prepend {c' : Config} {r : Except ArchiveError (DecodeEvent × TarDecoder)}
    (hs : Steps machine c [] c') (h : Agrees c' tail r) : Agrees c tail r := by
  cases r with
  | error e => exact FailsAs.prepend hs h
  | ok r =>
    obtain ⟨he, hh⟩ | ⟨he, c2, hs2, hr⟩ := h
    · exact .inl ⟨he, by simpa using Halts.prepend hs hh⟩
    · exact .inr ⟨he, c2, hs.silent_trans hs2, hr⟩

/-- The relation once the global records are reported. -/
theorem Rep.globalReported (h : Rep d tail c) (hph : c.phase = .header) :
    Rep { d with source := { d.source with globalChanged := false } } tail
      { c with globalChanged := false } where
  limits := h.limits
  notDone := h.notDone
  source := by
    have hp := h.source.phase
    rw [hph] at hp
    refine ⟨h.source.inBuf, h.source.stream, h.source.finished, h.source.pending, h.source.global,
      rfl, ?_⟩
    change PhaseRep _ c.phase
    rw [hph]
    exact hp
  inputFinished := h.inputFinished
  entries := h.entries
  totalBytes := h.totalBytes
  total_le := h.total_le
  entryBytes_le := h.entryBytes_le
  metadataBytes := h.metadataBytes
  plan := h.plan

theorem agrees_globalMetadata (h : Rep d tail c) (hg : d.source.globalChanged = true) :
    Agrees c tail (report d d.source.answer) := by
  have hph : c.phase = .header := by
    have hp := h.source.phase
    cases hc : c.phase with
    | header => rfl
    | record => rw [hc] at hp; rw [hp.2.2] at hg; cases hg
    | payload => rw [hc] at hp; rw [hp.2.2] at hg; cases hg
  have hm : machine c = .next
      [.archiveMetadata { extensions := c.global.pax.map fun r => ⟨"pax", r.1, r.2⟩ }]
      { c with globalChanged := false } := by
    simp only [machine, hph, onHeader]
    rw [if_pos (h.source.globalChanged ▸ hg)]
  have ha : d.source.answer = .ok (.archiveMetadata d.source.globalMetadata,
      { d.source with globalChanged := false }) := by
    rw [answer, if_pos hg]
  rw [ha]
  refine .inr ⟨fun he => (by cases he), _, ?_, h.globalReported hph⟩
  · simp only [atoms, globalMetadata, h.source.global]
    exact .single hm

/-- The machine on a stream that ends too early. -/
theorem machine_starved (h : SourceRep s tail c) (ha : s.available = 0) (hf : s.finished = true) :
    c.stream = [] := by
  rw [← h.stream, h.finished hf, List.append_nil]
  exact List.length_eq_zero_iff.mp (by rw [length_rest, ha])

theorem agrees_failed (h : Rep d tail c) (hr : Ready d c) (hg : d.source.globalChanged = false)
    {e : Error} (hp : d.source.poll = .error e) : Agrees c tail (report d d.source.answer) := by
  have ha : d.source.answer = .error e := by
    rw [answer, if_neg (by simp [hg]), hp]
    rfl
  rw [ha]
  refine .inl (.of_halt ?_)
  cases failed_of_poll hp with
  | header _ hs hav hz hrd =>
    rw [machine_header h.source hs hg hav hz, hrd]
    rfl
  | record kind data pad hs hpos hav hf =>
    have hc := h.source.phase_of_record hs
    have hst := machine_starved h.source hav hf
    simp only [machine, hc, onRecord, hst]
    rcases data with _ | data
    · rcases pad with _ | pad
      · omega
      · rfl
    · rfl
  | recordEnd kind _ hs hrd =>
    have hc := h.source.phase_of_record hs
    rw [h.source.pending, h.source.global] at hrd
    simp only [machine, hc, onRecord, hrd]
  | extension _ _ _ hs => exact absurd hs (h.source.state_ne_extensions _ _)
  | payload remaining pad hs hpos hav hf =>
    obtain ⟨p, hc, hcount⟩ := h.source.phase_of_payload hs
    have hst := machine_starved h.source hav hf
    cases p with
    | nil => simp at hcount; omega
    | cons b p =>
      cases b with
      | false => exact absurd (by simp [Simulation.plan, hc]) (hr.noHole p)
      | true => simp only [machine, hc, onPayload, hst]; rfl
  | payloadPad pad hs hpos hav hf =>
    obtain ⟨p, hc, hcount⟩ := h.source.phase_of_payload hs
    obtain rfl := plan_eq_nil hr.noHole hc hcount
    have hst := machine_starved h.source hav hf
    obtain ⟨pad, rfl⟩ : ∃ k, pad = k + 1 := ⟨pad - 1, by omega⟩
    simp only [machine, hc, onPayload, hst]
    rfl
  | oversize remaining pad _ hs hbig =>
    obtain ⟨p, hc, hcount⟩ := h.source.phase_of_payload hs
    have hp := h.source.phase
    rw [hc] at hp
    have := hp.2.1
    omega

/-- The decoder's checks of a new entry, without budgets, are those of the machine. -/
theorem beginEntry_eq (hl : d.limits = .unlimited) (he : d.entries = c.entries)
    (hm : d.metadataBytes = c.metadataBytes) (m : EntryMetadata) (sparse : List SparseExtent)
    (isSparse : Bool) : d.beginEntry m sparse isSparse = (charge c m).map fun c' => { d with
      entries := c'.entries, metadataBytes := c'.metadataBytes, entryBytes := 0
      sparseActive := isSparse, sparse, sparseIndex := 0, logicalPosition := 0
      logicalSize := (m.size.map UInt64.toNat).getD 0 } := by
  simp only [TarDecoder.beginEntry, charge, hl, Limits.unlimited, checkLimit, exceeds_none,
    Bool.false_eq_true, if_false, he, hm]
  cases checkedAdd c.entries 1 with
  | none => rfl
  | some entries =>
    cases entryMetadataCost m with
    | error e => rfl
    | ok cost =>
      simp only [okOr_some, ok_bind]
      cases checkedAdd c.metadataBytes cost with
      | none => rfl
      | some total => rfl

theorem charge_ok {c' : Config} {m : EntryMetadata} (h : charge c m = .ok c') :
    ∃ entries metadataBytes, c' = { c with entries, metadataBytes } := by
  obtain ⟨entries, -, h⟩ := bind_eq_ok.mp h
  obtain ⟨_, -, h⟩ := bind_eq_ok.mp h
  obtain ⟨metadataBytes, -, h⟩ := bind_eq_ok.mp h
  cases h
  exact ⟨entries, metadataBytes, rfl⟩

/-- The plan of a staged entry has as many stored bytes as the entry. -/
theorem count_planOf {hdr : List Byte} {pending global : Overrides} {size : ℕ} {stage : Stage}
    (h : Staged hdr pending global size stage) : (planOf stage size).count true = size := by
  unfold planOf
  split_ifs with hs
  · exact (validateSparseExtents_ok (h.sparse hs)).2
  · simp

theorem agrees_entry (h : Rep d tail c) (hg : d.source.globalChanged = false) {size pad : ℕ}
    {stage : Stage} (hs : d.source.state = .header) (hav : BLOCK ≤ d.source.available)
    (hz : ¬ d.source.block.all (· == 0))
    (hrd : readHeader d.source.block d.source.pending d.source.global = .ok (.entry size pad stage))
    (hx : ¬ isExtended d.source.block) (hs' : s' = { d.source with
      pending := {}, stage, payloadChunkLimit := u64Max, cursor := d.source.cursor + BLOCK
      state := .payload size pad }) (hp : d.source.poll = .ok (.entry, s')) :
    Agrees c tail (report d d.source.answer) := by
  have hst := staged_of_readHeader hrd
  have ha : d.source.answer = (stagedMetadata d.source.block stage c.global).map fun m =>
      (.entry m stage.sparse stage.isSparse, s') := by
    have he : s'.entryEvent = (stagedMetadata d.source.block stage c.global).map fun m =>
        .entry m stage.sparse stage.isSparse := by
      rw [hs', ← h.source.global]
      exact d.source.entryEvent_eq (h.source.cursor_le hav) hst.checksum
    rw [answer, if_neg (by simp [hg]), hp]
    change (s'.entryEvent >>= fun ev => pure (ev, s')) = _
    rw [he]
    cases stagedMetadata d.source.block stage c.global with
    | error e => rfl
    | ok m => rfl
  have hm := machine_header h.source hs hg hav hz
  rw [hrd, onAnnounced, if_neg hx] at hm
  rw [ha]
  cases hmeta : stagedMetadata d.source.block stage c.global with
  | error e =>
    have hb : beginEntry c d.source.block size pad stage = .error (.ofError e) := by
      rw [Stream.beginEntry, hmeta]
      rfl
    rw [hb] at hm
    exact .inl (.of_halt hm)
  | ok m =>
    have hb : beginEntry c d.source.block size pad stage = (charge c m).map fun c' => (m, { c' with
        stream := c'.stream.drop BLOCK, pending := {}
        phase := .payload (planOf stage size) pad }) := by
      rw [Stream.beginEntry, hmeta]
      cases hch : charge c m with
      | error e => simp only [liftError, mapError_ok, ok_bind, hch]; rfl
      | ok c' => simp only [liftError, mapError_ok, ok_bind, hch]; rfl
    have hrep : report d (.ok (.entry m stage.sparse stage.isSparse, s')) =
        ((({ d with source := s' } : TarDecoder).beginEntry m stage.sparse stage.isSparse).map
          fun d' => (.entry m, d')) := by
      simp only [report, liftError, mapError_ok, ok_bind, handle]
      cases ({ d with source := s' } : TarDecoder).beginEntry m stage.sparse stage.isSparse with
      | error e => rfl
      | ok d' => rfl
    change Agrees c tail (report d (.ok (.entry m stage.sparse stage.isSparse, s')))
    rw [hrep, beginEntry_eq (d := { d with source := s' }) (c := c) h.limits h.entries
      h.metadataBytes]
    cases hch : charge c m with
    | error e =>
      rw [hb, hch] at hm
      exact .inl (.of_halt hm)
    | ok c' =>
      rw [hb, hch] at hm
      obtain ⟨entries, metadataBytes, rfl⟩ := charge_ok hch
      have hcount := count_planOf hst
      refine .inr ⟨fun he => (by cases he), _, .single hm, h.limits, h.notDone,
    ⟨?_, ?_, ?_, ?_, ?_, ?_, ?_⟩, ?_, rfl,
        h.totalBytes, h.total_le, Nat.zero_le _, rfl, ?_⟩
      · rw [hs']; exact h.source.cursor_le hav
      · rw [hs', rest]
        simp only [drop_rest]
        rw [← h.source.stream, List.drop_append_of_le_length (by rw [length_rest]; exact hav)]
      · rw [hs']; exact h.source.finished
      · rw [hs']
      · rw [hs']; exact h.source.global
      · rw [hs']; exact h.source.globalChanged
      · rw [hs']
        refine ⟨by rw [hcount], by rw [hcount]; exact hst.size_le, hg⟩
      · rw [hs']; exact h.inputFinished
      · have hsize := stagedMetadata_size hmeta
        refine ⟨fun hsp => ?_, fun hd => ?_⟩
        · have hsp' : stage.isSparse = true := hsp
          have hv := validateSparseExtents_ok (hst.sparse hsp')
          simp only [hsize, Option.map_some, Option.getD_some, planOf, if_pos hsp', List.drop_zero]
          refine ⟨trivial, hv.1.fits, ?_⟩
          have := stage.logicalSize.toNat_lt
          unfold u64Max
          omega
        · have hd' : stage.isSparse = false := hd
          simp [planOf, hd']

theorem agrees_data (h : Rep d tail c) (hr : Ready d c) (hg : d.source.globalChanged = false)
    {remaining pad n : ℕ} (hs : d.source.state = .payload remaining pad)
    (hn : n = min (min remaining d.source.available) d.source.payloadChunkLimit) (hpos : 0 < n)
    (hs' : s' = { d.source with
      cursor := d.source.cursor + n, state := .payload (remaining - n) pad, stageLen := n })
    (hp : d.source.poll = .ok (.data, s')) : Agrees c tail (report d d.source.answer) := by
  have ha : d.source.answer = .ok (.data (d.source.rest.take n), s') := by
    rw [answer, if_neg (by simp [hg]), hp, hs']
    simp only [ok_bind, Nat.add_sub_cancel]
    rfl
  have hlen : (d.source.rest.take n).length = n := by rw [List.length_take, length_rest]; omega
  obtain ⟨p, hc, hcount⟩ := h.source.phase_of_payload hs
  have hpl : Simulation.plan c = some p := by simp [Simulation.plan, hc]
  have hplan := h.plan
  rw [hpl] at hplan
  -- the window is the front of the plan, and the decoder's place after it is the rest
  obtain ⟨p', d1, hp', hadv, hrest⟩ : ∃ p' d1, p = List.replicate n true ++ p' ∧
      ({ d with source := s' } : TarDecoder).advanceSparse n = .ok d1 ∧
      ∃ pos, d1 = { d with source := s', logicalPosition := pos } ∧
        PlanRep { d with logicalPosition := pos } (some p') := by
    by_cases hsp : d.sparseActive = true
    · obtain ⟨h1, h2, h3⟩ := hplan.1 hsp
      obtain h0 | ⟨e, r, he, hoff, hlim⟩ := hr.inExtent hsp
      · rw [hpl] at h0
        cases h0
        simp at hcount
        omega
      · have hend : d.logicalPosition + n ≤ e.end := by omega
        have hidx : d.sparse[d.sparseIndex]? = some e := by
          rw [← List.head?_drop, he]; rfl
        rw [he] at h1 h2
        refine ⟨_, _, h1.trans (planFrom_data hoff hend), ?_, d.logicalPosition + n, rfl,
          fun _ => ⟨by rw [he], ?_, h3⟩, fun hd => absurd hsp (by simp [show d.sparseActive = false from hd])⟩
        · simp only [advanceSparse, hsp, hidx, okOr_some, ok_bind]
          rw [if_neg (by decide), checkedAdd_of_le (hend.trans e.end_le)]
          simp only [okOr_some, ok_bind]
          rw [if_neg (by omega)]
          rfl
        · simp only [he]
          exact ⟨hend, h2.2⟩
    · have hsp' : d.sparseActive = false := by simpa using hsp
      have h1 := hplan.2 hsp'
      refine ⟨List.replicate (remaining - n) true, _, ?_, ?_, d.logicalPosition, rfl,
        fun h0 => absurd h0 hsp, fun _ => by simp⟩
      · rw [h1, hcount, ← List.replicate_add]
        congr 1
        omega
      · simp only [advanceSparse, hsp']
        rfl
  obtain ⟨pos, rfl, hrest⟩ := hrest
  have hst : c.stream = d.source.rest.take n ++ (d.source.rest.drop n ++ tail) := h.source.take_rest n
  have hrep : report d (.ok (.data (d.source.rest.take n), s')) =
      (({ d with source := s', logicalPosition := pos } : TarDecoder).accountData n).map
        fun d' => (.data (d.source.rest.take n), d') := by
    simp only [report, liftError, mapError_ok, ok_bind, handle, hlen, hadv]
    cases ({ d with source := s', logicalPosition := pos } : TarDecoder).accountData n with
    | error e => rfl
    | ok d' => rfl
  rw [ha, hrep]
  rw [hp'] at hc hcount
  obtain ⟨hroom, hacc⟩ | ⟨hbig, e, ho, hacc⟩ := accountData_cases (n := n)
    (d := { d with source := s', logicalPosition := pos }) h.limits h.entryBytes_le
  · rw [hacc]
    have hroom' : c.totalBytes + n ≤ u64Max := by rw [← h.totalBytes]; exact hroom
    have hsteps := steps_data (d.source.rest.take n) hst (by rw [hlen]; exact hc)
      (by rw [hlen]; exact hroom')
    rw [hlen] at hsteps
    have hcount' : p'.count true = remaining - n := by
      rw [List.count_append, List.count_replicate_self] at hcount; omega
    refine .inr ⟨fun he => (by cases he), _, hsteps, h.limits, h.notDone,
    ⟨?_, ?_, ?_, ?_, ?_, ?_, ?_⟩, ?_, h.entries,
      ?_, hroom', Nat.add_le_add_right h.entryBytes_le n, h.metadataBytes, hrest⟩
    · rw [hs']; exact h.source.cursor_le (by omega)
    · rw [hs', rest]
      simp only [drop_rest]
    · rw [hs']; exact h.source.finished
    · rw [hs']; exact h.source.pending
    · rw [hs']; exact h.source.global
    · rw [hs']; exact h.source.globalChanged
    · rw [hs']
      have hph := h.source.phase
      rw [hc] at hph
      refine ⟨by rw [hcount'], ?_, hg⟩
      rw [hcount']
      have := hph.2.1
      rw [hcount] at this
      omega
    · rw [hs']; exact h.inputFinished
    · simp only [h.totalBytes]
  · rw [hacc]
    refine .inr ⟨ho, halts_data_overflow hst (by rw [hlen]; exact hc) h.total_le ?_⟩
    rw [hlen, ← h.totalBytes]
    exact hbig

theorem agrees_endEntry (h : Rep d tail c) (hr : Ready d c) (hg : d.source.globalChanged = false)
    (hs : d.source.state = .payload 0 0) (hs' : s' = { d.source with state := .header })
    (hp : d.source.poll = .ok (.endEntry, s')) : Agrees c tail (report d d.source.answer) := by
  have ha : d.source.answer = .ok (.endEntry, s') := by
    rw [answer, if_neg (by simp [hg]), hp]
    rfl
  obtain ⟨p, hc, hcount⟩ := h.source.phase_of_payload hs
  obtain rfl := plan_eq_nil hr.noHole hc hcount
  have hm : machine c = .next [.endEntry] { c with phase := .header } := by
    simp only [machine, hc, onPayload]
  have hfull : ¬ (d.sparseActive = true ∧ d.logicalPosition ≠ d.logicalSize) := by
    rintro ⟨hsp, hne⟩
    have hplan := h.plan
    simp only [Simulation.plan, hc] at hplan
    obtain ⟨h1, h2, -⟩ := hplan.1 hsp
    have hlen := length_planFrom h2
    rw [← h1] at hlen
    have := h2.le
    simp only [List.length_nil] at hlen
    omega
  rw [ha]
  simp only [report, liftError, mapError_ok, ok_bind, handle]
  rw [if_neg hfull]
  refine .inr ⟨fun he => (by cases he), _, .single hm, h.limits, h.notDone,
    ⟨?_, ?_, ?_, ?_, ?_, ?_, ?_⟩, ?_, h.entries,
    h.totalBytes, h.total_le, h.entryBytes_le, h.metadataBytes, rfl⟩
  · rw [hs']; exact h.source.inBuf
  · rw [hs']; exact h.source.stream
  · rw [hs']; exact h.source.finished
  · rw [hs']; exact h.source.pending
  · rw [hs']; exact h.source.global
  · rw [hs']; exact h.source.globalChanged
  · rw [hs']; rfl
  · rw [hs']; exact h.inputFinished

theorem agrees_done (h : Rep d tail c) (hg : d.source.globalChanged = false)
    (hs : d.source.state = .header) (hw : (d.source.available < BLOCK ∧ d.source.finished = true) ∨
      (BLOCK ≤ d.source.available ∧ d.source.block.all (· == 0)))
    (hp : d.source.poll = .ok (.done, s')) : Agrees c tail (report d d.source.answer) := by
  have ha : d.source.answer = .ok (.done, s') := by
    rw [answer, if_neg (by simp [hg]), hp]
    rfl
  rw [ha]
  refine .inl ⟨rfl, .of_halt ?_⟩
  rw [machine, h.source.phase_of_header hs]
  simp only [onHeader]
  rw [if_neg (by rw [← h.source.globalChanged, hg]; decide), if_pos]
  obtain ⟨hav, hf⟩ | ⟨hav, hz⟩ := hw
  · left
    rw [← h.source.stream, h.source.finished hf, List.append_nil, length_rest]
    exact hav
  · right
    rw [h.source.block hav]
    exact hz

theorem agrees_needInput (h : Rep d tail c) (hg : d.source.globalChanged = false)
    (hf : d.source.finished = false) (hp : d.source.poll = .ok (.needInput, d.source)) :
    Agrees c tail (report d d.source.answer) := by
  have ha : d.source.answer = .ok (.needInput, d.source) := by
    rw [answer, if_neg (by simp [hg]), hp]
    rfl
  rw [ha]
  simp only [report, liftError, mapError_ok, ok_bind, handle]
  rw [if_neg (by rw [h.inputFinished, hf]; decide)]
  exact .inr ⟨fun he => (by cases he), c, .refl c, h.withSource h.source h.inputFinished⟩

/-- **The answer of the source is what the machine does.** -/
theorem agrees_answer (h : Rep d tail c) (hr : Ready d c) (ha : d.source.Answers) :
    Agrees c tail (report d d.source.answer) := by
  by_cases hg : d.source.globalChanged = true
  · exact agrees_globalMetadata h hg
  have hg' : d.source.globalChanged = false := by simpa using hg
  cases hp : d.source.poll with
  | error e => exact agrees_failed h hr hg' hp
  | ok r =>
    obtain ⟨p, s'⟩ := r
    have hpol := polled_of_poll hp
    cases hpol with
    | record => exact absurd hp (ha hg' _)
    | extended => exact absurd hp (ha hg' _)
    | recordData => exact absurd hp (ha hg' _)
    | recordPad => exact absurd hp (ha hg' _)
    | recordEnd => exact absurd hp (ha hg' _)
    | extension => exact absurd hp (ha hg' _)
    | payloadPad => exact absurd hp (ha hg' _)
    | entry size pad stage hs hav hz hrd hx => exact agrees_entry h hg' hs hav hz hrd hx rfl hp
    | lastExtension _ _ _ hs => exact absurd hs (h.source.state_ne_extensions _ _)
    | data remaining pad n hs _ hn hpos => exact agrees_data h hr hg' hs hn hpos rfl hp
    | endEntry hs => exact agrees_endEntry h hr hg' hs rfl hp
    | starved _ hf => exact agrees_needInput h hg' hf hp
    | blocked _ _ _ hl => exact absurd hl (Nat.pos_iff_ne_zero.mp hr.limit_pos)
    | done hs hw => exact agrees_done h hg' hs hw hp
    | alreadyDone hs =>
      have hph := h.source.phase
      cases hc : c.phase with
      | header => rw [hc] at hph; rw [hph] at hs; cases hs
      | record => rw [hc] at hph; rw [hph.1] at hs; cases hs
      | payload => rw [hc] at hph; rw [hph.1] at hs; cases hs

/-! ### Steps -/

/-- The source as a call polls it first, if the call gets that far. -/
def asked (d : TarDecoder) (input : List Byte) (outputLen : ℕ) (eoi : EndOfInput) :
    Option TarSource :=
  match d.sparseHole outputLen with
  | .ok (none, d) =>
    match d.feedInput input with
    | .ok (k, d) => some (d.noteEnd eoi k input.length).source.compact
    | .error _ => none
  | _ => none

/-- The header blocks that a call polls. -/
def PollsHeader (d : TarDecoder) (input : List Byte) (outputLen : ℕ) (eoi : EndOfInput)
    (hdr : List Byte) : Prop :=
  ∃ s s', asked d input outputLen eoi = some s ∧ Silent s s' ∧ s'.globalChanged = false ∧
    s'.state = .header ∧ BLOCK ≤ s'.available ∧ ¬ s'.block.all (· == 0) ∧ s'.block = hdr

/-- A call that polls a header with extension blocks, as the machine sees it. -/
def Extends (d : TarDecoder) (input : List Byte) (outputLen : ℕ) (eoi : EndOfInput) (c : Config) :
    Prop :=
  Halts machine c [] .extended ∧ ∃ hdr, PollsHeader d input outputLen eoi hdr ∧ isExtended hdr

theorem finished_of_silent (hs : Silent s s') : s'.finished = s.finished := by
  refine hs.invariant (P := fun s' => s'.finished = s.finished) rfl ?_
  intro s1 s2 _ hp h
  cases hp <;> exact h

/-- What a call does once it asks the source. -/
theorem agrees_pull (h : Rep d tail c) (hr : Ready d c) :
    Agrees c tail (report d d.source.pull) ∨
      (Halts machine c [] .extended ∧ ∃ s', Silent d.source.compact s' ∧ s'.globalChanged = false ∧
        PollsExtended s') := by
  obtain ⟨s', hsil, hans, hpull⟩ := d.source.pull_eq
  obtain ⟨c', hq, hs'⟩ | hx := silent_sim hsil (SourceRep.compact h.source) hr.noHole
  · left
    have hlim := chunkLimit_of_silent hsil hs'
    have hfin := finished_of_silent hsil
    have hrep : Rep { d with source := s' } tail c' :=
      ⟨h.limits, h.notDone, hs', h.inputFinished.trans hfin.symm, h.entries.trans hq.entries.symm,
        h.totalBytes.trans hq.totalBytes.symm, hq.totalBytes.symm ▸ h.total_le, h.entryBytes_le,
        h.metadataBytes.trans hq.metadataBytes.symm, by rw [hq.plan]; exact h.plan⟩
    have hready : Ready { d with source := s' } c' := by
      refine ⟨hq.noHole hr.noHole, ?_, fun ha => ?_⟩
      · simp only [hlim]; exact hr.limit_pos
      · rw [hq.plan]
        simp only [hlim]
        exact hr.inExtent ha
    rw [hpull]
    exact Agrees.prepend hq.steps (agrees_answer hrep hready hans)
  · exact .inr hx

/-- The agreement of a whole step. -/
def StepAgrees (c : Config) (tail : List Byte) :
    Except ArchiveError (DecodeStep × TarDecoder) → Prop
  | .error e => FailsAs c e
  | .ok (st, d') => (st.event = .done ∧ Halts machine c [] .done) ∨
      (st.event ≠ .done ∧ ∃ c', Steps machine c (atoms st.event) c' ∧
        Rep d' (tail.drop st.consumed) c')

/-- The part of `step` behind the holes. -/
def pulled (d : TarDecoder) (input : List Byte) (eoi : EndOfInput) :
    Except ArchiveError (DecodeStep × TarDecoder) := do
  let (consumed, d) ← d.feedInput input
  let d := d.noteEnd eoi consumed input.length
  let (event, source) ← liftError d.source.pull
  let (event, d) ← ({ d with source } : TarDecoder).handle event
  return (⟨consumed, 0, event⟩, d)

/-- **A step of the decoder is steps of the machine**, whatever was supplied of the stream. -/
theorem step_agrees (h : Rep d (input ++ tail') c) (hout : 0 < outputLen)
    (heoi : eoi = .end → tail' = []) :
    StepAgrees c (input ++ tail') (d.step input outputLen eoi) ∨ Extends d input outputLen eoi c := by
  have hnd : ¬ d.done = true := by simp [h.notDone]
  have hfl : ¬ (d.limits.inFlightBytes.any fun limit => decide (limit < BLOCK)) = true := by
    rw [h.limits]; decide
  rw [step, if_neg hnd, if_neg hfl]
  cases hh : d.sparseHole outputLen with
  | error e => exact .inl (hole_error_sim h hh)
  | ok r =>
    obtain ⟨hole, d1⟩ := r
    cases hole with
    | some st =>
      obtain ⟨hk, ⟨bs, hev⟩, c', hst, hrep⟩ := hole_sim h hout hh
      refine .inl (.inr ⟨by rw [hev]; exact fun he => (by cases he), c', hst, ?_⟩)
      rw [hk, List.drop_zero]
      exact hrep
    | none =>
      obtain ⟨h1, hr1, -⟩ := ready_of_sparseHole h hh
      obtain ⟨k, d2, hfeed, -, -, -, h2, hr2, -⟩ := fed_sim h1 hr1 heoi
      obtain hag | ⟨hx, s', hsil, hg', hpx⟩ := agrees_pull h2 hr2
      · left
        have hstep : pulled d1 input eoi =
            (report (d2.noteEnd eoi k input.length) (d2.noteEnd eoi k input.length).source.pull).map
              fun r => (⟨k, 0, r.1⟩, r.2) := by
          unfold pulled
          rw [hfeed]
          simp only [ok_bind, report]
          cases liftError (d2.noteEnd eoi k input.length).source.pull with
          | error e => rfl
          | ok r =>
            simp only [ok_bind]
            cases ({ d2.noteEnd eoi k input.length with source := r.2 } : TarDecoder).handle r.1 with
            | error e => rfl
            | ok r => rfl
        change StepAgrees c _ (pulled d1 input eoi)
        rw [hstep]
        cases hrp : report (d2.noteEnd eoi k input.length)
            (d2.noteEnd eoi k input.length).source.pull with
        | error e => rw [hrp] at hag; exact hag
        | ok r => rw [hrp] at hag; exact hag
      · refine .inr ⟨hx, s'.block, ⟨_, s', ?_, hsil, hg', hpx.1, hpx.2.1, hpx.2.2.1, rfl⟩,
          hpx.2.2.2⟩
        rw [asked, hh]
        simp only [hfeed]

end LibarchiveOxide.Tar.Refinement
