import LibarchiveOxide.Lib.Result
import LibarchiveOxide.Tar.Decoder

/-! # What the source can do

`Polled` lists the ways a poll can be answered, and `polled_of_poll` says that there are no others.
The loop of `pull` is cut into the polls that ask to be repeated (`Silent`) and the one that answers
(`answer`). -/

namespace LibarchiveOxide.Tar.Source

open Core.Failure Core.Metadata Lib.Result Tar.Header Tar.Pax

namespace TarSource

variable {s s' : TarSource} {p : Poll}

theorem length_rest (s : TarSource) : s.rest.length = s.available := by
  simp [rest, available]

/-- The bytes left after the cursor moved. -/
theorem drop_rest (s : TarSource) (n : ℕ) : s.buf.drop (s.cursor + n) = s.rest.drop n := by
  rw [rest, List.drop_drop]

/-! ### One poll -/

/-- The ways a poll can be answered. -/
inductive Polled (s : TarSource) : Poll → TarSource → Prop
  | record (kind : MetaKind) (data pad : ℕ) (hs : s.state = .header) (ha : BLOCK ≤ s.available)
      (hz : ¬ s.block.all (· == 0))
      (hr : readHeader s.block s.pending s.global = .ok (.record kind data pad)) :
      Polled s .again
        { s with cursor := s.cursor + BLOCK, record := [], state := .record kind data pad }
  | extended (size pad : ℕ) (stage : Stage) (hs : s.state = .header) (ha : BLOCK ≤ s.available)
      (hz : ¬ s.block.all (· == 0))
      (hr : readHeader s.block s.pending s.global = .ok (.entry size pad stage))
      (hx : isExtended s.block) :
      Polled s .again { s with
        pending := {}, stage, payloadChunkLimit := u64Max, cursor := s.cursor + BLOCK
        state := .sparseExtensions size pad }
  | entry (size pad : ℕ) (stage : Stage) (hs : s.state = .header) (ha : BLOCK ≤ s.available)
      (hz : ¬ s.block.all (· == 0))
      (hr : readHeader s.block s.pending s.global = .ok (.entry size pad stage))
      (hx : ¬ isExtended s.block) :
      Polled s .entry { s with
        pending := {}, stage, payloadChunkLimit := u64Max, cursor := s.cursor + BLOCK
        state := .payload size pad }
  | recordData (kind : MetaKind) (data pad n : ℕ) (hs : s.state = .record kind data pad)
      (hn : n = min data s.available) (hpos : 0 < n) :
      Polled s .again { s with
        record := s.record ++ s.rest.take n, cursor := s.cursor + n
        state := .record kind (data - n) pad }
  | recordPad (kind : MetaKind) (pad n : ℕ) (hs : s.state = .record kind 0 pad)
      (hn : n = min pad s.available) (hpos : 0 < n) :
      Polled s .again { s with cursor := s.cursor + n, state := .record kind 0 (pad - n) }
  | recordEnd (kind : MetaKind) (pending global : Overrides) (hs : s.state = .record kind 0 0)
      (hr : recordOverrides kind s.record s.pending s.global = .ok (pending, global)) :
      Polled s .again { s with
        pending, global, globalChanged := s.globalChanged || kind == .paxGlobal
        record := [], state := .header }
  | extension (remaining pad : ℕ) (more : List SparseExtent)
      (hs : s.state = .sparseExtensions remaining pad) (ha : BLOCK ≤ s.available) :
      Polled s .again { s with
        stage := { s.stage with sparse := s.stage.sparse ++ more }, cursor := s.cursor + BLOCK
        state := .sparseExtensions remaining pad }
  | lastExtension (remaining pad : ℕ) (more : List SparseExtent)
      (hs : s.state = .sparseExtensions remaining pad) (ha : BLOCK ≤ s.available)
      (hv : validateSparseExtents (s.stage.sparse ++ more) s.stage.logicalSize.toNat remaining =
        .ok ()) :
      Polled s .entry { s with
        stage := { s.stage with sparse := s.stage.sparse ++ more }, cursor := s.cursor + BLOCK
        state := .payload remaining pad }
  | payloadPad (pad n : ℕ) (hs : s.state = .payload 0 pad) (hn : n = min pad s.available)
      (hpos : 0 < n) :
      Polled s .again { s with cursor := s.cursor + n, state := .payload 0 (pad - n) }
  | data (remaining pad n : ℕ) (hs : s.state = .payload remaining pad) (hr : remaining ≤ u64Max)
      (hn : n = min (min remaining s.available) s.payloadChunkLimit) (hpos : 0 < n) :
      Polled s .data { s with
        cursor := s.cursor + n, state := .payload (remaining - n) pad, stageLen := n }
  | endEntry (hs : s.state = .payload 0 0) : Polled s .endEntry { s with state := .header }
  | starved (hw : s.available < BLOCK) (hf : s.finished = false) (hd : s.state ≠ .done)
      (hp : ∀ remaining pad, s.state = .payload remaining pad → s.available = 0)
      (hr : ∀ kind data pad, s.state = .record kind data pad → s.available = 0) :
      Polled s .needInput s
  | blocked (remaining pad : ℕ) (hs : s.state = .payload remaining pad)
      (hl : s.payloadChunkLimit = 0) : Polled s .needInput s
  | done (hs : s.state = .header) (hw : (s.available < BLOCK ∧ s.finished = true) ∨
        (BLOCK ≤ s.available ∧ s.block.all (· == 0))) : Polled s .done { s with state := .done }
  | alreadyDone (hs : s.state = .done) : Polled s .done s

theorem starved_ok {what : String} (h : s.starved what = .ok (p, s')) :
    p = .needInput ∧ s' = s ∧ s.finished = false := by
  unfold starved at h
  split_ifs at h with hf
  cases h
  exact ⟨rfl, rfl, by simpa using hf⟩

theorem usizeOf_ok {v n : ℕ} (h : usizeOf v = .ok n) : n = v ∧ v ≤ u64Max := by
  unfold usizeOf at h
  split_ifs at h with hv
  cases h
  exact ⟨rfl, hv⟩

theorem polled_of_pollHeader (hs : s.state = .header) (h : s.pollHeader = .ok (p, s')) :
    Polled s p s' := by
  unfold pollHeader at h
  split_ifs at h with h1 h2 h3
  · cases h; exact .done hs (.inl ⟨h1, h2⟩)
  · cases h
    exact .starved h1 (by simpa using h2) (by simp [hs]) (by simp [hs]) (by simp [hs])
  · cases h; exact .done hs (.inr ⟨not_lt.mp h1, h3⟩)
  · obtain ⟨a, hr, he⟩ := bind_eq_ok.mp h
    simp only [pure_eq_ok, Except.ok.injEq] at he
    cases a with
    | record kind data pad => cases he; exact .record kind data pad hs (not_lt.mp h1) h3 hr
    | entry size pad stage =>
      simp only [enter] at he
      split_ifs at he with hx
      · cases he; exact .extended size pad stage hs (not_lt.mp h1) h3 hr hx
      · cases he; exact .entry size pad stage hs (not_lt.mp h1) h3 hr hx

theorem polled_of_pollMeta {kind : MetaKind} {data pad : ℕ} (hs : s.state = .record kind data pad)
    (h : s.pollMeta kind data pad = .ok (p, s')) : Polled s p s' := by
  have hstarved {what : String} (h0 : s.available = 0) (h : s.starved what = .ok (p, s')) :
      Polled s p s' := by
    obtain ⟨rfl, rfl, hf⟩ := starved_ok h
    exact .starved (by rw [h0]; decide) hf (by simp [hs]) (by simp [hs]) fun _ _ _ _ => h0
  unfold pollMeta at h
  split_ifs at h with h1 h2 h3 h4
  · exact hstarved h2 h
  · cases h; exact .recordData kind data pad _ hs rfl (by omega)
  · exact hstarved h4 h
  · cases h
    obtain rfl : data = 0 := by omega
    exact .recordPad kind pad _ hs rfl (by omega)
  · obtain ⟨s1, happ, he⟩ := bind_eq_ok.mp h
    obtain ⟨⟨pending, global⟩, hr, h1⟩ := bind_eq_ok.mp happ
    cases h1
    cases he
    obtain rfl : data = 0 := by omega
    obtain rfl : pad = 0 := by omega
    exact .recordEnd kind pending global hs hr

theorem polled_of_pollSparseExtension {remaining pad : ℕ}
    (hs : s.state = .sparseExtensions remaining pad)
    (h : s.pollSparseExtension remaining pad = .ok (p, s')) : Polled s p s' := by
  unfold pollSparseExtension at h
  split_ifs at h with h1
  · obtain ⟨rfl, rfl, hf⟩ := starved_ok h
    exact .starved h1 hf (by simp [hs]) (by simp [hs]) (by simp [hs])
  · obtain ⟨more, -, he⟩ := bind_eq_ok.mp h
    dsimp only at he
    split_ifs at he with hx
    · cases he; exact .extension remaining pad more hs (not_lt.mp h1)
    · obtain ⟨⟨⟩, hv, he⟩ := bind_eq_ok.mp he
      cases he
      exact .lastExtension remaining pad more hs (not_lt.mp h1) hv

theorem polled_of_pollPayload {remaining pad : ℕ} (hs : s.state = .payload remaining pad)
    (h : s.pollPayload remaining pad = .ok (p, s')) : Polled s p s' := by
  have hstarved {what : String} (h0 : s.available = 0) (h : s.starved what = .ok (p, s')) :
      Polled s p s' := by
    obtain ⟨rfl, rfl, hf⟩ := starved_ok h
    exact .starved (by rw [h0]; decide) hf (by simp [hs]) (fun _ _ _ => h0) (by simp [hs])
  unfold pollPayload at h
  split_ifs at h with h1 h2 h3 h4
  · exact hstarved h2 h
  · obtain ⟨n, hn, he⟩ := bind_eq_ok.mp h
    obtain ⟨rfl, hle⟩ := usizeOf_ok hn
    dsimp only at he
    split_ifs at he with h0
    · cases he; exact .blocked _ pad hs (by omega)
    · cases he; exact .data _ pad _ hs hle rfl (by omega)
  · exact hstarved h4 h
  · cases h
    obtain rfl : remaining = 0 := by omega
    exact .payloadPad pad _ hs rfl (by omega)
  · cases h
    obtain rfl : remaining = 0 := by omega
    obtain rfl : pad = 0 := by omega
    exact .endEntry hs

/-- **Every answered poll is one of the listed ways.** -/
theorem polled_of_poll (h : s.poll = .ok (p, s')) : Polled s p s' := by
  unfold poll at h
  split at h
  · next hs => cases h; exact .alreadyDone hs
  · next hs => exact polled_of_pollHeader hs h
  · next hs => exact polled_of_pollMeta hs h
  · next hs => exact polled_of_pollSparseExtension hs h
  · next hs => exact polled_of_pollPayload hs h

/-- The ways a poll can fail. -/
inductive Failed (s : TarSource) : Error → Prop
  | header (e : Error) (hs : s.state = .header) (ha : BLOCK ≤ s.available)
      (hz : ¬ s.block.all (· == 0)) (hr : readHeader s.block s.pending s.global = .error e) :
      Failed s e
  | record (kind : MetaKind) (data pad : ℕ) (hs : s.state = .record kind data pad)
      (hpos : 0 < data + pad) (ha : s.available = 0) (hf : s.finished = true) :
      Failed s (.malformed "tar: truncated extended header")
  | recordEnd (kind : MetaKind) (e : Error) (hs : s.state = .record kind 0 0)
      (hr : recordOverrides kind s.record s.pending s.global = .error e) : Failed s e
  | extension (remaining pad : ℕ) (e : Error) (hs : s.state = .sparseExtensions remaining pad) :
      Failed s e
  | payload (remaining pad : ℕ) (hs : s.state = .payload remaining pad) (hpos : 0 < remaining)
      (ha : s.available = 0) (hf : s.finished = true) :
      Failed s (.malformed "tar: truncated payload")
  | payloadPad (pad : ℕ) (hs : s.state = .payload 0 pad) (hpos : 0 < pad)
      (ha : s.available = 0) (hf : s.finished = true) :
      Failed s (.malformed "tar: truncated payload padding")
  | oversize (remaining pad : ℕ) (e : Error) (hs : s.state = .payload remaining pad)
      (hbig : u64Max < remaining) : Failed s e

theorem starved_error {what : String} {e : Error} (h : s.starved what = .error e) :
    e = .malformed what ∧ s.finished = true := by
  unfold starved at h
  split_ifs at h with hf
  cases h
  exact ⟨rfl, hf⟩

/-- **Every failed poll is one of the listed ways.** -/
theorem failed_of_poll {e : Error} (h : s.poll = .error e) : Failed s e := by
  unfold poll at h
  split at h
  · cases h
  · next hs =>
    unfold pollHeader at h
    split_ifs at h with h1 h2 h3
    rcases bind_eq_error.mp h with h | ⟨a, -, h⟩
    · exact .header e hs (not_lt.mp h1) h3 h
    · cases h
  · next kind data pad hs =>
    unfold pollMeta at h
    split_ifs at h with h1 h2 h3 h4
    · obtain ⟨rfl, hf⟩ := starved_error h
      exact .record kind data pad hs (by omega) h2 hf
    · obtain ⟨rfl, hf⟩ := starved_error h
      exact .record kind data pad hs (by omega) h4 hf
    · obtain rfl : data = 0 := by omega
      obtain rfl : pad = 0 := by omega
      rcases bind_eq_error.mp h with h | ⟨a, -, h⟩
      · rcases bind_eq_error.mp h with h | ⟨a, -, h⟩
        · exact .recordEnd kind e hs h
        · cases h
      · cases h
  · next hs => exact .extension _ _ e hs
  · next remaining pad hs =>
    unfold pollPayload at h
    split_ifs at h with h1 h2 h3 h4
    · obtain ⟨rfl, hf⟩ := starved_error h
      exact .payload remaining pad hs h1 h2 hf
    · rcases bind_eq_error.mp h with h | ⟨a, -, h⟩
      · unfold usizeOf at h
        split_ifs at h with hbig
        exact .oversize remaining pad e hs (not_le.mp hbig)
      · dsimp only at h
        split_ifs at h <;> cases h
    · obtain ⟨rfl, hf⟩ := starved_error h
      obtain rfl : remaining = 0 := by omega
      exact .payloadPad pad hs h3 h4 hf

/-! ### The loop -/

/-- What one advancing poll uses up. -/
def fuel (s : TarSource) : ℕ :=
  2 * s.available + match s.state with
    | .record .. => 1
    | _ => 0

theorem fuel_lt_of_polled (h : Polled s .again s') : s'.fuel < s.fuel := by
  cases h with
  | record _ _ _ hs ha => simp only [fuel, available, hs, BLOCK] at *; omega
  | extended _ _ _ hs ha => simp only [fuel, available, hs, BLOCK] at *; omega
  | recordData _ _ _ n hs hn => simp only [fuel, available, hs] at *; omega
  | recordPad _ _ n hs hn => simp only [fuel, available, hs] at *; omega
  | recordEnd _ _ _ hs => simp only [fuel, available, hs]; omega
  | extension _ _ _ hs ha => simp only [fuel, available, hs, BLOCK] at *; omega
  | payloadPad _ n hs hn => simp only [fuel, available, hs] at *; omega

/-- Polls that ask to be repeated. -/
inductive Silent : TarSource → TarSource → Prop
  | refl (s : TarSource) : Silent s s
  | head {s s1 s' : TarSource} (hg : s.globalChanged = false) (h : s.poll = .ok (.again, s1))
      (hs : Silent s1 s') : Silent s s'

/-- What the last round of the loop returns. -/
def answer (s : TarSource) : Except Error (TarSourceEvent × TarSource) :=
  if s.globalChanged then
    .ok (.archiveMetadata s.globalMetadata, { s with globalChanged := false })
  else do
    let (p, s) ← s.poll
    match p with
    | .again => return (.needInput, s)
    | .needInput => return (.needInput, s)
    | .done => return (.done, s)
    | .endEntry => return (.endEntry, s)
    | .entry => return (← s.entryEvent, s)
    | .data => return (.data ((s.buf.drop (s.cursor - s.stageLen)).take s.stageLen), s)

/-- A round that does not ask to be repeated. -/
def Answers (s : TarSource) : Prop := s.globalChanged = false → ∀ s', s.poll ≠ .ok (.again, s')

theorem pullLoop_succ_of_again {n : ℕ} (hg : s.globalChanged = false)
    (h : s.poll = .ok (.again, s')) : pullLoop (n + 1) s = pullLoop n s' := by
  rw [pullLoop, hg, h]
  rfl

theorem pullLoop_succ_of_answers {n : ℕ} (h : s.Answers) : pullLoop (n + 1) s = s.answer := by
  rw [pullLoop, answer]
  split_ifs with hg
  · rfl
  · cases hp : s.poll with
    | error e => rfl
    | ok r =>
      obtain ⟨p, s'⟩ := r
      cases p with
      | again => exact absurd hp (h (by simpa using hg) s')
      | _ => rfl

/-- **The loop runs to its answer**, given more rounds than `fuel`. -/
theorem pullLoop_eq : ∀ (n : ℕ) (s : TarSource), s.fuel < n →
    ∃ s', Silent s s' ∧ s'.Answers ∧ pullLoop n s = s'.answer
  | 0, s, h => absurd h (Nat.not_lt_zero _)
  | n + 1, s, h => by
    by_cases ha : s.Answers
    · exact ⟨s, .refl s, ha, pullLoop_succ_of_answers ha⟩
    · simp only [Answers, not_forall, not_not] at ha
      obtain ⟨hg, s1, hp⟩ := ha
      have hlt := fuel_lt_of_polled (polled_of_poll hp)
      obtain ⟨s', hs, ha, he⟩ := pullLoop_eq n s1 (by omega)
      exact ⟨s', .head hg hp hs, ha, by rw [pullLoop_succ_of_again hg hp, he]⟩

/-- **One pull**: silent polls on the compacted buffer, then an answer. -/
theorem pull_eq (s : TarSource) :
    ∃ s', Silent s.compact s' ∧ s'.Answers ∧ s.pull = s'.answer := by
  refine pullLoop_eq _ _ ?_
  unfold fuel
  split <;> omega

/-- What holds before silent polls and is kept by each of them holds after them. -/
theorem Silent.invariant {P : TarSource → Prop} (hs : Silent s s') (h0 : P s)
    (hstep : ∀ {s s'}, s.globalChanged = false → Polled s .again s' → P s → P s') : P s' := by
  induction hs with
  | refl s => exact h0
  | head hg h _ ih => exact ih (hstep hg (polled_of_poll h) h0)

theorem Silent.snoc {s1 s2 : TarSource} (h : Silent s s1) (hg : s1.globalChanged = false)
    (hp : s1.poll = .ok (.again, s2)) : Silent s s2 := by
  induction h with
  | refl => exact .head hg hp (.refl _)
  | head hg1 hp1 _ ih => exact .head hg1 hp1 (ih hg hp)

/-- The polls before the answer are in one order. -/
theorem Silent.of_answers {s1 s2 : TarSource} (h1 : Silent s s1) (h2 : Silent s s2)
    (ha : s2.Answers) : Silent s1 s2 := by
  induction h1 with
  | refl => exact h2
  | head hg hp _ ih =>
    cases h2 with
    | refl => exact absurd hp (ha hg _)
    | head _ hp2 hs2 =>
      rw [hp] at hp2
      cases hp2
      exact ih hs2

end TarSource

/-! ### Staged entries -/

variable {size : ℕ} {global : Overrides} {ev : TarSourceEvent}

/-- What staging has checked about an entry. -/
structure Staged (hdr : List Byte) (pending global : Overrides) (size : ℕ) (stage : Stage) :
    Prop where
  checksum : verifyChecksum hdr = .ok ()
  pending_eq : stage.pending = pending
  isSparse_eq : stage.isSparse = stageIsSparse hdr pending global
  size_le : size ≤ u64Max
  sparse : stage.isSparse = true →
    validateSparseExtents stage.sparse stage.logicalSize.toNat size = .ok ()
  dense : stage.isSparse = false → stage.logicalSize.toNat = size

theorem padding_ok {pad : ℕ} (h : padding size = .ok pad) : size ≤ u64Max := by
  obtain ⟨_, -, h⟩ := bind_eq_ok.mp h
  obtain ⟨_, h1, -⟩ := bind_eq_ok.mp h
  exact (TarSource.usizeOf_ok h1).2

theorem stageSparse_of_dense {hdr : List Byte} {pending : Overrides} {sparse : List SparseExtent}
    {logicalSize : UInt64} (h : stageSparse hdr pending global size = .ok (sparse, logicalSize))
    (hd : stageIsSparse hdr pending global = false) : logicalSize = UInt64.ofNat size := by
  simp only [stageIsSparse, Bool.or_eq_false_iff] at hd
  obtain ⟨⟨⟨h1, h2⟩, h3⟩, -⟩ := hd
  obtain ⟨_, -, h⟩ := bind_eq_ok.mp h
  rw [if_neg (by simpa using h1)] at h
  cases hp : pending.sparseRealsize with
  | some => simp [hp] at h2
  | none =>
    cases hg : global.sparseRealsize with
    | some => simp [hg] at h3
    | none =>
      rw [hp, hg] at h
      cases h
      rfl

theorem staged_of_readHeader {hdr : List Byte} {pending : Overrides} {pad : ℕ} {stage : Stage}
    (h : readHeader hdr pending global = .ok (.entry size pad stage)) :
    Staged hdr pending global size stage := by
  obtain ⟨⟨⟩, hck, h⟩ := bind_eq_ok.mp h
  obtain ⟨_, -, h⟩ := bind_eq_ok.mp h
  split at h
  · obtain ⟨_, -, h⟩ := bind_eq_ok.mp h
    obtain ⟨_, -, h⟩ := bind_eq_ok.mp h
    cases h
  · obtain ⟨⟨size', pad', stage'⟩, hst, h⟩ := bind_eq_ok.mp h
    cases h
    obtain ⟨_, -, hst⟩ := bind_eq_ok.mp hst
    obtain ⟨_, hpad, hst⟩ := bind_eq_ok.mp hst
    obtain ⟨st, hst, he⟩ := bind_eq_ok.mp hst
    cases he
    have hle := padding_ok hpad
    obtain ⟨_, -, hst⟩ := bind_eq_ok.mp hst
    obtain ⟨⟨sparse, logicalSize⟩, hsp, hst⟩ := bind_eq_ok.mp hst
    dsimp only at hst
    split_ifs at hst with hs
    · obtain ⟨⟨⟩, hv, hst⟩ := bind_eq_ok.mp hst
      cases hst
      exact ⟨hck, rfl, rfl, hle, fun _ => hv, fun h0 => by simp [hs] at h0⟩
    · cases hst
      have hs' : stageIsSparse hdr pending global = false := by simpa using hs
      refine ⟨hck, rfl, rfl, hle, fun h0 => absurd h0 hs, fun _ => ?_⟩
      rw [stageSparse_of_dense hsp hs']
      unfold u64Max at hle
      simp only [UInt64.toNat_ofNat']
      omega

/-- The metadata of a staged entry, read from its header block. -/
def stagedMetadata (hdr : List Byte) (stage : Stage) (global : Overrides) :
    Except Error EntryMetadata := do
  return richMetadata stage global (← parseSourceHeader hdr stage.pending global)

/-- The raw records become extended attributes, access-control records and extensions. -/
theorem addPaxMetadata_frame : ∀ (records : List (List Byte × List Byte)) (m : EntryMetadata),
    ∃ xattrs acl extensions, addPaxMetadata m records = { m with xattrs, acl, extensions }
  | [], m => ⟨m.xattrs, m.acl, m.extensions, rfl⟩
  | r :: records, m => by
    obtain ⟨x, a, e, h⟩ := addPaxMetadata_frame records (addPaxRecord m r)
    refine ⟨x, a, e, ?_⟩
    rw [addPaxMetadata, List.foldl_cons]
    refine h.trans ?_
    simp only [addPaxRecord]
    split_ifs <;> rfl

/-- The fields of an entry that the raw records leave alone. -/
theorem richMetadata_fields (stage : Stage) (global : Overrides) (h : ParsedHeader) :
    (richMetadata stage global h).size = some stage.logicalSize ∧
      (richMetadata stage global h).sparse = stage.sparse ∧
      (richMetadata stage global h).path = .fromBytes h.path ∧
      (richMetadata stage global h).mode = some h.mode ∧
      (richMetadata stage global h).owner.uid = some h.uid ∧
      (richMetadata stage global h).owner.gid = some h.gid := by
  unfold richMetadata
  obtain ⟨_, _, _, h1⟩ := addPaxMetadata_frame global.pax (_ : EntryMetadata)
  obtain ⟨_, _, _, h2⟩ := addPaxMetadata_frame stage.pending.pax
    (addPaxMetadata (_ : EntryMetadata) global.pax)
  rw [h2, h1]
  exact ⟨rfl, rfl, rfl, rfl, rfl, rfl⟩

/-- An entry declares its logical size. -/
theorem stagedMetadata_size {hdr : List Byte} {stage : Stage} {m : EntryMetadata}
    (h : stagedMetadata hdr stage global = .ok m) : m.size = some stage.logicalSize := by
  obtain ⟨hd, -, h⟩ := bind_eq_ok.mp h
  cases h
  exact (richMetadata_fields stage global hd).1

/-- The entry event shows what was staged, with the fields of the block it re-reads. -/
theorem TarSource.entryEvent_shown {s : TarSource} (h : s.entryEvent = .ok ev) :
    ∃ hd, parseSourceHeader ((s.buf.drop s.headerStart).take BLOCK) s.stage.pending s.global =
        .ok hd ∧
      ev = .entry (richMetadata s.stage s.global hd) s.stage.sparse s.stage.isSparse := by
  unfold entryEvent at h
  split at h
  · obtain ⟨-, h⟩ := guard_eq_ok.mp h
    obtain ⟨hd, hp, h⟩ := bind_eq_ok.mp h
    cases h
    exact ⟨hd, hp, rfl⟩
  · cases h

/-- The entry event shows the staged metadata, whichever block it re-reads. -/
theorem TarSource.entryEvent_ok {s : TarSource} (h : s.entryEvent = .ok ev) :
    ∃ m, ev = .entry m s.stage.sparse s.stage.isSparse ∧ m.size = some s.stage.logicalSize := by
  obtain ⟨hd, -, rfl⟩ := entryEvent_shown h
  exact ⟨_, rfl, (richMetadata_fields s.stage s.global hd).1⟩

/-- Extension blocks are read for sparse entries only. -/
def TarSource.Flagged (s : TarSource) : Prop :=
  ∀ remaining pad, s.state = .sparseExtensions remaining pad → s.stage.isSparse = true

theorem TarSource.flagged_of_polled {s s' : TarSource} {p : Poll} (h : Polled s p s')
    (hf : s.Flagged) : s'.Flagged := by
  cases h with
  | extended size pad stage _ _ _ hr hx =>
    intro _ _ _
    have hx' : byteAt s.block oTypeflag == chr 'S' := (Bool.and_eq_true _ _ ▸ hx).1
    rw [(staged_of_readHeader hr).isSparse_eq, stageIsSparse, hx']
    rfl
  | extension remaining pad more hs => exact fun _ _ _ => hf remaining pad hs
  | starved => exact hf
  | blocked => exact hf
  | alreadyDone => exact hf
  | _ => exact nofun

/-- What an entry event says about the payload it opens. -/
structure Opens (s : TarSource) (m : EntryMetadata) (sparse : List SparseExtent) (isSparse : Bool)
    (size : UInt64) (remaining : ℕ) : Prop where
  size_eq : m.size = some size
  state_eq : ∃ pad, s.state = .payload remaining pad
  valid : isSparse = true → validateSparseExtents sparse size.toNat remaining = .ok ()

theorem TarSource.opens_of_polled {s s' : TarSource} (h : Polled s .entry s')
    (he : s'.entryEvent = .ok ev) :
    ∃ m sparse isSparse size remaining, ev = .entry m sparse isSparse ∧
      Opens s' m sparse isSparse size remaining ∧
      (s.Flagged → isSparse = false → size.toNat = remaining) := by
  obtain ⟨m, rfl, hsize⟩ := entryEvent_ok he
  cases h with
  | entry size pad stage hs ha hz hr hx =>
    have hst := staged_of_readHeader hr
    exact ⟨m, _, _, _, size, rfl, ⟨hsize, ⟨pad, rfl⟩, hst.sparse⟩, fun _ => hst.dense⟩
  | lastExtension remaining pad more hs ha hv =>
    refine ⟨m, _, _, _, remaining, rfl, ⟨hsize, ⟨pad, rfl⟩, fun _ => hv⟩, fun hf hd => ?_⟩
    exact absurd (hf remaining pad hs) (by simpa using hd)

/-- The ways a pull can be answered. -/
inductive TarSource.Answered (s : TarSource) : TarSourceEvent → TarSource → Prop
  | globalMetadata (hg : s.globalChanged = true) :
      Answered s (.archiveMetadata s.globalMetadata) { s with globalChanged := false }
  | needInput (hg : s.globalChanged = false) (hp : Polled s .needInput s) : Answered s .needInput s
  | done (hg : s.globalChanged = false) (hs : s.state = .header ∨ s.state = .done) :
      Answered s .done { s with state := .done }
  | entry (hg : s.globalChanged = false) {s' : TarSource} {m : EntryMetadata}
      {sparse : List SparseExtent} {isSparse : Bool} {size : UInt64} {remaining : ℕ}
      (hp : Polled s .entry s') (ho : Opens s' m sparse isSparse size remaining)
      (hd : s.Flagged → isSparse = false → size.toNat = remaining) :
      Answered s (.entry m sparse isSparse) s'
  | data (hg : s.globalChanged = false) (remaining pad n : ℕ) (hs : s.state = .payload remaining pad)
      (hn : n = min (min remaining s.available) s.payloadChunkLimit) (hpos : 0 < n) :
      Answered s (.data (s.rest.take n)) { s with
        cursor := s.cursor + n, state := .payload (remaining - n) pad, stageLen := n }
  | endEntry (hg : s.globalChanged = false) (hs : s.state = .payload 0 0) :
      Answered s .endEntry { s with state := .header }

theorem TarSource.answered_of_answer {s s' : TarSource} (ha : s.Answers)
    (h : s.answer = .ok (ev, s')) : Answered s ev s' := by
  unfold answer at h
  split_ifs at h with hg
  · cases h; exact .globalMetadata hg
  · have hg' : s.globalChanged = false := by simpa using hg
    obtain ⟨⟨p, s1⟩, hp, h⟩ := bind_eq_ok.mp h
    have hpol := polled_of_poll hp
    cases p with
    | again => exact absurd hp (ha hg' _)
    | needInput =>
      cases h
      cases hpol with
      | starved hw hf hd hp' hr => exact .needInput hg' (.starved hw hf hd hp' hr)
      | blocked r p hs hl => exact .needInput hg' (.blocked r p hs hl)
    | done =>
      cases h
      cases hpol with
      | done hs => exact .done hg' (.inl hs)
      | alreadyDone hs =>
        have hd := Answered.done hg' (.inr hs)
        have : s = { s with state := .done } := by cases s; cases hs; rfl
        rwa [← this] at hd
    | endEntry => cases h; cases hpol with | endEntry hs => exact .endEntry hg' hs
    | entry =>
      obtain ⟨ev', he, h⟩ := bind_eq_ok.mp h
      cases h
      obtain ⟨m, sparse, isSparse, size, remaining, rfl, ho, hd⟩ := opens_of_polled hpol he
      exact .entry hg' hpol ho hd
    | data =>
      cases h
      cases hpol with
      | data remaining pad n hs _ hn hpos =>
        simp only [Nat.add_sub_cancel]
        exact .data hg' remaining pad n hs hn hpos

/-- **One pull** is silent polls on the compacted buffer and one of the listed answers. -/
theorem TarSource.answered_of_pull {s s' : TarSource} (h : s.pull = .ok (ev, s')) :
    ∃ s1, Silent s.compact s1 ∧ Answered s1 ev s' := by
  obtain ⟨s1, hs, ha, he⟩ := s.pull_eq
  exact ⟨s1, hs, answered_of_answer ha (he.symm.trans h)⟩

/-- The entry event re-reads the block that was just polled. -/
theorem TarSource.entryEvent_eq (s : TarSource) {pad limit : ℕ} {stage : Stage}
    (hin : s.cursor + BLOCK ≤ s.buf.length) (hck : verifyChecksum s.block = .ok ()) :
    ({ s with
      pending := {}, stage, payloadChunkLimit := limit, cursor := s.cursor + BLOCK
      state := .payload size pad } : TarSource).entryEvent =
      (stagedMetadata s.block stage s.global).map fun m => .entry m stage.sparse stage.isSparse := by
  have hblock : (s.buf.drop s.cursor).take BLOCK = s.block := rfl
  have hstart : ({ s with
      pending := {}, stage, payloadChunkLimit := limit, cursor := s.cursor + BLOCK
      state := .payload size pad } : TarSource).headerStart = s.cursor := by
    rw [headerStart, if_pos]
    · exact Nat.add_sub_cancel _ _
    · refine ⟨Nat.le_add_left _ _, hin, ?_⟩
      simp only [Nat.add_sub_cancel, hblock, hck]
      rfl
  simp only [entryEvent, hstart]
  rw [if_neg (by omega), hblock, stagedMetadata]
  cases parseSourceHeader s.block stage.pending s.global with
  | error e => rfl
  | ok m => rfl

end LibarchiveOxide.Tar.Source
