import LibarchiveOxide.Lib.Parser
import LibarchiveOxide.SevenZip.Opening

/-! # Reading and skipping

Two callers that deal differently with the entries of an archive, with decoders that yield their
bytes in different pieces, stay side by side: at each entry their readers differ in the number of
reads only (`Same`). -/

namespace LibarchiveOxide.SevenZip.Skipping

open Core.Failure Core.Metadata Core.Budget Lib Lib.Relational Stream.Event SevenZip.Graph
open SevenZip.Header SevenZip.Reader SevenZip.Runs SevenZip.Opening

/-- Two readers that differ in the number of reads only, within the limits. -/
def Same (r r' : SevenZSeekReader) : Prop := Fits r 0 ∧ ∃ k, r' = withReads r k

/-- The failures are one, or neither of them is of a stored digest. -/
def SameError (e e' : ArchiveError) : Prop := e = e' ∨ (¬ IsDigest e ∧ ¬ IsDigest e')

theorem SameError.refl (e : ArchiveError) : SameError e e := .inl rfl

variable {env : Env} {ch ch' : Chunking} {r r' : SevenZSeekReader}

/-! ### The next entry -/

theorem same_of (h : Fits r 0) (k : ℕ) : Same r (withReads r k) := ⟨h, k, rfl⟩

theorem input_cases (r : SevenZSeekReader) :
    r.input = .source ∨ ∃ left, r.input = .decoder left := by
  cases r.input with
  | source => exact .inl rfl
  | decoder left => exact .inr ⟨left, rfl⟩

theorem agree_fail {α : Type} (kind : ErrorKind) (context : String) {V : α → α → Prop} :
    Agree V Same SameError ((fail kind context : Act α) r) ((fail kind context : Act α) r') :=
  .inl rfl

/-- The guard at the head of two calls. -/
theorem agree_guard {p q : Prop} [Decidable p] [Decidable q] {α β : Type} {kind : ErrorKind}
    {context : String} {V : α → β → Prop} {f : Unit → Act α} {g : Act α} {f' : Unit → Act β}
    {g' : Act β} (hpq : p ↔ q) (hg : ¬ p → Agree V Same SameError (g r) (g' r')) :
    Agree V Same SameError ((if p then fail kind context >>= f else g) r)
      ((if q then fail kind context >>= f' else g') r') := by
  refine .ite hpq (fun _ => ?_) hg
  rw [fail_bind, fail_bind]
  exact .inl rfl

theorem readDecoded_source {amount : ℕ} (hin : r.input = .source) :
    readDecoded ch amount r =
      .error (sevenError .unsupported "payload coder is unsupported") := by
  unfold readDecoded
  rw [Parser.bind_of_ok rfl, hin]
  rfl

theorem readDecoded_agree (h : Same r r') :
    Agree Eq Same SameError (readDecoded ch 1 r) (readDecoded ch' 1 r') := by
  obtain ⟨hf, k, rfl⟩ := h
  rcases input_cases r with hin | ⟨left, hin⟩
  · rw [readDecoded_source hin, readDecoded_source (r := withReads r k) hin]
    exact .inl rfl
  · have hin' : (withReads r k).input = .decoder left := hin
    obtain ⟨m, hm, hml, hmpos, hres⟩ := readDecoded_cases ch hin Nat.one_pos
    obtain ⟨m', hm', hml', hmpos', hres'⟩ := readDecoded_cases ch' hin' Nat.one_pos
    have hmm : m' = m := by
      by_cases hne : left = []
      · rw [hne, List.length_nil] at hml hml'
        omega
      · have := hmpos hne
        have := hmpos' hne
        omega
    subst hmm
    rcases hres with ⟨hfm, hok⟩ | ⟨hfm, e, he, hd⟩
    · rcases hres' with ⟨-, hok'⟩ | ⟨hfm', -⟩
      · rw [hok, hok']
        exact ⟨rfl, fits_advance.mpr hfm, k + 1, rfl⟩
      · exact absurd hfm hfm'
    · rcases hres' with ⟨hfm', -⟩ | ⟨-, e', he', hd'⟩
      · exact absurd hfm' hfm
      · rw [he, he']
        exact .inr ⟨hd, hd'⟩

theorem readLoop_agree {cap n : ℕ} (hcap : n = 0 ∨ 0 < cap) (fold : Bool) (context : String)
    (h : Same r r') :
    Agree Eq Same SameError (readLoop ch cap fold context n n r)
      (readLoop ch' cap fold context n n r') := by
  obtain ⟨hf, k, rfl⟩ := h
  cases n with
  | zero => exact ⟨rfl, hf, k, rfl⟩
  | succ n =>
    have hcap : 0 < cap := by omega
    rcases input_cases r with hin | ⟨left, hin⟩
    · have hs (c : Chunking) {s : SevenZSeekReader} (hin : s.input = .source) :
          readLoop c cap fold context (n + 1) (n + 1) s =
            .error (sevenError .unsupported "payload coder is unsupported") := by
        rw [readLoop, if_neg (Nat.succ_ne_zero n), Parser.bind_of_error (readDecoded_source hin)]
      rw [hs ch hin, hs ch' (s := withReads r k) hin]
      exact .inl rfl
    · have hin' : (withReads r k).input = .decoder left := hin
      obtain ⟨hok, herr⟩ := readLoop_spec ch hcap fold context _ hin hf le_rfl
      obtain ⟨hok', herr'⟩ := readLoop_spec ch' hcap fold context _ hin' hf le_rfl
      by_cases hfit : n + 1 ≤ left.length ∧ Fits r (n + 1)
      · obtain ⟨j, hj⟩ := hok hfit.1 hfit.2
        obtain ⟨j', hj'⟩ := hok' hfit.1 hfit.2
        rw [hj, hj']
        have hf' : Fits (advance r left (n + 1) fold j) 0 := fits_advance.mpr hfit.2
        exact ⟨rfl, hf', j', rfl⟩
      · obtain ⟨e, he, hd⟩ := herr hfit
        obtain ⟨e', he', hd'⟩ := herr' hfit
        rw [he, he']
        exact .inr ⟨hd, hd'⟩

theorem finalize_agree (h : Same r r') :
    Agree Eq Same SameError (finalizeActiveFolder ch r) (finalizeActiveFolder ch' r') := by
  obtain ⟨hf, k, rfl⟩ := h
  unfold finalizeActiveFolder
  refine .get_bind ?_
  rw [withReads_activeFolder]
  cases r.activeFolder with
  | none => exact ⟨rfl, same_of hf k⟩
  | some index =>
    refine .ite Iff.rfl (fun _ => ?_) fun _ => ⟨rfl, same_of hf k⟩
    rw [withReads_folders]
    cases r.folders[index]? with
    | none => exact agree_fail _ _
    | some folder =>
      refine agree_guard Iff.rfl fun _ => (readDecoded_agree (same_of hf k)).bind ?_
      rintro a _ s t rfl hs
      exact .ite Iff.rfl (fun _ => agree_fail _ _) fun _ => ⟨rfl, hs⟩

theorem setActiveFolder_agree (folderIndex : ℕ) (h : Same r r') :
    Agree Eq Same SameError (setActiveFolder env ch folderIndex r)
      (setActiveFolder env ch' folderIndex r') := by
  obtain ⟨hf, k, rfl⟩ := h
  unfold setActiveFolder
  refine .get_bind (.ite Iff.rfl (fun _ => ⟨rfl, same_of hf k⟩) fun _ => ?_)
  refine (finalize_agree (same_of hf k)).bind ?_
  rintro _ _ s _ - ⟨hs, j, rfl⟩
  refine .get_bind ?_
  rw [withReads_folders]
  cases s.folders[folderIndex]? with
  | none => exact agree_fail _ _
  | some folder =>
    have hs' (input : SevenInput) : Fits { s with
        decodedPosition := 0
        activeFolder := some folderIndex
        activeFolderEncrypted := folder.isEncrypted
        input := input } 0 := ⟨Nat.zero_le _, hs.2⟩
    refine agree_guard Iff.rfl fun _ => .ite Iff.rfl (fun _ => ?_) fun _ => ?_
    · refine (Agree.lift (env.decode folderIndex) SameError.refl (same_of hs j)).bind ?_
      rintro bytes _ _ _ rfl -
      exact ⟨rfl, hs' _, j, rfl⟩
    · exact ⟨rfl, hs' _, j, rfl⟩

theorem selectFolder_agree (record : FileRec) (h : Same r r') :
    Agree Eq Same SameError (selectFolder env ch record r) (selectFolder env ch' record r') := by
  unfold selectFolder
  cases record.hasStream with
  | false => exact ⟨rfl, h⟩
  | true =>
    cases record.folderIndex with
    | none => exact ⟨rfl, h⟩
    | some folderIndex => exact setActiveFolder_agree _ h

theorem drainTo_agree (offset : ℕ) (h : Same r r') :
    Agree Eq Same SameError (drainTo ch offset r) (drainTo ch' offset r') := by
  obtain ⟨hf, k, rfl⟩ := h
  unfold drainTo
  refine .get_bind (agree_guard Iff.rfl fun _ => ?_)
  refine (readLoop_agree (.inr (by decide)) false _ (same_of hf k)).bind ?_
  rintro _ _ _ _ - hs
  exact ⟨rfl, hs⟩

theorem verifyEntryCrc_agree (h : Same r r') :
    Agree Eq Same SameError (verifyEntryCrc env r) (verifyEntryCrc env r') := by
  obtain ⟨hf, k, rfl⟩ := h
  unfold verifyEntryCrc
  refine .get_bind ?_
  rw [withReads_entryCrc]
  cases r.entryCrc with
  | none => exact ⟨rfl, same_of hf k⟩
  | some c => exact agree_guard Iff.rfl fun _ => ⟨rfl, hf, k, rfl⟩

theorem hydrate_agree (record : FileRec) (h : Same r r') :
    Agree Eq Same SameError (hydrate env ch record r) (hydrate env ch' record r') := by
  obtain ⟨hf, k, rfl⟩ := h
  unfold hydrate
  refine .get_bind (agree_guard Iff.rfl fun _ => ?_)
  refine (readLoop_agree (by omega) false _ (same_of hf k)).bind ?_
  rintro target _ s _ rfl ⟨hs, j, rfl⟩
  refine .modify_bind ((verifyEntryCrc_agree (r := { s with
    entryCrc := s.entryCrc.map fun c => (c.1 ++ target, c.2) }) ⟨hs, j, rfl⟩).bind ?_)
  rintro _ _ _ _ - ht
  exact .lift _ SameError.refl ht

theorem openRecord_agree (record : FileRec) (hasDecoder : Bool) (h : Same r r') :
    Agree Eq Same SameError (openRecord env ch record hasDecoder r)
      (openRecord env ch' record hasDecoder r') := by
  unfold openRecord
  refine .ite Iff.rfl (fun _ => ?_) fun _ => ?_
  · refine (hydrate_agree record h).bind ?_
    rintro target _ s _ rfl ⟨hs, j, rfl⟩
    exact ⟨rfl, hs, j, rfl⟩
  · obtain ⟨hf, k, rfl⟩ := h
    exact ⟨rfl, hf, k, rfl⟩

theorem describeRecord_agree (record : FileRec) (hasDecoder : Bool) (h : Same r r') :
    Agree Eq Same SameError (describeRecord env ch record hasDecoder r)
      (describeRecord env ch' record hasDecoder r') := by
  obtain ⟨hf, k, rfl⟩ := h
  unfold describeRecord
  refine .modify_bind ((openRecord_agree record hasDecoder (r := { r with
    entryCrc := if record.hasStream && hasDecoder then record.crc.map fun e => ([], e)
      else none }) ⟨hf, k, rfl⟩).bind ?_)
  rintro target _ _ _ rfl ht
  refine (Agree.lift _ SameError.refl ht).bind ?_
  rintro path _ _ _ rfl ht
  exact ⟨rfl, ht⟩

theorem prepareRecord_agree (record : FileRec) (h : Same r r') :
    Agree Eq Same SameError (prepareRecord env ch record r) (prepareRecord env ch' record r') := by
  unfold prepareRecord
  refine (selectFolder_agree record h).bind ?_
  rintro hasDecoder _ s t rfl hs
  refine .ite Iff.rfl (fun _ => ?_) fun _ => describeRecord_agree record hasDecoder hs
  refine (drainTo_agree record.streamOffset hs).bind ?_
  rintro _ _ _ _ - ht
  exact describeRecord_agree record hasDecoder ht

/-- **The next entry** is the same for two readers that differ in their reads only. -/
theorem nextEvent_agree (h : Same r r') (hphase : r.phase = .idle)
    (hmeta : r.archiveMetadata = none) :
    Agree Eq Same SameError (nextEvent env ch r) (nextEvent env ch' r') := by
  obtain ⟨hf, k, rfl⟩ := h
  rw [nextEvent_idle hphase hmeta, nextEvent_idle (r := withReads r k) hphase hmeta,
    withReads_files, withReads_nextFile]
  cases r.files[r.nextFile]? with
  | none =>
    refine (finalize_agree (same_of hf k)).bind ?_
    rintro _ _ s _ - ⟨hs, j, rfl⟩
    exact ⟨rfl, hs, j, rfl⟩
  | some record =>
    refine (prepareRecord_agree (r := { r with nextFile := r.nextFile + 1 }) record
      ⟨hf, k, rfl⟩).bind ?_
    rintro m _ _ _ rfl hs
    exact ⟨rfl, hs⟩

/-! ### An entry -/

variable {body : Option (List Byte)} {t : SevenZSeekReader}

/-- The reader is between two entries, before the `i`th record. -/
structure Between (env : Env) (files : List FileRec) (folders : List FolderInfo) (i : ℕ)
    (r : SevenZSeekReader) : Prop where
  files_eq : r.files = files
  folders_eq : r.folders = folders
  nextFile : r.nextFile = i
  archiveMetadata : r.archiveMetadata = none
  phase : r.phase = .idle
  positioned : Positioned env r

/-- The content of a record cannot be decoded. -/
def Undecodable (folders : List FolderInfo) (record : FileRec) : Prop :=
  record.hasStream = true ∧ ∀ k folder, record.folderIndex = some k → folders[k]? = some folder →
    folder.isDecodable = false

/-- The data of a record that was read to its end, and its link target, are its window of its
folder. -/
def Shows (env : Env) (record : FileRec) (m : EntryMetadata) (bs : List Byte) : Prop :=
  if record.hasStream then
    ∃ k content, record.folderIndex = some k ∧ env.decode k = .ok content ∧
      record.streamOffset + record.size ≤ content.length ∧
      if record.kind = .symlink then bs = [] ∧
        m.linkTarget = some ⟨(content.drop record.streamOffset).take record.size, .utf8⟩
      else bs = (content.drop record.streamOffset).take record.size
  else bs = []

variable {files : List FileRec} {folders : List FolderInfo} {i : ℕ} {record : FileRec}
  {m : EntryMetadata} {s s' : SevenZSeekReader} {choice choice' : Choice}

theorem positioned_closed {left : List Byte} {n j : ℕ} (h : Positioned env s)
    (hin : s.input = .decoder left) (hl : n ≤ left.length) (hf : Fits s n) :
    Positioned env (closed s left n j) := by
  have hadv : Positioned env (advance s left n true j) := h.advance hin hl hf
  exact ⟨hadv.fits, hadv.decoder, hadv.source⟩

/-- An entry that is passed leaves the reader before the next one. -/
theorem processEntry_ok (hs : Opened env record m s) (hpos : Positioned env s)
    (hmeta : s.archiveMetadata = none) (h : processEntry env ch choice s = .ok (body, t)) :
    Between env s.files s.folders s.nextFile t ∧ ∀ bs, body = some bs → Shows env record m bs := by
  cases hs with
  | empty hstream hphase =>
    obtain ⟨body', hok, hbody⟩ := processEntry_endEntry env ch choice hmeta hphase
    rw [hok] at h
    cases h
    refine ⟨⟨rfl, rfl, rfl, hmeta, rfl, ⟨hpos.fits, hpos.decoder, hpos.source⟩⟩, fun bs hbs => ?_⟩
    unfold Shows
    rw [hstream, if_neg nofun]
    exact hbody bs hbs
  | unsupported hstream hphase hfolder =>
    rw [processEntry_unsupported choice hmeta hphase] at h
    by_cases hc : choice = .skipAfter 0
    · rw [if_pos hc] at h
      cases h
      exact ⟨⟨rfl, rfl, rfl, hmeta, rfl, ⟨hpos.fits, hpos.decoder, hpos.source⟩⟩, nofun⟩
    · rw [if_neg hc] at h
      cases h
  | link k content hstream hkind hk hc hfit htarget _ _ hphase =>
    obtain ⟨body', hok, hbody⟩ := processEntry_endEntry env ch choice hmeta hphase
    rw [hok] at h
    cases h
    refine ⟨⟨rfl, rfl, rfl, hmeta, rfl, ⟨hpos.fits, hpos.decoder, hpos.source⟩⟩, fun bs hbs => ?_⟩
    unfold Shows
    rw [if_pos hstream]
    exact ⟨k, content, hk, hc, hfit, by rw [if_pos hkind]; exact ⟨hbody bs hbs, htarget⟩⟩
  | data k content hstream hkind hk hc hfit hin _ _ hphase =>
    have hdata : EntryOutcome env s _ _ _ (processEntry env ch choice s) :=
      processEntry_data choice hin hmeta hphase hpos.fits
    rw [h] at hdata
    cases hdata with
    | passed _ j hl hf hd hbody =>
      refine ⟨⟨rfl, rfl, rfl, hmeta, rfl, positioned_closed hpos hin hl hf⟩, fun bs hbs => ?_⟩
      unfold Shows
      rw [if_pos hstream]
      rw [List.length_drop] at hl
      exact ⟨k, content, hk, hc, by omega, by rw [if_neg hkind]; exact hbody bs hbs⟩

/-- **Two ways of dealing with an entry** agree, unless one of them skips what cannot be decoded and
the other reads it. -/
theorem processEntry_agree (env : Env) (ch ch' : Chunking) (choice choice' : Choice)
    (hs : Opened env record m s) (hmeta : s.archiveMetadata = none)
    (h : Same s s') :
    Agree (fun _ _ => True) Same SameError (processEntry env ch choice s)
      (processEntry env ch' choice' s') ∨
    ((∃ e, processEntry env ch choice s = .error e ∧ ¬ IsDigest e) ∧
      (∃ q, processEntry env ch' choice' s' = .ok q) ∧ Undecodable s.folders record ∧
      choice ≠ .skipAfter 0) ∨
    ((∃ p, processEntry env ch choice s = .ok p) ∧
      ∃ e, processEntry env ch' choice' s' = .error e) := by
  obtain ⟨hf, k, rfl⟩ := h
  have hend (hphase : s.phase = .endEntry) : Agree (fun _ _ => True) Same SameError
      (processEntry env ch choice s) (processEntry env ch' choice' (withReads s k)) := by
    obtain ⟨body, hok, -⟩ := processEntry_endEntry env ch choice hmeta hphase
    obtain ⟨body', hok', -⟩ := processEntry_endEntry env ch' (r := withReads s k)
      choice' hmeta hphase
    rw [hok, hok']
    exact ⟨trivial, hf, k, rfl⟩
  cases hs with
  | empty hstream hphase => exact .inl (hend hphase)
  | link _ _ _ _ _ _ _ _ _ _ hphase => exact .inl (hend hphase)
  | unsupported hstream hphase hfolder =>
    rw [processEntry_unsupported _ hmeta hphase,
      processEntry_unsupported (r := withReads s k) _ hmeta hphase]
    by_cases hc : choice = .skipAfter 0
    · rw [if_pos hc]
      by_cases hc' : choice' = .skipAfter 0
      · rw [if_pos hc']
        exact .inl ⟨trivial, hf, k, rfl⟩
      · rw [if_neg hc']
        exact .inr (.inr ⟨⟨_, rfl⟩, _, rfl⟩)
    · rw [if_neg hc]
      by_cases hc' : choice' = .skipAfter 0
      · rw [if_pos hc']
        exact .inr (.inl ⟨⟨_, rfl, by decide⟩, ⟨_, rfl⟩, ⟨hstream, hfolder⟩, hc⟩)
      · rw [if_neg hc']
        exact .inl (.inl rfl)
  | data i content hstream hkind hk hc hfit hin _ _ hphase =>
    left
    have hdata : EntryOutcome env s _ _ _ (processEntry env ch choice s) :=
      processEntry_data choice hin hmeta hphase hf
    have hdata' : EntryOutcome env (withReads s k) _ _ _
        (processEntry env ch' choice' (withReads s k)) :=
      processEntry_data choice' hin hmeta hphase hf
    generalize processEntry env ch choice s = x at hdata
    generalize processEntry env ch' choice' (withReads s k) = y at hdata'
    cases hdata with
    | passed body j hl hn hd hbody =>
      cases hdata' with
      | passed body' j' => exact ⟨trivial, fits_closed.mpr hn, j', rfl⟩
      | digest hl' hn' hd' => exact absurd hd hd'
      | failed e he hne => exact absurd ⟨hl, hn⟩ he
    | digest hl hn hd =>
      cases hdata' with
      | passed body' j' hl' hn' hd' => exact absurd hd' hd
      | digest hl' hn' hd' => exact .inl rfl
      | failed e he hne => exact absurd ⟨hl, hn⟩ he
    | failed e he hne =>
      cases hdata' with
      | passed body' j' hl' hn' hd' => exact absurd ⟨hl', hn'⟩ he
      | digest hl' hn' hd' => exact absurd ⟨hl', hn'⟩ he
      | failed e' he' hne' => exact .inr ⟨hne, hne'⟩

/-! ### Runs -/

variable {fuel : ℕ} {e : ArchiveError} {body' : Option (List Byte)}

/-- The sequence of the metadata a run came to. -/
def metadataSeq (o : Outcome) : List EntryMetadata := o.entries.map Prod.fst

/-- A run did not stop before the `i`th entry. -/
def Reaches (o : Outcome) (i : ℕ) : Prop := ∀ j e, o.result = .error (j, e) → i ≤ j

variable {choices choices' : ℕ → Choice}

/-- A run goes through its rounds. -/
theorem runFrom_error (h : nextEvent env ch r = .error e) :
    runFrom env ch choices (fuel + 1) i r = ⟨[], .error (i, e)⟩ := by
  rw [runFrom, h]

theorem runFrom_stop {event : Option ReaderEvent} (h : nextEvent env ch r = .ok (event, s))
    (hev : ∀ m, event ≠ some (.entry m)) :
    runFrom env ch choices (fuel + 1) i r = ⟨[], .ok ()⟩ := by
  rw [runFrom, h]
  split
  · rename_i h'
    cases h'
  · rename_i h'
    cases h'
    exact absurd rfl (hev _)
  · rfl

theorem runFrom_fail (h : nextEvent env ch r = .ok (some (.entry m), s))
    (hp : processEntry env ch (choices i) s = .error e) :
    runFrom env ch choices (fuel + 1) i r = ⟨[(m, none)], .error (i, e)⟩ := by
  rw [runFrom, h]
  dsimp only
  rw [hp]

theorem runFrom_pass (h : nextEvent env ch r = .ok (some (.entry m), s))
    (hp : processEntry env ch (choices i) s = .ok (body, t)) :
    runFrom env ch choices (fuel + 1) i r =
      ⟨(m, body) :: (runFrom env ch choices fuel (i + 1) t).entries,
        (runFrom env ch choices fuel (i + 1) t).result⟩ := by
  rw [runFrom, h]
  dsimp only
  rw [hp]

/-- What a round does. -/
inductive Round (env : Env) (ch : Chunking) (choices : ℕ → Choice) (fuel i : ℕ)
    (r : SevenZSeekReader) (o : Outcome) : Prop where
  | stopped (event : Option ReaderEvent) (s : SevenZSeekReader)
      (hnext : nextEvent env ch r = .ok (event, s)) (hev : ∀ m, event ≠ some (.entry m))
      (ho : o = ⟨[], .ok ()⟩)
  | failed (e : ArchiveError) (ho : o = ⟨[], .error (i, e)⟩)
  | broken (m : EntryMetadata) (e : ArchiveError) (ho : o = ⟨[(m, none)], .error (i, e)⟩)
  | passed (m : EntryMetadata) (body : Option (List Byte)) (s t : SevenZSeekReader)
      (hnext : nextEvent env ch r = .ok (some (.entry m), s))
      (hp : processEntry env ch (choices i) s = .ok (body, t))
      (ho : o = ⟨(m, body) :: (runFrom env ch choices fuel (i + 1) t).entries,
        (runFrom env ch choices fuel (i + 1) t).result⟩)

theorem runFrom_round (env : Env) (ch : Chunking) (choices : ℕ → Choice) (i : ℕ)
    (r : SevenZSeekReader) (fuel : ℕ) :
    Round env ch choices fuel i r (runFrom env ch choices (fuel + 1) i r) := by
  cases hnext : nextEvent env ch r with
  | error e => exact .failed e (runFrom_error hnext)
  | ok p =>
    obtain ⟨event, s⟩ := p
    by_cases hev : ∃ m, event = some (.entry m)
    · obtain ⟨m, rfl⟩ := hev
      cases hp : processEntry env ch (choices i) s with
      | error e => exact .broken m e (runFrom_fail hnext hp)
      | ok q => exact .passed m q.1 s q.2 hnext hp (runFrom_pass hnext hp)
    · have hev' (m : EntryMetadata) : event ≠ some (.entry m) := fun hm => hev ⟨m, hm⟩
      exact .stopped event s hnext hev' (runFrom_stop hnext hev')

/-- A run fails at an entry it came to. -/
theorem runFrom_index : ∀ (fuel : ℕ) {i : ℕ} {r : SevenZSeekReader} {j : ℕ} {e : ArchiveError},
    (runFrom env ch choices fuel i r).result = .error (j, e) →
      i ≤ j ∧ (runFrom env ch choices fuel i r).entries.length ≤ j + 1 - i
  | 0, i, r, j, e, h => by cases h
  | fuel + 1, i, r, j, e, h => by
    cases runFrom_round env ch choices i r fuel with
    | stopped event s hnext hev ho =>
      rw [ho] at h
      cases h
    | failed e ho =>
      rw [ho] at h ⊢
      cases h
      exact ⟨le_rfl, Nat.zero_le _⟩
    | broken m e ho =>
      rw [ho] at h ⊢
      cases h
      refine ⟨le_rfl, ?_⟩
      dsimp only [List.length_singleton]
      omega
    | passed m body s t hnext hp ho =>
      rw [ho] at h ⊢
      obtain ⟨hj, hlen⟩ := runFrom_index fuel h
      refine ⟨by omega, ?_⟩
      rw [List.length_cons]
      omega

/-- A record whose content cannot be decoded was not skipped at once. -/
def ReadsUndecodable (files : List FileRec) (folders : List FolderInfo) (choices : ℕ → Choice)
    (i : ℕ) : Prop :=
  ∃ record, files[i]? = some record ∧ Undecodable folders record ∧ choices i ≠ .skipAfter 0

/-- What one run says about another: how far they came, they came to the same entries, the failure
of a digest is one of both, and a failure is one of both, except where the first run read what
cannot be decoded. -/
structure Follows (files : List FileRec) (folders : List FolderInfo) (choices : ℕ → Choice) (i : ℕ)
    (o o' : Outcome) : Prop where
  metadata : ∀ n m, (metadataSeq o)[n]? = some m → Reaches o' (i + n) →
    (metadataSeq o')[n]? = some m
  digest : ∀ j e, o.result = .error (j, e) → IsDigest e → Reaches o' j → o'.result = .error (j, e)
  failure : ∀ j e, o.result = .error (j, e) → Reaches o' j →
    (∃ e', o'.result = .error (j, e')) ∨ ReadsUndecodable files folders choices j

theorem follows_nil (o' : Outcome) : Follows files folders choices i ⟨[], .ok ()⟩ o' where
  metadata := fun n m hm _ => by cases hm
  digest := fun j e h => by cases h
  failure := fun j e h => by cases h

/-- Both runs fail at the `i`th entry. -/
theorem follows_error {l : List (EntryMetadata × Option (List Byte))} {e' : ArchiveError}
    (h : SameError e e') :
    Follows files folders choices i ⟨l, .error (i, e)⟩ ⟨l, .error (i, e')⟩ where
  metadata := fun n m hm _ => hm
  digest := fun j d hj hd _ => by
    cases hj
    rcases h with rfl | ⟨h, -⟩
    · rfl
    · exact absurd hd h
  failure := fun j d hj _ => by
    cases hj
    exact .inl ⟨e', rfl⟩

/-- Both runs pass the `i`th entry. -/
theorem Follows.cons {o o' : Outcome} (h : Follows files folders choices (i + 1) o o') :
    Follows files folders choices i ⟨(m, body) :: o.entries, o.result⟩
      ⟨(m, body') :: o'.entries, o'.result⟩ where
  metadata := fun n m' hm hr => by
    cases n with
    | zero => exact hm
    | succ n =>
      refine h.metadata n m' hm fun j e hj => ?_
      have := hr j e hj
      omega
  digest := h.digest
  failure := h.failure

/-- The second run stops at the `i`th entry, and the first one later, if at all. -/
theorem follows_broken {o : Outcome} (h : Reaches o (i + 1)) :
    Follows files folders choices i ⟨(m, body) :: o.entries, o.result⟩
      ⟨[(m, body')], .error (i, e)⟩ where
  metadata := fun n m' hm hr => by
    cases n with
    | zero => exact hm
    | succ n =>
      have := hr i e rfl
      omega
  digest := fun j d hj _ hr => by
    have := h j d hj
    have := hr i e rfl
    omega
  failure := fun j d hj hr => by
    have := h j d hj
    have := hr i e rfl
    omega

/-- The first run stops at the `i`th entry because it cannot be decoded. -/
theorem broken_follows {o' : Outcome} (he : ¬ IsDigest e)
    (h : ReadsUndecodable files folders choices i) :
    Follows files folders choices i ⟨[(m, body)], .error (i, e)⟩
      ⟨(m, body') :: o'.entries, o'.result⟩ where
  metadata := fun n m' hm _ => by
    cases n with
    | zero => exact hm
    | succ n => cases hm
  digest := fun j d hj hd _ => by
    cases hj
    exact absurd hd he
  failure := fun j d hj _ => by
    cases hj
    exact .inr h

theorem reaches_runFrom (fuel : ℕ) : Reaches (runFrom env ch choices fuel i r) i :=
  fun _ _ h => (runFrom_index fuel h).1

theorem Between.entry (hr : Between env files folders i r)
    (h : nextEvent env ch r = .ok (some (.entry m), s)) :
    ∃ record, files[i]? = some record ∧ s.files = files ∧ s.folders = folders ∧
      s.nextFile = i + 1 ∧ s.archiveMetadata = none ∧ Positioned env s ∧ Opened env record m s ∧
      ∀ k, Live r k → Live s k ∨ Settled env folders k := by
  have hentry := nextEvent_entry hr.positioned hr.phase hr.archiveMetadata h
  rwa [hr.files_eq, hr.folders_eq, hr.nextFile] at hentry

/-- There is no other event between entries than the end, behind the last record. -/
theorem Between.last {event : Option ReaderEvent} (hr : Between env files folders i r)
    (h : nextEvent env ch r = .ok (event, s)) (hev : ∀ m, event ≠ some (.entry m)) :
    files.length ≤ i ∧ ∃ u t, finalizeActiveFolder ch r = .ok (u, t) := by
  rw [nextEvent_idle hr.phase hr.archiveMetadata, hr.files_eq, hr.nextFile] at h
  cases hfile : files[i]? with
  | none =>
    rw [hfile] at h
    obtain ⟨u, t, hfin, -⟩ := Parser.bind_eq_ok.mp h
    exact ⟨List.getElem?_eq_none_iff.mp hfile, u, t, hfin⟩
  | some record =>
    rw [hfile] at h
    obtain ⟨m, t, -, hm⟩ := Parser.bind_eq_ok.mp h
    cases hm
    exact absurd rfl (hev m)

/-- An entry that is passed leaves the reader before the next record. -/
theorem Between.passed (hr : Between env files folders i r)
    (h : nextEvent env ch r = .ok (some (.entry m), s))
    (hp : processEntry env ch choice s = .ok (body, t)) :
    ∃ record, files[i]? = some record ∧ Between env files folders (i + 1) t ∧
      ∀ bs, body = some bs → Shows env record m bs := by
  obtain ⟨record, hfile, hfiles, hfolders, hindex, hmeta, hpos, hopened, -⟩ := hr.entry h
  obtain ⟨hbetween, hshows⟩ := processEntry_ok hopened hpos hmeta hp
  rw [hfiles, hfolders, hindex] at hbetween
  exact ⟨record, hfile, hbetween, hshows⟩

/-- **Runs side by side.** -/
theorem runFrom_follows : ∀ (fuel : ℕ) {i : ℕ} {r r' : SevenZSeekReader}, Same r r' →
    Between env files folders i r →
    Follows files folders choices i (runFrom env ch choices fuel i r)
      (runFrom env ch' choices' fuel i r')
  | 0, _, _, _, _, _ => follows_nil _
  | fuel + 1, i, r, r', hsame, hr => by
    have hnext : Agree Eq Same SameError (nextEvent env ch r) (nextEvent env ch' r') :=
      nextEvent_agree hsame hr.phase hr.archiveMetadata
    cases h : nextEvent env ch r with
    | error e =>
      cases h' : nextEvent env ch' r' with
      | error e' =>
        rw [h, h'] at hnext
        rw [runFrom_error h, runFrom_error h']
        exact follows_error hnext
      | ok q =>
        rw [h, h'] at hnext
        exact hnext.elim
    | ok p =>
      obtain ⟨event, s⟩ := p
      cases h' : nextEvent env ch' r' with
      | error e' =>
        rw [h, h'] at hnext
        exact hnext.elim
      | ok q =>
        obtain ⟨event', s'⟩ := q
        rw [h, h'] at hnext
        obtain ⟨heq, hsame'⟩ := hnext
        dsimp only at heq hsame'
        subst heq
        by_cases hev : ∃ m, event = some (.entry m)
        · obtain ⟨m, rfl⟩ := hev
          obtain ⟨record, hfile, hfiles, hfolders, hindex, hmeta, hpos, hopened, -⟩ := hr.entry h
          have hagree := processEntry_agree env ch ch' (choices i) (choices' i) hopened hmeta hsame'
          cases hp : processEntry env ch (choices i) s with
          | error e =>
            cases hp' : processEntry env ch' (choices' i) s' with
            | error e' =>
              rw [runFrom_fail h hp, runFrom_fail h' hp']
              rw [hp, hp'] at hagree
              rcases hagree with hagree | ⟨-, ⟨q, hq⟩, -⟩ | ⟨⟨p, hp⟩, -⟩
              · exact follows_error hagree
              · cases hq
              · cases hp
            | ok q =>
              rw [runFrom_fail h hp, runFrom_pass h' hp']
              rw [hp, hp'] at hagree
              rcases hagree with hagree | ⟨⟨e, he, hd⟩, -, hundec, hc⟩ | ⟨⟨p, hp⟩, -⟩
              · exact hagree.elim
              · cases he
                rw [hfolders] at hundec
                exact broken_follows hd ⟨record, hfile, hundec, hc⟩
              · cases hp
          | ok p =>
            cases hp' : processEntry env ch' (choices' i) s' with
            | error e' =>
              rw [runFrom_pass h hp, runFrom_fail h' hp']
              exact follows_broken (reaches_runFrom fuel)
            | ok q =>
              rw [runFrom_pass h hp, runFrom_pass h' hp']
              obtain ⟨hbetween, -⟩ := processEntry_ok hopened hpos hmeta hp
              rw [hfiles, hfolders, hindex] at hbetween
              have ih : Follows files folders choices (i + 1)
                  (runFrom env ch choices fuel (i + 1) p.2)
                  (runFrom env ch' choices' fuel (i + 1) q.2) := by
                refine runFrom_follows fuel ?_ hbetween
                rw [hp, hp'] at hagree
                rcases hagree with hagree | ⟨⟨e, he, -⟩, -⟩ | ⟨-, e, he⟩
                · exact hagree.2
                · cases he
                · cases he
              exact ih.cons
        · rw [runFrom_stop h fun m hm => hev ⟨m, hm⟩]
          exact follows_nil _

/-- The data of every entry that was read to its end. -/
theorem runFrom_shows : ∀ (fuel : ℕ) {i : ℕ} {r : SevenZSeekReader},
    Between env files folders i r → ∀ n m bs,
    (runFrom env ch choices fuel i r).entries[n]? = some (m, some bs) →
    ∃ record, files[i + n]? = some record ∧ Shows env record m bs
  | 0, _, _, _, _, _, _, h => by cases h
  | fuel + 1, i, r, hr, n, m, bs, h => by
    cases runFrom_round env ch choices i r fuel with
    | stopped event s hnext hev ho =>
      rw [ho] at h
      cases h
    | failed e ho =>
      rw [ho] at h
      cases h
    | broken m e ho =>
      rw [ho] at h
      cases n with
      | zero => cases h
      | succ n => cases h
    | passed m' body s t hnext hp ho =>
      rw [ho] at h
      obtain ⟨record, hfile, hbetween, hshows⟩ := hr.passed hnext hp
      cases n with
      | zero =>
        cases h
        exact ⟨record, hfile, hshows bs rfl⟩
      | succ n =>
        obtain ⟨record', hfile', hshows'⟩ := runFrom_shows fuel hbetween n m bs h
        exact ⟨record', by rw [← hfile']; congr 1; omega, hshows'⟩

/-- A run that does not fail comes to all entries. -/
theorem runFrom_complete : ∀ (fuel : ℕ) {i : ℕ} {r : SevenZSeekReader},
    Between env files folders i r → i ≤ files.length → files.length < i + fuel →
    (runFrom env ch choices fuel i r).result = .ok () →
    (runFrom env ch choices fuel i r).entries.length = files.length - i
  | 0, _, _, _, _, h, _ => by omega
  | fuel + 1, i, r, hr, hi, hfuel, h => by
    cases runFrom_round env ch choices i r fuel with
    | stopped event s hnext hev ho =>
      have hlen := (hr.last hnext hev).1
      rw [ho, List.length_nil]
      omega
    | failed e ho =>
      rw [ho] at h
      cases h
    | broken m e ho =>
      rw [ho] at h
      cases h
    | passed m body s t hnext hp ho =>
      rw [ho] at h ⊢
      obtain ⟨record, hfile, hbetween, -⟩ := hr.passed hnext hp
      have hlt := (List.getElem?_eq_some_iff.mp hfile).1
      have ih := runFrom_complete fuel hbetween (by omega) (by omega) h
      rw [List.length_cons, ih]
      omega

/-! ### Runs over a layout -/

variable {limits : Limits} {metadata : ArchiveMetadata}

theorem between_opened (env : Env) (limits : Limits) (files : List FileRec)
    (folders : List FolderInfo) (metadata : ArchiveMetadata) : Between env files folders 0
    { opened limits files folders metadata with archiveMetadata := none } :=
  ⟨rfl, rfl, rfl, rfl, rfl, ⟨⟨Nat.zero_le _, Nat.zero_le _, within_zero _⟩, nofun, nofun⟩⟩

/-- A run that reaches the end came to every entry. -/
theorem run_complete (h : (run env ch choices limits files folders metadata).result = .ok ()) :
    (run env ch choices limits files folders metadata).entries.length = files.length :=
  runFrom_complete _ (between_opened env limits files folders metadata) (Nat.zero_le _) (by omega) h

/-- A run that came to an entry did not stop before it. -/
theorem reaches_of_metadata {n : ℕ}
    (h : (metadataSeq (run env ch choices limits files folders metadata))[n]? = some m) :
    Reaches (run env ch choices limits files folders metadata) n := by
  intro j e hj
  have hlen : (run env ch choices limits files folders metadata).entries.length ≤ j + 1 - 0 :=
    (runFrom_index _ hj).2
  have hn := (List.getElem?_eq_some_iff.mp h).1
  unfold metadataSeq at hn
  rw [List.length_map] at hn
  omega

theorem run_follows (env : Env) (ch ch' : Chunking) (choices choices' : ℕ → Choice)
    (limits : Limits) (files : List FileRec) (folders : List FolderInfo)
    (metadata : ArchiveMetadata) :
    Follows files folders choices 0 (run env ch choices limits files folders metadata)
      (run env ch' choices' limits files folders metadata) :=
  runFrom_follows _ ⟨(between_opened env limits files folders metadata).positioned.fits, 0, rfl⟩
    (between_opened env limits files folders metadata)

/-- What a run that does not read what cannot be decoded came to, another run came to as well. -/
theorem metadata_mono (h : ∀ i, ¬ ReadsUndecodable files folders choices' i) {n : ℕ}
    (hm : (metadataSeq (run env ch choices limits files folders metadata))[n]? = some m) :
    (metadataSeq (run env ch' choices' limits files folders metadata))[n]? = some m := by
  have hreach := reaches_of_metadata hm
  refine (run_follows env ch ch' choices choices' limits files folders metadata).metadata n m hm fun j e' hj => ?_
  by_contra hlt
  have hrj : Reaches (run env ch choices limits files folders metadata) j := fun l e hl => by
    have := hreach l e hl
    omega
  rcases (run_follows env ch' ch choices' choices limits files folders metadata).failure j e' hj
      hrj with ⟨e, he⟩ | hread
  · have := hreach j e he
    omega
  · exact h j hread

/-- **Reading and skipping agree**, for any two ways of dealing with the entries and any two ways in
which the decoders yield their bytes: the runs emit the same metadata, up to where one of them stops
because it reads what cannot be decoded; what is read to its end is its window of its folder; and
the failure of a digest is one of every run that comes to the entry. -/
theorem skip_read_agree (env : Env) (ch ch' : Chunking) (choices choices' : ℕ → Choice)
    (limits : Limits) (files : List FileRec) (folders : List FolderInfo)
    (metadata : ArchiveMetadata) :
    let o := run env ch choices limits files folders metadata
    let o' := run env ch' choices' limits files folders metadata
    ((∀ i, ¬ ReadsUndecodable files folders choices i) →
      (∀ i, ¬ ReadsUndecodable files folders choices' i) → metadataSeq o = metadataSeq o') ∧
    (∀ i m, (metadataSeq o)[i]? = some m → Reaches o' i → (metadataSeq o')[i]? = some m) ∧
    (∀ i e, o.result = .error (i, e) → Reaches o' i →
      (∃ e', o'.result = .error (i, e')) ∨ ReadsUndecodable files folders choices i) ∧
    (o.result = .ok () → (metadataSeq o).length = files.length) ∧
    (∀ (i : ℕ) m bs, o.entries[i]? = some (m, some bs) →
      ∃ record, files[i]? = some record ∧ Shows env record m bs) ∧
    (∀ i e, o.result = .error (i, e) → IsDigest e → Reaches o' i →
      o'.result = .error (i, e)) := by
  intro o o'
  have hfollows : Follows files folders choices 0 o o' :=
    run_follows env ch ch' choices choices' limits files folders metadata
  refine ⟨fun h h' => ?_, fun i m hm hr => ?_, hfollows.failure, fun h => ?_, fun i m bs h => ?_,
    hfollows.digest⟩
  · refine List.ext_getElem? fun n => ?_
    cases hn : (metadataSeq o)[n]? with
    | some m => exact (metadata_mono h' hn).symm
    | none =>
      cases hn' : (metadataSeq o')[n]? with
      | some m =>
        rw [metadata_mono h hn'] at hn
        cases hn
      | none => rfl
  · refine hfollows.metadata i m hm ?_
    rw [Nat.zero_add]
    exact hr
  · unfold metadataSeq
    rw [List.length_map]
    exact run_complete h
  · obtain ⟨record, hfile, hshows⟩ := runFrom_shows _ (between_opened env limits files folders metadata) i m bs h
    rw [Nat.zero_add] at hfile
    exact ⟨record, hfile, hshows⟩

/-- A folder with a coder that is not known. -/
def unknownFolder : FolderInfo where
  graph := ⟨[⟨.unsupported, 1, 1⟩], [], [0]⟩
  packOffset := 0
  packSizes := [1]
  unpackSize := 1
  outputSizes := [1]
  decodeOrder := [0]
  substreamSizes := [1]
  substreamCrcs := [none]

/-- A record, with the byte of the unknown folder or empty. -/
def namedRecord (name : String) (hasStream : Bool) : FileRec where
  name := bstr name
  kind := .file
  mode := 0o644
  times := {}
  anti := false
  startPosition := none
  hasStream := hasStream
  folderIndex := if hasStream then some 0 else none
  streamOffset := 0
  size := if hasStream then 1 else 0
  crc := none

/-- A decoder that yields as much as there is room for. -/
def eager : Chunking := ⟨fun _ n => n, fun _ _ h => h⟩

/-- Reading the file that cannot be decoded ends the run before the second file; skipping it does
not. -/
theorem metadata_differs_undecodable :
    ∃ (env : Env) (files : List FileRec) (folders : List FolderInfo) (metadata : ArchiveMetadata),
      validateSeekLayout {} files folders .unlimited = .ok () ∧
      (metadataSeq (run env eager (fun _ => .readAll) .unlimited files folders metadata)).map
        (fun m => m.path.raw) = [bstr "a"] ∧
      (metadataSeq (run env eager (fun _ => .skipAfter 0) .unlimited files folders metadata)).map
        (fun m => m.path.raw) = [bstr "a", bstr "b"] :=
  ⟨{ crc32 := fun _ => 0, decode := fun _ => .ok [] },
    [namedRecord "a" true, namedRecord "b" false], [unknownFolder], {}, by decide +kernel,
    by decide +kernel, by decide +kernel⟩

end LibarchiveOxide.SevenZip.Skipping
