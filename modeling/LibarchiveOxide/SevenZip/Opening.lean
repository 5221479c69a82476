import LibarchiveOxide.SevenZip.Runs

/-! # Opening an entry

Between entries the live decoder has yielded a prefix of the content of the active folder, and there
is no live decoder only where the active folder cannot be decoded (`Positioned`). So an entry that is
opened stands at its offset in the content of its own folder (`nextEvent_entry`). A folder that is
left has been decoded completely (`Settled`). -/

namespace LibarchiveOxide.SevenZip.Opening

open Core.Failure Core.Metadata Core.Budget Lib Stream.Event SevenZip.Graph SevenZip.Header
open SevenZip.Reader SevenZip.Runs

variable {env : Env} {ch : Chunking} {r s : SevenZSeekReader}

/-- Where the live decoder stands. -/
structure Positioned (env : Env) (r : SevenZSeekReader) : Prop where
  fits : Fits r 0
  decoder : ∀ left, r.input = .decoder left → ∃ k content, r.activeFolder = some k ∧
    env.decode k = .ok content ∧ r.decodedPosition ≤ content.length ∧
    left = content.drop r.decodedPosition
  source : ∀ k folder, r.input = .source → r.activeFolder = some k → r.folders[k]? = some folder →
    folder.isDecodable = false

/-- What opening an entry leaves as it is. -/
structure Frame (r s : SevenZSeekReader) : Prop where
  files : s.files = r.files
  folders : s.folders = r.folders
  nextFile : s.nextFile = r.nextFile
  archiveMetadata : s.archiveMetadata = r.archiveMetadata

theorem Frame.refl (r : SevenZSeekReader) : Frame r r := ⟨rfl, rfl, rfl, rfl⟩

theorem Frame.trans {t : SevenZSeekReader} (h : Frame r s) (h' : Frame s t) : Frame r t :=
  ⟨h'.files.trans h.files, h'.folders.trans h.folders, h'.nextFile.trans h.nextFile,
    h'.archiveMetadata.trans h.archiveMetadata⟩

theorem frame_advance (r : SevenZSeekReader) (left : List Byte) (n : ℕ) (fold : Bool) (k : ℕ) :
    Frame r (advance r left n fold k) := ⟨rfl, rfl, rfl, rfl⟩

theorem Positioned.advance {left : List Byte} {n k : ℕ} {fold : Bool} (h : Positioned env r)
    (hin : r.input = .decoder left) (hn : n ≤ left.length) (hf : Fits r n) :
    Positioned env (advance r left n fold k) where
  fits := fits_advance.mpr hf
  decoder := fun left' hleft => by
    obtain ⟨i, content, hi, hc, hp, rfl⟩ := h.decoder left hin
    have hleft' : content.drop (r.decodedPosition + n) = left' := by
      rw [← List.drop_drop]
      exact SevenInput.decoder.inj hleft
    rw [List.length_drop] at hn
    refine ⟨i, content, hi, hc, ?_, hleft'.symm⟩
    change r.decodedPosition + n ≤ _
    omega
  source := nofun

/-- A reading loop that succeeds has read what it was to read. -/
theorem readLoop_ok {cap n : ℕ} {fold : Bool} {context : String} {left bs : List Byte}
    (hcap : n = 0 ∨ 0 < cap) (hin : r.input = .decoder left) (h0 : Fits r 0)
    (h : readLoop ch cap fold context n n r = .ok (bs, s)) :
    n ≤ left.length ∧ Fits r n ∧ bs = left.take n ∧ ∃ k, s = advance r left n fold k := by
  rcases Nat.eq_zero_or_pos n with rfl | hn
  · cases h
    exact ⟨Nat.zero_le _, h0, List.take_zero.symm, r.reads, (advance_zero hin fold).symm⟩
  · obtain ⟨hok, herr⟩ := readLoop_spec ch (by omega : 0 < cap) fold context n hin h0 le_rfl
    by_cases hfit : n ≤ left.length ∧ Fits r n
    · obtain ⟨k, hk⟩ := hok hfit.1 hfit.2
      rw [hk] at h
      cases h
      exact ⟨hfit.1, hfit.2, rfl, k, rfl⟩
    · obtain ⟨e, he, -⟩ := herr hfit
      rw [he] at h
      cases h

theorem hasDecoder_eq_true : r.hasDecoder = true ↔ ∃ left, r.input = .decoder left := by
  unfold SevenZSeekReader.hasDecoder
  cases r.input with
  | source => exact ⟨nofun, nofun⟩
  | decoder left => exact ⟨fun _ => ⟨left, rfl⟩, fun _ => rfl⟩

theorem hasDecoder_eq_false : r.hasDecoder = false ↔ r.input = .source := by
  unfold SevenZSeekReader.hasDecoder
  cases r.input with
  | source => exact ⟨fun _ => rfl, fun _ => rfl⟩
  | decoder left => exact ⟨nofun, nofun⟩

/-- The decoder of a folder yields as many bytes as its header says. -/
def Settled (env : Env) (folders : List FolderInfo) (k : ℕ) : Prop :=
  ∀ folder content, folders[k]? = some folder → env.decode k = .ok content →
    content.length = folder.unpackSize

/-- The folder `k` is being decoded. -/
def Live (r : SevenZSeekReader) (k : ℕ) : Prop := r.activeFolder = some k ∧ r.hasDecoder = true

/-- Finishing the active folder reads nothing of it, and it has been decoded completely. -/
theorem finalize_ok {u : Unit} (hr : Positioned env r)
    (h : finalizeActiveFolder ch r = .ok (u, s)) :
    (∃ k, s = withReads r k) ∧ ∀ k, Live r k → Settled env r.folders k := by
  unfold finalizeActiveFolder at h
  rw [Parser.bind_of_ok rfl] at h
  cases hactive : r.activeFolder with
  | none =>
    rw [hactive] at h
    cases h
    refine ⟨⟨r.reads, rfl⟩, fun k hk => ?_⟩
    rw [Live, hactive] at hk
    cases hk.1
  | some index =>
    rw [hactive] at h
    dsimp only at h
    by_cases hd : r.hasDecoder = true
    · rw [if_pos hd] at h
      obtain ⟨left, hin⟩ := hasDecoder_eq_true.mp hd
      cases hfolder : r.folders[index]? with
      | none =>
        rw [hfolder] at h
        cases h
      | some folder =>
        rw [hfolder] at h
        dsimp only at h
        by_cases hp : r.decodedPosition ≠ folder.unpackSize
        · rw [guard_of_pos hp] at h
          cases h
        · rw [guard_of_neg hp] at h
          obtain ⟨n, hn, hnl, hpos, ⟨-, hread⟩ | ⟨-, e, he, -⟩⟩ :=
            readDecoded_cases ch hin Nat.one_pos
          · rw [Parser.bind_of_ok hread] at h
            by_cases hx : (!(left.take n).isEmpty) = true
            · rw [if_pos hx] at h
              cases h
            · rw [if_neg hx] at h
              cases h
              have hn0 : n = 0 := by
                by_contra hn0
                have := take_not_isEmpty (Nat.pos_of_ne_zero hn0) hnl
                exact hx (by simpa using this)
              subst hn0
              refine ⟨⟨r.reads + 1, ?_⟩, ?_⟩
              · rw [← advance_zero hin false]
                rfl
              · rintro k ⟨hk, -⟩ folder' content hfolder' hc
                obtain ⟨i, content', hi, hc', hle, rfl⟩ := hr.decoder left hin
                rw [hi] at hactive hk
                cases hactive
                cases hk
                rw [hfolder] at hfolder'
                rw [hc] at hc'
                cases hfolder'
                cases hc'
                have hempty : ¬ content.drop r.decodedPosition ≠ [] := fun hne =>
                  absurd (hpos hne) (lt_irrefl 0)
                have hlen := congrArg List.length (not_not.mp hempty)
                rw [List.length_drop, List.length_nil] at hlen
                have := not_not.mp hp
                omega
          · rw [Parser.bind_of_error he] at h
            cases h
    · rw [if_neg hd] at h
      cases h
      exact ⟨⟨r.reads, rfl⟩, fun k hk => absurd hk.2 hd⟩

/-- The active folder is another one, or still is. -/
theorem setActiveFolder_ok {index : ℕ} {b : Bool} (hr : Positioned env r)
    (h : setActiveFolder env ch index r = .ok (b, s)) :
    Frame r s ∧ Positioned env s ∧ s.activeFolder = some index ∧ s.hasDecoder = b ∧
      ∀ k, Live r k → Live s k ∨ Settled env r.folders k := by
  unfold setActiveFolder at h
  rw [Parser.bind_of_ok rfl] at h
  by_cases hsame : r.activeFolder = some index
  · rw [if_pos hsame] at h
    cases h
    exact ⟨.refl _, hr, hsame, rfl, fun k hk => .inl hk⟩
  · rw [if_neg hsame] at h
    obtain ⟨u, t, hfin, h⟩ := Parser.bind_eq_ok.mp h
    obtain ⟨⟨k, rfl⟩, hsettled⟩ := finalize_ok hr hfin
    rw [Parser.bind_of_ok rfl] at h
    cases hfolder : (withReads r k).folders[index]? with
    | none =>
      rw [hfolder] at h
      cases h
    | some folder =>
      rw [hfolder] at h
      dsimp only at h
      by_cases hp : (folder.isDecodable && folder.isEncrypted && !env.hasPassword) = true
      · rw [guard_of_pos hp] at h
        cases h
      · rw [guard_of_neg hp] at h
        by_cases hd : folder.isDecodable = true
        · rw [if_pos hd] at h
          obtain ⟨content, t, hlift, h⟩ := Parser.bind_eq_ok.mp h
          obtain ⟨hc, rfl⟩ := Parser.lift_eq_ok.mp hlift
          cases h
          refine ⟨⟨rfl, rfl, rfl, rfl⟩, ⟨⟨Nat.zero_le _, hr.fits.2⟩, fun left hleft => ?_, nofun⟩,
            rfl, rfl, fun i hi => .inr (hsettled i hi)⟩
          exact ⟨index, content, rfl, hc, Nat.zero_le _, (SevenInput.decoder.inj hleft).symm⟩
        · rw [if_neg hd] at h
          cases h
          refine ⟨⟨rfl, rfl, rfl, rfl⟩, ⟨⟨Nat.zero_le _, hr.fits.2⟩, nofun, ?_⟩, rfl, rfl,
            fun i hi => .inr (hsettled i hi)⟩
          intro i folder' _ hi hfolder'
          cases hi
          rw [hfolder] at hfolder'
          cases hfolder'
          exact Bool.eq_false_iff.mpr hd

/-- The decoder is moved to an offset of the folder. -/
theorem drainTo_ok {offset : ℕ} {u : Unit} (hr : Positioned env r) (hd : r.hasDecoder = true)
    (h : drainTo ch offset r = .ok (u, s)) :
    Frame r s ∧ Positioned env s ∧ s.activeFolder = r.activeFolder ∧ s.hasDecoder = true ∧
      s.decodedPosition = offset := by
  unfold drainTo at h
  rw [Parser.bind_of_ok rfl] at h
  by_cases hback : offset < r.decodedPosition
  · rw [guard_of_pos hback] at h
    cases h
  · rw [guard_of_neg hback] at h
    obtain ⟨left, hin⟩ := hasDecoder_eq_true.mp hd
    obtain ⟨bs, t, hread, h⟩ := Parser.bind_eq_ok.mp h
    obtain ⟨hl, hf, -, k, rfl⟩ := readLoop_ok (.inr (by decide)) hin hr.fits hread
    cases h
    refine ⟨frame_advance r left _ false k, hr.advance hin hl hf, rfl, rfl, ?_⟩
    change r.decodedPosition + (offset - r.decodedPosition) = offset
    omega

/-- An opened record: it has no stream, or its folder cannot be decoded, or its content, at its
offset in its folder, is the target of a link or still to be read. -/
inductive Opened (env : Env) (record : FileRec) (m : EntryMetadata) (s : SevenZSeekReader) : Prop
  | empty (hs : record.hasStream = false) (hphase : s.phase = .endEntry)
  | unsupported (hs : record.hasStream = true) (hphase : s.phase = .unsupported)
      (hfolder : ∀ k folder, record.folderIndex = some k → s.folders[k]? = some folder →
        folder.isDecodable = false)
  | link (k : ℕ) (content : List Byte) (hs : record.hasStream = true)
      (hkind : record.kind = .symlink) (hk : record.folderIndex = some k)
      (hc : env.decode k = .ok content) (hfit : record.streamOffset + record.size ≤ content.length)
      (htarget : m.linkTarget =
        some ⟨(content.drop record.streamOffset).take record.size, .utf8⟩)
      (hdigest : ∀ e, record.crc = some e →
        env.crc32 ((content.drop record.streamOffset).take record.size) = e)
      (hlive : Live s k) (hphase : s.phase = .endEntry)
  | data (k : ℕ) (content : List Byte) (hs : record.hasStream = true)
      (hkind : record.kind ≠ .symlink) (hk : record.folderIndex = some k)
      (hc : env.decode k = .ok content) (hfit : record.streamOffset ≤ content.length)
      (hin : s.input = .decoder (content.drop record.streamOffset))
      (hcrc : s.entryCrc = record.crc.map fun e => ([], e)) (hlive : Live s k)
      (hphase : s.phase = .data record.size)

theorem utf8Path_ok {raw : List Byte} {path : ArchivePath} (h : utf8Path raw = .ok path) :
    path = ⟨raw, .utf8⟩ := by
  unfold utf8Path at h
  obtain ⟨-, -, h⟩ := Result.bind_eq_ok.mp h
  exact (Except.ok.inj h).symm

theorem verifyEntryCrc_ok {u : Unit} (h : verifyEntryCrc env r = .ok (u, s)) :
    DigestOk env r.entryCrc ∧ s = { r with entryCrc := none } := by
  by_cases hd : DigestOk env r.entryCrc
  · rw [verifyEntryCrc_of_ok hd] at h
    cases h
    exact ⟨hd, rfl⟩
  · rw [verifyEntryCrc_of_not_ok hd] at h
    cases h

variable {record : FileRec}

/-- The target of a link is its window of the folder. -/
theorem hydrate_ok {target : ArchivePath} (hr : Positioned env r) (hd : r.hasDecoder = true)
    (h : hydrate env ch record r = .ok (target, s)) :
    Frame r s ∧ Positioned env s ∧ ∃ k content, r.activeFolder = some k ∧
      env.decode k = .ok content ∧ r.decodedPosition + record.size ≤ content.length ∧
      target = ⟨(content.drop r.decodedPosition).take record.size, .utf8⟩ ∧
      DigestOk env (crcAfter r (content.drop r.decodedPosition) record.size) ∧ Live s k := by
  unfold hydrate at h
  rw [Parser.bind_of_ok rfl] at h
  by_cases hlimit : exceeds record.size r.limits.pathBytes = true
  · rw [guard_of_pos hlimit] at h
    cases h
  · rw [guard_of_neg hlimit] at h
    obtain ⟨left, hin⟩ := hasDecoder_eq_true.mp hd
    obtain ⟨bs, t, hread, h⟩ := Parser.bind_eq_ok.mp h
    obtain ⟨hl, hf, rfl, j, rfl⟩ := readLoop_ok (by omega) hin hr.fits hread
    rw [Parser.bind_of_ok rfl] at h
    obtain ⟨u, t, hverify, h⟩ := Parser.bind_eq_ok.mp h
    obtain ⟨hdigest, rfl⟩ := verifyEntryCrc_ok hverify
    obtain ⟨hpath, hs⟩ := Parser.lift_eq_ok.mp h
    dsimp only at hpath hs
    subst hs
    obtain ⟨k, content, hk, hc, hp, rfl⟩ := hr.decoder left hin
    have hadv : Positioned env (advance r _ record.size false j) := hr.advance hin hl hf
    rw [List.length_drop] at hl
    exact ⟨⟨rfl, rfl, rfl, rfl⟩, ⟨hadv.fits, hadv.decoder, hadv.source⟩, k, content, hk, hc,
      by omega, utf8Path_ok hpath, hdigest, hk, rfl⟩

/-- The decoder is on the folder of the record, if that can be decoded. -/
theorem selectFolder_ok {b : Bool} (hr : Positioned env r)
    (h : selectFolder env ch record r = .ok (b, s)) :
    Frame r s ∧ Positioned env s ∧ (b = true → ∃ k, record.folderIndex = some k ∧
      s.activeFolder = some k ∧ s.hasDecoder = true) ∧
    (b = false → record.hasStream = true → ∀ k folder, record.folderIndex = some k →
      s.folders[k]? = some folder → folder.isDecodable = false) ∧
    ∀ k, Live r k → Live s k ∨ Settled env r.folders k := by
  unfold selectFolder at h
  cases hs : record.hasStream with
  | false =>
    rw [hs] at h
    cases h
    exact ⟨.refl _, hr, nofun, nofun, fun k hk => .inl hk⟩
  | true =>
    rw [hs] at h
    cases hk : record.folderIndex with
    | none =>
      rw [hk] at h
      cases h
      exact ⟨.refl _, hr, nofun, nofun, fun k hk => .inl hk⟩
    | some index =>
      rw [hk] at h
      obtain ⟨hframe, hpos, hactive, hb, hsettled⟩ := setActiveFolder_ok hr h
      refine ⟨hframe, hpos, fun hb' => ⟨index, rfl, hactive, by rw [hb, hb']⟩, ?_, hsettled⟩
      rintro rfl - k folder hk hfolder
      cases hk
      exact hpos.source index folder (hasDecoder_eq_false.mp hb) hactive hfolder

variable {m : EntryMetadata}

/-- Opening a record that has no content to be read. -/
theorem describeRecord_ok {b : Bool} (hb : (record.hasStream && b) = false)
    (h : describeRecord env ch record b r = .ok (m, s)) :
    s = { r with
      entryCrc := none
      phase := if record.hasStream then .unsupported else .endEntry } := by
  unfold describeRecord openRecord at h
  have hlink : (record.hasStream && record.kind == .symlink && b) = false := by
    revert hb
    cases record.hasStream <;> cases b <;> simp
  rw [hlink, hb, Parser.bind_of_ok rfl, if_neg nofun, Parser.bind_of_ok rfl] at h
  obtain ⟨path, t, hpath, h⟩ := Parser.bind_eq_ok.mp h
  obtain ⟨-, ht⟩ := Parser.lift_eq_ok.mp hpath
  cases h
  change s = _ at ht
  rw [ht]
  cases hs : record.hasStream with
  | false => simp
  | true =>
    rw [hs, Bool.true_and] at hb
    simp [hb]

/-- Opening a record whose content is to be read. -/
theorem describeRecord_data (hr : Positioned env r) (hd : r.hasDecoder = true)
    (hs : record.hasStream = true) {k : ℕ} (hk : record.folderIndex = some k)
    (hactive : r.activeFolder = some k) (hoffset : r.decodedPosition = record.streamOffset)
    (h : describeRecord env ch record true r = .ok (m, s)) :
    Frame r s ∧ Positioned env s ∧ Opened env record m s ∧ Live s k := by
  unfold describeRecord openRecord at h
  rw [Parser.bind_of_ok rfl, hs] at h
  by_cases hkind : record.kind = .symlink
  · have hlink : (true && record.kind == .symlink && true) = true := by
      rw [hkind]
      rfl
    rw [if_pos hlink] at h
    obtain ⟨target, t, hopen, h⟩ := Parser.bind_eq_ok.mp h
    obtain ⟨target', t', hhydrate, hopen⟩ := Parser.bind_eq_ok.mp hopen
    obtain ⟨hframe, hpos, i, content, hi, hc, hfit, rfl, hdigest, hlive⟩ := hydrate_ok
      (r := { r with entryCrc := record.crc.map fun e => ([], e) })
      ⟨hr.fits, hr.decoder, hr.source⟩ hd hhydrate
    cases hopen
    obtain ⟨path, t'', hpath, h⟩ := Parser.bind_eq_ok.mp h
    obtain ⟨-, ht⟩ := Parser.lift_eq_ok.mp hpath
    cases h
    dsimp only at ht hi hfit hdigest
    rw [hactive] at hi
    cases hi
    rw [hoffset] at hfit hdigest
    subst ht
    refine ⟨⟨hframe.files, hframe.folders, hframe.nextFile, hframe.archiveMetadata⟩,
      ⟨hpos.fits, hpos.decoder, hpos.source⟩, .link k content hs hkind hk hc hfit ?_ ?_ hlive rfl,
      hlive⟩
    · rw [← hoffset]
      rfl
    · intro e he
      refine hdigest _ e ?_
      unfold crcAfter
      dsimp only
      rw [he]
      rfl
  · have hlink : ¬ (true && record.kind == .symlink && true) = true := by
      simpa using hkind
    rw [if_neg hlink, Parser.bind_of_ok rfl] at h
    obtain ⟨path, t, hpath, h⟩ := Parser.bind_eq_ok.mp h
    obtain ⟨-, ht⟩ := Parser.lift_eq_ok.mp hpath
    cases h
    change s = _ at ht
    obtain ⟨left, hin⟩ := hasDecoder_eq_true.mp hd
    obtain ⟨i, content, hi, hc, hfit, rfl⟩ := hr.decoder left hin
    rw [hactive] at hi
    cases hi
    rw [hoffset] at hfit hin
    subst ht
    exact ⟨⟨rfl, rfl, rfl, rfl⟩, ⟨hr.fits, hr.decoder, hr.source⟩,
      .data k content hs hkind hk hc hfit hin rfl ⟨hactive, hd⟩ rfl, hactive, hd⟩

/-- **Opening a record.** -/
theorem prepareRecord_ok (hr : Positioned env r) (h : prepareRecord env ch record r = .ok (m, s)) :
    Frame r s ∧ Positioned env s ∧ Opened env record m s ∧
      ∀ k, Live r k → Live s k ∨ Settled env r.folders k := by
  unfold prepareRecord at h
  obtain ⟨b, t, hselect, h⟩ := Parser.bind_eq_ok.mp h
  obtain ⟨hframe, hpos, hlive, hdead, hsettled⟩ := selectFolder_ok hr hselect
  by_cases hb : (record.hasStream && b) = true
  · rw [if_pos hb] at h
    obtain ⟨hs, rfl⟩ := Bool.and_eq_true_iff.mp hb
    obtain ⟨k, hk, hactive, hd⟩ := hlive rfl
    obtain ⟨u, t', hdrain, h⟩ := Parser.bind_eq_ok.mp h
    obtain ⟨hframe', hpos', hactive', hd', hoffset⟩ := drainTo_ok hpos hd hdrain
    obtain ⟨hframe'', hpos'', hopened, hlive'⟩ :=
      describeRecord_data hpos' hd' hs hk (hactive'.trans hactive) hoffset h
    refine ⟨(hframe.trans hframe').trans hframe'', hpos'', hopened, fun i hi => ?_⟩
    rcases hsettled i hi with hi | hi
    · rw [Live, hactive] at hi
      cases hi.1
      exact .inl hlive'
    · exact .inr hi
  · rw [if_neg hb] at h
    have hs := describeRecord_ok (Bool.eq_false_iff.mpr hb) h
    subst hs
    refine ⟨⟨hframe.files, hframe.folders, hframe.nextFile, hframe.archiveMetadata⟩,
      ⟨hpos.fits, hpos.decoder, hpos.source⟩, ?_, hsettled⟩
    cases hstream : record.hasStream with
    | false => exact .empty hstream rfl
    | true =>
      rw [hstream, Bool.true_and] at hb
      exact .unsupported hstream rfl (hdead (Bool.eq_false_iff.mpr hb) hstream)

/-- **The next entry** is the next record, opened. -/
theorem nextEvent_entry (hr : Positioned env r) (hphase : r.phase = .idle)
    (hmeta : r.archiveMetadata = none) (h : nextEvent env ch r = .ok (some (.entry m), s)) :
    ∃ record, r.files[r.nextFile]? = some record ∧ s.files = r.files ∧ s.folders = r.folders ∧
      s.nextFile = r.nextFile + 1 ∧ s.archiveMetadata = none ∧ Positioned env s ∧
      Opened env record m s ∧ ∀ k, Live r k → Live s k ∨ Settled env r.folders k := by
  rw [nextEvent_idle hphase hmeta] at h
  cases hfile : r.files[r.nextFile]? with
  | none =>
    rw [hfile] at h
    obtain ⟨u, t, -, h⟩ := Parser.bind_eq_ok.mp h
    cases h
  | some record =>
    rw [hfile] at h
    obtain ⟨m', t, hprepare, h⟩ := Parser.bind_eq_ok.mp h
    cases h
    obtain ⟨hframe, hpos, hopened, hsettled⟩ := prepareRecord_ok
      (r := { r with nextFile := r.nextFile + 1 }) ⟨hr.fits, hr.decoder, hr.source⟩ hprepare
    exact ⟨record, rfl, hframe.files, hframe.folders, hframe.nextFile,
      hframe.archiveMetadata.trans hmeta, hpos, hopened, hsettled⟩

end LibarchiveOxide.SevenZip.Opening
