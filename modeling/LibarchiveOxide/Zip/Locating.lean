import LibarchiveOxide.Zip.EndRecord
import LibarchiveOxide.Zip.Lengths

/-! # The end record of a finished archive

The encoder counts the bytes it hands out (`Written`), so what it knows about the central directory
when it stages its last records is true of the bytes before them: a finished archive ends with them. -/

namespace LibarchiveOxide.Zip.Locating

open Core.Failure Core.Metadata Core.Budget Core.Protocol Core.Encode Zip.Fields Zip.Encoder
open Zip.Lengths Zip.EndRecord

variable {κ α : Type} {codecs : Codecs κ α} {e e' : ZipStreamEncoder κ α} {entry : OpenEntry κ α}

/-! ### The offset counts the output -/

variable {n : ℕ} {produced : List Byte} {s : EncodeStep}

/-- The offset went on by `n`. -/
structure Moved (e e' : ZipStreamEncoder κ α) (n : ℕ) : Prop where
  offset : e'.offset = e.offset + n
  fits : e.offset ≤ u64Max → e'.offset ≤ u64Max
  archiveComment : e'.archiveComment = e.archiveComment

theorem Moved.refl (e : ZipStreamEncoder κ α) : Moved e e 0 := ⟨rfl, fun h => h, rfl⟩

theorem moved_advanceOffset (h : advanceOffset e n = (e', .ok ())) :
    Moved e e' n ∧ e'.phase = e.phase := by
  unfold advanceOffset at h
  cases hc : checkedAdd e.offset n with
  | none =>
    rw [hc] at h
    cases h
  | some offset =>
    rw [hc] at h
    cases h
    obtain ⟨rfl, hle⟩ := checkedAdd_eq_some.mp hc
    exact ⟨⟨rfl, fun _ => hle, rfl⟩, rfl⟩

theorem moved_drainPending {out : List Byte} (h : drainPending e n = (e', .ok out)) :
    Moved e e' out.length ∧ e'.phase = e.phase ∧ e'.records = e.records ∧
      out ++ e'.pending = e.pending := by
  unfold drainPending at h
  dsimp only at h
  cases hc : checkedAdd e.offset (e.pending.take n).length with
  | none =>
    rw [hc] at h
    cases h
  | some offset =>
    rw [hc] at h
    cases h
    obtain ⟨rfl, hle⟩ := checkedAdd_eq_some.mp hc
    exact ⟨⟨rfl, fun _ => hle, rfl⟩, rfl, rfl, List.take_append_drop n e.pending⟩

theorem moved_accountInput {count : ℕ} (h : accountInput e count = (e', .ok ())) :
    Moved e e' 0 ∧ e'.phase = e.phase := by
  unfold accountInput at h
  cases hc : checkedAdd e.totalInput count with
  | none =>
    rw [hc] at h
    cases h
  | some total =>
    rw [hc] at h
    dsimp only at h
    split_ifs at h
    · cases h
    · cases h
      exact ⟨⟨rfl, fun hf => hf, rfl⟩, rfl⟩

theorem moved_finishData {data : List Byte} {consumed : ℕ}
    (h : finishData e entry data n consumed produced = (e', .ok s)) :
    Moved e e' s.produced.length ∧ ∃ entry', e'.phase = .open entry' := by
  unfold finishData at h
  dsimp only at h
  by_cases hlimit : exceeds entry.uncompressedSize e.limits.entryBytes = true
  · rw [if_pos hlimit] at h
    cases h
  rw [if_neg hlimit] at h
  rcases hinput : accountInput { e with phase := .open entry } consumed with ⟨e1, _ | _⟩
  · rw [hinput] at h
    cases h
  rw [hinput] at h
  dsimp only at h
  rcases hoffset : advanceOffset e1 produced.length with ⟨e2, _ | _⟩
  · rw [hoffset] at h
    cases h
  rw [hoffset] at h
  dsimp only at h
  obtain ⟨h1, hp1⟩ := moved_accountInput hinput
  obtain ⟨h2, hp2⟩ := moved_advanceOffset hoffset
  split_ifs at h <;> cases h
  all_goals
    exact ⟨⟨h2.offset.trans (congrArg (· + _) h1.offset), fun hf => h2.fits (h1.fits hf),
      h2.archiveComment.trans h1.archiveComment⟩, entry, hp2.trans hp1⟩

theorem moved_writeData {data : List Byte} (hp : e.phase = .open entry)
    (h : writeData codecs e data n = (e', .ok s)) :
    Moved e e' s.produced.length ∧ ∃ entry', e'.phase = .open entry' := by
  unfold writeData at h
  rw [hp] at h
  dsimp only at h
  by_cases hempty : data = []
  · rw [if_pos hempty] at h
    cases h
    exact ⟨.refl e, entry, hp⟩
  rw [if_neg hempty] at h
  rcases hstep : compressStep codecs entry.compressor data n with ⟨_ | ⟨consumed, produced⟩, compressor⟩
  · rw [hstep] at h
    cases h
  rw [hstep] at h
  dsimp only at h
  generalize encryptProduced codecs { entry with compressor := compressor } produced = r at h
  obtain ⟨out, entry1⟩ := r
  unfold accountData at h
  dsimp only at h
  cases huncompressed : checkedAdd entry1.uncompressedSize consumed with
  | none =>
    rw [huncompressed] at h
    cases h
  | some uncompressed =>
    rw [huncompressed] at h
    dsimp only at h
    cases hcompressed : checkedAdd entry1.compressedSize out.length with
    | none =>
      rw [hcompressed] at h
      cases h
    | some compressed =>
      rw [hcompressed] at h
      exact moved_finishData h

theorem moved_growCompressed {entry' : OpenEntry κ α}
    (h : growCompressed e entry produced = (e', .ok entry')) :
    Moved e e' produced.length ∧ ∃ entry', e'.phase = .open entry' := by
  unfold growCompressed at h
  cases hsize : checkedAdd entry.compressedSize produced.length with
  | none =>
    rw [hsize] at h
    cases h
  | some size =>
    rw [hsize] at h
    dsimp only at h
    rcases hoffset : advanceOffset { e with phase := .open { entry with compressedSize := size } }
      produced.length with ⟨e1, _ | _⟩
    · rw [hoffset] at h
      cases h
    · rw [hoffset] at h
      cases h
      obtain ⟨hm, hp⟩ := moved_advanceOffset hoffset
      exact ⟨⟨hm.offset, hm.fits, hm.archiveComment⟩, _, hp⟩

theorem moved_closeEntry (h : closeEntry codecs e entry produced = (e', .ok s)) :
    Moved e e' 0 ∧ s.produced = produced ∧ e'.phase = .ready := by
  unfold closeEntry at h
  dsimp only at h
  by_cases hsize : (entry.expectedSize.any fun size =>
      decide (size.toNat ≠ entry.uncompressedSize)) = true
  · rw [if_pos hsize] at h
    cases h
  rw [if_neg hsize] at h
  by_cases hfits : (!fitsHeader entry) = true
  · rw [if_pos hfits] at h
    cases h
  rw [if_neg hfits] at h
  cases hauth : authenticate codecs entry with
  | error error =>
    rw [hauth] at h
    cases h
  | ok r =>
    obtain ⟨authentication, entry1⟩ := r
    rw [hauth] at h
    dsimp only at h
    by_cases hfits' : (!fitsHeader entry1) = true
    · rw [if_pos hfits'] at h
      cases h
    rw [if_neg hfits'] at h
    unfold queue at h
    dsimp only at h
    by_cases hpending : e.pending ≠ []
    · rw [if_pos hpending] at h
      cases h
    rw [if_neg hpending] at h
    cases h
    exact ⟨⟨rfl, fun hf => hf, rfl⟩, rfl, rfl⟩

/-- Between entries or inside one. -/
def Early (e : ZipStreamEncoder κ α) : Prop := e.phase = .ready ∨ ∃ entry, e.phase = .open entry

/-- A payload that ends with its last piece. -/
theorem moved_growing {e1 : ZipStreamEncoder κ α} {entry1 : OpenEntry κ α} {out : List Byte}
    (hgrow : growCompressed e entry out = (e1, .ok entry1))
    (h : closeEntry codecs e1 entry1 out = (e', .ok s)) :
    Moved e e' s.produced.length ∧ Early e' := by
  obtain ⟨hm, -⟩ := moved_growCompressed hgrow
  obtain ⟨hm', hproduced, hready⟩ := moved_closeEntry h
  rw [hproduced]
  exact ⟨⟨hm'.offset.trans hm.offset, fun hf => hm'.fits (hm.fits hf),
    hm'.archiveComment.trans hm.archiveComment⟩, .inl hready⟩

theorem moved_endEntry (hp : e.phase = .open entry) (h : endEntry codecs e n = (e', .ok s)) :
    Moved e e' s.produced.length ∧ Early e' := by
  have hother (compressor : Compressor κ) (h : endOther codecs e entry compressor n = (e', .ok s)) :
      Moved e e' s.produced.length ∧ Early e' := by
    unfold endOther at h
    rcases hfinish : finishStep codecs compressor n with ⟨_ | ⟨written, finished⟩, compressor1⟩
    · rw [hfinish] at h
      cases h
    rw [hfinish] at h
    dsimp only at h
    rcases hgrow : growCompressed e { entry with compressor := compressor1 } written with
      ⟨e1, _ | entry1⟩
    · rw [hgrow] at h
      cases h
    rw [hgrow] at h
    obtain ⟨hm, hopen⟩ := moved_growCompressed hgrow
    cases finished with
    | true => exact moved_growing hgrow h
    | false =>
      cases h
      exact ⟨hm, .inr hopen⟩
  have hdeflated (k : κ) (h : endDeflated codecs e entry k n = (e', .ok s)) :
      Moved e e' s.produced.length ∧ Early e' := by
    unfold endDeflated at h
    rcases hfinish : deflateFinish codecs k n with ⟨_ | ⟨produced, status⟩, k1⟩
    · rw [hfinish] at h
      cases h
    rw [hfinish] at h
    dsimp only at h
    generalize encryptProduced codecs { entry with compressor := .deflate k1 } produced = r at h
    obtain ⟨out, entry1⟩ := r
    dsimp only at h
    rcases hgrow : growCompressed e entry1 out with ⟨e1, _ | entry2⟩
    · rw [hgrow] at h
      cases h
    rw [hgrow] at h
    obtain ⟨hm, hopen⟩ := moved_growCompressed hgrow
    cases status with
    | done => exact moved_growing hgrow h
    | needOutput =>
      cases h
      exact ⟨hm, .inr hopen⟩
    | needInput => cases h
  unfold endEntry at h
  rw [hp] at h
  dsimp only at h
  cases hc : entry.compressor with
  | deflate k =>
    rw [hc] at h
    exact hdeflated k h
  | store =>
    rw [hc] at h
    exact hother _ h
  | bzip2 k =>
    rw [hc] at h
    exact hother _ h
  | zstd k =>
    rw [hc] at h
    exact hother _ h
  | lzma k sink =>
    rw [hc] at h
    exact hother _ h
  | lzmaTail tail =>
    rw [hc] at h
    exact hother _ h

/-! ### The last records -/

/-- The bytes end with the last records for what is before them. -/
def EndsWith (e : ZipStreamEncoder κ α) (image : List Byte) : Prop :=
  ∃ pre size start, image = pre ++ finalRecords e.records.length size start e.archiveComment ∧
    pre.length = start + size ∧ start + size ≤ u64Max

/-- What is known about an encoder that has handed out these bytes. -/
structure Written (e : ZipStreamEncoder κ α) (out : List Byte) : Prop where
  offset : e.offset = out.length
  fits : e.offset ≤ u64Max
  central : ∀ next start, e.phase = .central next start → start ≤ e.offset
  final : e.phase = .finalBytes → EndsWith e (out ++ e.pending)
  done : e.phase = .done → EndsWith e out

variable {out : List Byte}

theorem Written.of_early {bs : List Byte} (h : Written e out) (hm : Moved e e' n)
    (hn : n = bs.length) (he : Early e') : Written e' (out ++ bs) where
  offset := by rw [hm.offset, h.offset, List.length_append, hn]
  fits := hm.fits h.fits
  central := fun next start hp => by
    rcases he with he | ⟨entry, he⟩ <;> · rw [he] at hp; cases hp
  final := fun hp => by
    rcases he with he | ⟨entry, he⟩ <;> · rw [he] at hp; cases hp
  done := fun hp => by
    rcases he with he | ⟨entry, he⟩ <;> · rw [he] at hp; cases hp

theorem Written.drained {bs : List Byte} (h : Written e out) (hp : e.phase ≠ .done)
    (hd : drainPending e n = (e', .ok bs)) :
    Written e' (out ++ bs) ∧ e'.archiveComment = e.archiveComment := by
  obtain ⟨hm, hphase, hrecords, hpending⟩ := moved_drainPending hd
  have hends (image : List Byte) (hi : EndsWith e image) : EndsWith e' image := by
    obtain ⟨pre, size, start, heq, hrest⟩ := hi
    exact ⟨pre, size, start, by rw [heq, hrecords, hm.archiveComment], hrest⟩
  refine ⟨⟨?_, hm.fits h.fits, ?_, ?_, ?_⟩, hm.archiveComment⟩
  · rw [hm.offset, h.offset, List.length_append]
  · intro next start hc
    rw [hm.offset]
    exact (h.central next start (hphase ▸ hc)).trans (Nat.le_add_right _ _)
  · intro hf
    rw [List.append_assoc, hpending]
    exact hends _ (h.final (hphase ▸ hf))
  · intro hdone
    exact absurd (hphase ▸ hdone) hp

theorem written_stageNext {next start : ℕ} (h : Written e out) (hstart : start ≤ e.offset)
    (hs : stageNext e next start = (e', .ok ())) :
    Written e' out ∧ e'.phase ≠ .done ∧ e'.archiveComment = e.archiveComment := by
  have hqueue {phase : Phase κ α} {bytes : List Byte}
      (hq : queue { e with phase := phase } bytes = (e', .ok ())) :
      e' = { e with phase := phase, pending := bytes } := by
    unfold queue at hq
    split_ifs at hq
    · cases hq
    · exact (Prod.mk.inj hq).1.symm
  unfold stageNext at hs
  cases hr : e.records[next]? with
  | some record =>
    rw [hr] at hs
    cases hqueue hs
    refine ⟨⟨h.offset, h.fits, fun next' start' hc => ?_, nofun, nofun⟩, nofun, rfl⟩
    cases hc
    exact hstart
  | none =>
    rw [hr] at hs
    cases hqueue hs
    have hfits := h.fits
    refine ⟨⟨h.offset, h.fits, nofun, fun _ => ?_, nofun⟩, nofun, rfl⟩
    exact ⟨out, e.offset - start, start, rfl, by rw [← h.offset]; omega, by omega⟩

theorem written_finishReady {next start : ℕ} (h : Written e out) (hstart : start ≤ e.offset)
    (hf : finishReady e next start n = (e', .ok s)) :
    Written e' (out ++ s.produced) ∧ e'.archiveComment = e.archiveComment := by
  unfold finishReady at hf
  rcases hstage : stageNext e next start with ⟨e1, _ | _⟩
  · rw [hstage] at hf
    cases hf
  rw [hstage] at hf
  dsimp only at hf
  obtain ⟨hw, hphase, hcomment⟩ := written_stageNext h hstart hstage
  rcases hd : drainPending e1 n with ⟨e2, _ | bs⟩
  · rw [hd] at hf
    cases hf
  · rw [hd] at hf
    cases hf
    obtain ⟨hw', hcomment'⟩ := hw.drained hphase hd
    exact ⟨hw', hcomment'.trans hcomment⟩

/-- **A step** keeps the account of the bytes that were handed out. -/
theorem written_step {c : EncodeCommand} (h : Written e out)
    (hs : step codecs e c n = (e', .ok s)) :
    Written e' (out ++ s.produced) ∧ e'.archiveComment = e.archiveComment := by
  by_cases hdone : e.phase = .done
  · unfold step at hs
    rw [hdone] at hs
    cases c <;> cases hs
    exact ⟨by rwa [List.append_nil], rfl⟩
  by_cases hpending : e.pending ≠ []
  · have hstep : step codecs e c n = ((drainPending e n).1,
        (drainPending e n).2.map fun out => ⟨0, out, .needOutput⟩) := by
      unfold step
      rw [if_pos hpending]
      rcases drainPending e n with ⟨e1, _ | bs⟩ <;>
      cases hphase : e.phase with
      | done => exact absurd hphase hdone
      | ready => rfl
      | «open» entry => rfl
      | central next start => rfl
      | finalBytes => rfl
    rw [hstep] at hs
    rcases hd : drainPending e n with ⟨e1, _ | bs⟩
    · rw [hd] at hs
      cases hs
    · rw [hd] at hs
      cases hs
      exact h.drained hdone hd
  have hstep : step codecs e c n = command codecs e c n := by
    unfold step
    rw [if_neg hpending]
    cases hphase : e.phase with
    | done => exact absurd hphase hdone
    | ready => rfl
    | «open» entry => rfl
    | central next start => rfl
    | finalBytes => rfl
  rw [hstep] at hs
  cases c with
  | beginEntry m =>
    unfold command at hs
    dsimp only at hs
    rcases hb : beginEntry codecs e m with ⟨e1, _ | _⟩
    · rw [hb] at hs
      cases hs
    rw [hb] at hs
    dsimp only at hs
    obtain ⟨f, entry, hbegan⟩ := beginEntry_eq_ok hb
    rcases hd : drainPending e1 n with ⟨e2, _ | bs⟩
    · rw [hd] at hs
      cases hs
    rw [hd] at hs
    cases hs
    obtain ⟨hm, hphase, -, -⟩ := moved_drainPending hd
    have hmoved : Moved e e' bs.length := ⟨by rw [hm.offset, hbegan.offset], fun hf => hm.fits (by
      rwa [hbegan.offset]), hm.archiveComment.trans hbegan.archiveComment⟩
    exact ⟨h.of_early hmoved rfl (.inr ⟨entry, hphase.trans hbegan.phase⟩), hmoved.archiveComment⟩
  | data data =>
    change writeData codecs e data n = _ at hs
    cases hphase : e.phase with
    | «open» entry =>
      obtain ⟨hm, hopen⟩ := moved_writeData hphase hs
      exact ⟨h.of_early hm rfl (.inr hopen), hm.archiveComment⟩
    | ready => unfold writeData at hs; rw [hphase] at hs; cases hs
    | central next start => unfold writeData at hs; rw [hphase] at hs; cases hs
    | finalBytes => unfold writeData at hs; rw [hphase] at hs; cases hs
    | done => exact absurd hphase hdone
  | endEntry =>
    change endEntry codecs e n = _ at hs
    cases hphase : e.phase with
    | «open» entry =>
      obtain ⟨hm, hearly⟩ := moved_endEntry hphase hs
      exact ⟨h.of_early hm rfl hearly, hm.archiveComment⟩
    | ready => unfold endEntry at hs; rw [hphase] at hs; cases hs
    | central next start => unfold endEntry at hs; rw [hphase] at hs; cases hs
    | finalBytes => unfold endEntry at hs; rw [hphase] at hs; cases hs
    | done => exact absurd hphase hdone
  | finish =>
    change finishArchive e n = _ at hs
    have hempty : e.pending = [] := not_not.mp hpending
    unfold finishArchive at hs
    cases hphase : e.phase with
    | ready =>
      rw [hphase] at hs
      exact written_finishReady h le_rfl hs
    | central next start =>
      rw [hphase] at hs
      exact written_finishReady h (h.central next start hphase) hs
    | finalBytes =>
      rw [hphase] at hs
      cases hs
      have hends := h.final hphase
      rw [hempty, List.append_nil] at hends
      rw [List.append_nil]
      exact ⟨⟨h.offset, h.fits, fun _ _ he => (by cases he), fun he => (by cases he), fun _ => hends⟩,
        rfl⟩
    | «open» entry =>
      rw [hphase] at hs
      cases hs
    | done => exact absurd hphase hdone

/-- Calls of an encoder that succeed, with any commands and buffers, and the bytes they produce. -/
inductive Calls (codecs : Codecs κ α) (e : ZipStreamEncoder κ α) :
    List Byte → ZipStreamEncoder κ α → Prop
  | nil : Calls codecs e [] e
  | call {out : List Byte} {e1 e2 : ZipStreamEncoder κ α} {c : EncodeCommand} {n : ℕ}
      {s : EncodeStep} (h : Calls codecs e out e1) (hs : step codecs e1 c n = (e2, .ok s)) :
      Calls codecs e (out ++ s.produced) e2

theorem written_calls (h0 : Written e []) (h : Calls codecs e out e') :
    Written e' out ∧ e'.archiveComment = e.archiveComment := by
  induction h with
  | nil => exact ⟨h0, rfl⟩
  | call _ hs ih =>
    obtain ⟨hw, hc⟩ := written_step ih.1 hs
    exact ⟨hw, hc.trans ih.2⟩

theorem setArchiveMetadata_eq_ok {metadata : ArchiveMetadata}
    (h : setArchiveMetadata e metadata = (e', .ok ())) :
    Written e' [] ∧ e'.archiveComment = metadata.comment.getD [] ∧
      (metadata.comment.getD []).length ≤ u16Sentinel := by
  unfold setArchiveMetadata at h
  cases hphase : e.phase with
  | ready =>
    rw [hphase] at h
    dsimp only at h
    split_ifs at h with hearly hlength hlimit
    · cases h
    · cases h
    · cases h
    · cases h
      simp only [Bool.or_eq_true, not_or, decide_eq_true_eq, not_not] at hearly
      obtain ⟨⟨-, hoffset⟩, -⟩ := hearly
      exact ⟨⟨hoffset, hoffset.trans_le (Nat.zero_le _), nofun, nofun, nofun⟩, rfl,
        Nat.le_of_not_lt hlength⟩
  | «open» entry =>
    rw [hphase] at h
    cases h
  | central next start =>
    rw [hphase] at h
    cases h
  | finalBytes =>
    rw [hphase] at h
    cases h
  | done =>
    rw [hphase] at h
    cases h

/-- **The end record of a finished archive** is found, with its comment, exactly if its signature
does not occur again in it. -/
theorem findsLast_calls_iff {metadata : ArchiveMetadata} {e0 : ZipStreamEncoder κ α}
    {image : List Byte} {limits : Limits} (hset : setArchiveMetadata e0 metadata = (e, .ok ()))
    (hcalls : Calls codecs e image e') (hdone : e'.phase = .done)
    (hlimits : exceeds (metadata.comment.getD []).length limits.metadataBytes = false) :
    ∃ pre size start, image =
        pre ++ finalRecords e'.records.length size start (metadata.comment.getD []) ∧
      pre.length = start + size ∧
      (FindsLast image limits (metadata.comment.getD []) ↔ ¬ signature <:+:
        (endRecord e'.records.length size start (metadata.comment.getD [])).tail) := by
  obtain ⟨hw0, hcomment, hlength⟩ := setArchiveMetadata_eq_ok hset
  obtain ⟨hw, hkept⟩ := written_calls hw0 hcalls
  obtain ⟨pre, size, start, himage, hpre, hmax⟩ := hw.done hdone
  rw [hkept, hcomment] at himage
  refine ⟨pre, size, start, himage, hpre, ?_⟩
  rw [himage]
  exact findsLast_iff hlength hlimits hpre hmax

/-- The metadata of an archive with a comment. -/
def commented (comment : List Byte) : ArchiveMetadata := { comment := some comment }

/-- An encoder of an archive with this comment, before the first call. -/
def withComment (comment : List Byte) : ZipStreamEncoder Unit Unit :=
  { fresh with archiveComment := comment }

/-- The encoder of an archive without entries, when it is done. -/
def finished (comment : List Byte) : ZipStreamEncoder Unit Unit :=
  { withComment comment with
    phase := .done
    offset := eocdMin + comment.length }

theorem setArchiveMetadata_fresh {comment : List Byte} (h : comment.length ≤ u16Sentinel) :
    setArchiveMetadata fresh (commented comment) = (withComment comment, .ok ()) := by
  have hlimit : ¬ u16Sentinel < ((commented comment).comment.getD []).length := Nat.not_lt.mpr h
  unfold setArchiveMetadata
  rw [show fresh.phase = .ready from rfl]
  dsimp only
  rw [if_neg (by exact Bool.false_ne_true), if_neg hlimit, if_neg (by exact Bool.false_ne_true)]
  rfl

/-- An archive without entries is its end record. -/
theorem calls_empty {comment : List Byte} (h : comment.length ≤ u16Sentinel) :
    Calls storing (withComment comment) (endRecord 0 0 0 comment) (finished comment) := by
  have hlength := length_endRecord 0 0 0 comment
  have hmax : u64Max = 18446744073709551615 := rfl
  have hsentinel : u16Sentinel = 65535 := rfl
  have hmin : eocdMin = 22 := rfl
  have hfinal : finalRecords 0 0 0 comment = endRecord 0 0 0 comment := by
    unfold finalRecords
    rw [if_neg (by decide), List.nil_append]
  have hstage : stageNext (withComment comment) 0 0 =
      ({ withComment comment with phase := .finalBytes, pending := endRecord 0 0 0 comment },
        .ok ()) := by
    rw [← hfinal]
    rfl
  obtain ⟨drained, hdrained⟩ : ∃ drained : ZipStreamEncoder Unit Unit, drained =
    { withComment comment with phase := .finalBytes, offset := eocdMin + comment.length } := ⟨_, rfl⟩
  have hdrain : drainPending ({ withComment comment with
      phase := .finalBytes, pending := endRecord 0 0 0 comment } : ZipStreamEncoder Unit Unit)
      (endRecord 0 0 0 comment).length = (drained, .ok (endRecord 0 0 0 comment)) := by
    unfold drainPending
    dsimp only
    rw [List.take_length, List.drop_length, hlength, show (withComment comment).offset = 0 from rfl,
      checkedAdd_of_le (by omega), Nat.zero_add, hdrained]
    rfl
  have hfirst : step storing (withComment comment) .finish (endRecord 0 0 0 comment).length =
      (drained, .ok ⟨0, endRecord 0 0 0 comment, .needOutput⟩) := by
    change finishReady (withComment comment) 0 0 (endRecord 0 0 0 comment).length = _
    unfold finishReady
    rw [hstage]
    dsimp only
    rw [hdrain]
  have hlast : step storing drained .finish 0 = (finished comment, .ok ⟨1, [], .done⟩) := by
    rw [hdrained]
    rfl
  have hcalls := Calls.call (Calls.call (@Calls.nil _ _ storing _) hfirst) hlast
  rwa [List.nil_append, List.append_nil] at hcalls

/-- A comment without a signature. -/
def remark : List Byte := [0x68, 0x69]

theorem findsLast_remark : ∃ pre size start, endRecord 0 0 0 remark =
      pre ++ finalRecords (finished remark).records.length size start
        ((commented remark).comment.getD []) ∧ pre.length = start + size ∧
    (FindsLast (endRecord 0 0 0 remark) .unlimited ((commented remark).comment.getD []) ↔
      ¬ signature <:+: (endRecord (finished remark).records.length size start
        ((commented remark).comment.getD [])).tail) :=
  findsLast_calls_iff (setArchiveMetadata_fresh (by decide)) (calls_empty (by decide)) rfl rfl

/-- An archive comment that is a signature hides the end record. -/
theorem signature_hides : ∃ e e' image,
    setArchiveMetadata fresh (commented signature) = (e, .ok ()) ∧ Calls storing e image e' ∧
      e'.phase = .done ∧ ¬ FindsLast image .unlimited signature := by
  refine ⟨_, _, _, setArchiveMetadata_fresh (by decide), calls_empty (by decide), rfl, ?_⟩
  have hiff : FindsLast ([] ++ finalRecords 0 0 0 signature) .unlimited signature ↔ _ :=
    findsLast_iff (by decide) rfl rfl (by decide)
  have hfinal : finalRecords 0 0 0 signature = endRecord 0 0 0 signature := by decide
  rw [List.nil_append, hfinal] at hiff
  rw [hiff]
  decide

end LibarchiveOxide.Zip.Locating
