import LibarchiveOxide.Lib.Slice
import LibarchiveOxide.Zip.Encoder

/-! # The length fields of ZIP headers

The fields that `begin_entry` gathers stay the same until the entry is closed (`Kept`), so the lengths
that it checks are the ones of both headers. It checks the name before it appends the slash of a
directory: a directory whose name has 65535 bytes without a slash is written with 65536 of them. -/

namespace LibarchiveOxide.Zip.Lengths

open Core.Failure Core.Metadata Core.Budget Core.Protocol Core.Encode Lib Lib.LittleEndian Lib.Slice
open Zip.Fields Zip.Encoder

variable {κ α : Type} {codecs : Codecs κ α} {e e' : ZipStreamEncoder κ α}

/-! ### Length fields -/

/-- A local header says how long its name and its extra fields are. -/
def LocalExact (header name extra rest : List Byte) : Prop :=
  ∃ fixed : List Byte, fixed.length = 30 ∧ header = fixed ++ (name ++ (extra ++ rest)) ∧
    leValue (window fixed 26 28) = name.length ∧ leValue (window fixed 28 30) = extra.length

/-- A central header says how long its name, its extra fields and its comment are. -/
def CentralExact (header name extra comment : List Byte) : Prop :=
  ∃ fixed : List Byte, fixed.length = 46 ∧ header = fixed ++ (name ++ (extra ++ comment)) ∧
    leValue (window fixed 28 30) = name.length ∧ leValue (window fixed 30 32) = extra.length ∧
    leValue (window fixed 32 34) = comment.length

theorem fieldU16_of_le {n : ℕ} (h : n ≤ u16Sentinel) : fieldU16 n = n := if_pos h

theorem fieldU16_le (n : ℕ) : fieldU16 n ≤ u16Sentinel := by
  unfold fieldU16
  split_ifs with h
  · exact h
  · exact le_rfl

/-- A length field in its place. -/
theorem leValue_field {pre post : List Byte} {a b v : ℕ} (ha : pre.length = a) (hb : b = a + 2)
    (hv : v ≤ u16Sentinel) : leValue (window (pre ++ (leBytes 2 v ++ post)) a b) = v := by
  have hsentinel : u16Sentinel = 65535 := rfl
  rw [window, List.drop_left' ha, hb, Nat.add_sub_cancel_left, List.take_left' (length_leBytes 2 v),
    leValue_leBytes_of_lt (by omega)]

theorem length_localZip64 (b : Bool) : (localZip64 b).length = if b then 20 else 0 := by
  cases b <;> rfl

/-- The part of a local header before its name. -/
def localFixed (version flags method dosTime dosDate : ℕ) (zip64Size : Bool)
    (nameLength extraLength : ℕ) : List Byte :=
  leBytes 4 localSignature ++ leBytes 2 version ++ leBytes 2 flags ++ leBytes 2 method ++
    leBytes 2 dosTime ++ leBytes 2 dosDate ++ leBytes 4 0 ++
    leBytes 4 (if zip64Size then u32Sentinel else 0) ++
    leBytes 4 (if zip64Size then u32Sentinel else 0) ++ (leBytes 2 (fieldU16 nameLength) ++
    (leBytes 2 (fieldU16 extraLength) ++ []))

/-- A local header is exact unless one of its lengths was clamped. -/
theorem localExact_iff (version flags method dosTime dosDate : ℕ) (zip64Size : Bool)
    (name extra rest : List Byte) :
    LocalExact (localHeader version flags method dosTime dosDate zip64Size name extra ++ rest) name
      (localZip64 zip64Size ++ extra) rest ↔
      name.length ≤ u16Sentinel ∧ (localZip64 zip64Size ++ extra).length ≤ u16Sentinel := by
  have hextra : extra.length + (if zip64Size then 20 else 0) =
      (localZip64 zip64Size ++ extra).length := by
    rw [List.length_append, length_localZip64, Nat.add_comm]
  obtain ⟨fixed, hfixed⟩ : ∃ fixed, fixed = localFixed version flags method dosTime dosDate zip64Size
    name.length (localZip64 zip64Size ++ extra).length := ⟨_, rfl⟩
  have hlength : fixed.length = 30 := by
    rw [hfixed]
    simp [localFixed]
  have heq : localHeader version flags method dosTime dosDate zip64Size name extra ++ rest =
      fixed ++ (name ++ ((localZip64 zip64Size ++ extra) ++ rest)) := by
    rw [hfixed, localHeader, localFixed, hextra]
    simp only [List.append_assoc, List.append_nil]
  have hname : leValue (window fixed 26 28) = fieldU16 name.length := by
    rw [hfixed, localFixed]
    exact leValue_field (by simp) rfl (fieldU16_le _)
  have hextraField : leValue (window fixed 28 30) =
      fieldU16 (localZip64 zip64Size ++ extra).length := by
    rw [hfixed, localFixed, ← List.append_assoc]
    exact leValue_field (by simp) rfl (fieldU16_le _)
  constructor
  · rintro ⟨fixed', hlength', heq', hn, hx⟩
    have hsame : fixed' = fixed := by
      rw [heq] at heq'
      exact (List.append_inj_left heq' (hlength.trans hlength'.symm)).symm
    rw [hsame] at hn hx
    rw [← hn, hname, ← hx, hextraField]
    exact ⟨fieldU16_le _, fieldU16_le _⟩
  · rintro ⟨hn, hx⟩
    exact ⟨fixed, hlength, heq, hname.trans (fieldU16_of_le hn),
      hextraField.trans (fieldU16_of_le hx)⟩

/-- A central header whose lengths fit is exact. -/
theorem centralExact_of_le {r : CentralRecord} (hn : r.name.length ≤ u16Sentinel)
    (hx : r.centralExtra.length ≤ u16Sentinel) (hc : r.comment.length ≤ u16Sentinel) :
    CentralExact r.bytes r.name r.centralExtra r.comment := by
  obtain ⟨pre, hpre⟩ : ∃ pre, pre = leBytes 4 centralSignature ++ leBytes 2 0x031e ++
    leBytes 2 r.centralVersion ++ leBytes 2 r.flags ++ leBytes 2 r.method ++ leBytes 2 r.dosTime ++
    leBytes 2 r.dosDate ++ leBytes 4 r.crc.toNat ++
    leBytes 4 (if r.sizeZip64 then u32Sentinel else fieldU32 r.compressedSize) ++
    leBytes 4 (if r.sizeZip64 then u32Sentinel else fieldU32 r.uncompressedSize) := ⟨_, rfl⟩
  obtain ⟨post, hpost⟩ : ∃ post, post = leBytes 2 0 ++ leBytes 2 0 ++
    leBytes 4 r.externalAttributes ++
    leBytes 4 (if r.offsetZip64 then u32Sentinel else fieldU32 r.localOffset) := ⟨_, rfl⟩
  have hprelen : pre.length = 28 := by
    rw [hpre]
    simp
  refine ⟨pre ++ (leBytes 2 r.name.length ++ (leBytes 2 r.centralExtra.length ++
    (leBytes 2 r.comment.length ++ post))), ?_, ?_, ?_, ?_, ?_⟩
  · rw [hpost]
    simp [hprelen]
  · unfold CentralRecord.bytes
    rw [fieldU16_of_le hn, fieldU16_of_le hx, fieldU16_of_le hc]
    simp only [hpre, hpost, List.append_assoc]
  · exact leValue_field hprelen rfl hn
  · have hlength : (pre ++ leBytes 2 r.name.length).length = 30 := by
      rw [List.length_append, hprelen, length_leBytes]
    rw [← List.append_assoc]
    exact leValue_field hlength rfl hx
  · have hlength : (pre ++ leBytes 2 r.name.length ++ leBytes 2 r.centralExtra.length).length =
        32 := by
      rw [List.length_append, List.length_append, hprelen, length_leBytes, length_leBytes]
    rw [← List.append_assoc, ← List.append_assoc]
    exact leValue_field hlength rfl hc

/-! ### An open entry keeps its fields -/

/-- What the headers say about an entry is the same. -/
structure Kept (entry entry' : OpenEntry κ α) : Prop where
  name : entry'.name = entry.name
  comment : entry'.comment = entry.comment
  extra : entry'.extra = entry.extra
  zip64Size : entry'.zip64Size = entry.zip64Size
  localOffset : entry'.localOffset = entry.localOffset

theorem Kept.refl (entry : OpenEntry κ α) : Kept entry entry := ⟨rfl, rfl, rfl, rfl, rfl⟩

theorem Kept.trans {a b c : OpenEntry κ α} (h : Kept a b) (h' : Kept b c) : Kept a c :=
  ⟨h'.name.trans h.name, h'.comment.trans h.comment, h'.extra.trans h.extra,
    h'.zip64Size.trans h.zip64Size, h'.localOffset.trans h.localOffset⟩

/-- The entry is open, or was closed with or without a record. -/
inductive Since (records : List CentralRecord) (entry : OpenEntry κ α) :
    ZipStreamEncoder κ α → Prop
  | open {e : ZipStreamEncoder κ α} {entry' : OpenEntry κ α} (hp : e.phase = .open entry')
      (hk : Kept entry entry') (hr : e.records = records) : Since records entry e
  | failed {e : ZipStreamEncoder κ α} (hp : e.phase = .ready) (hr : e.records = records) :
      Since records entry e
  | closed {e : ZipStreamEncoder κ α} {entry' : OpenEntry κ α} (hp : e.phase = .ready)
      (hk : Kept entry entry') (hfits : fitsHeader entry' = true)
      (hr : e.records = records ++ [closedRecord entry']) : Since records entry e

variable {records : List CentralRecord} {entry entry' : OpenEntry κ α}

theorem Since.of_kept (hk : Kept entry entry') (h : Since records entry' e) :
    Since records entry e := by
  cases h with
  | «open» hp hk' hr => exact .open hp (hk.trans hk') hr
  | failed hp hr => exact .failed hp hr
  | closed hp hk' hfits hr => exact .closed hp (hk.trans hk') hfits hr

theorem since_accountInput (count : ℕ) (hp : e.phase = .open entry) (hr : e.records = records) :
    (accountInput e count).1.phase = .open entry ∧ (accountInput e count).1.records = records := by
  unfold accountInput
  cases checkedAdd e.totalInput count with
  | none => exact ⟨hp, hr⟩
  | some total =>
    dsimp only
    split_ifs <;> exact ⟨hp, hr⟩

theorem since_advanceOffset (count : ℕ) (hp : e.phase = .open entry) (hr : e.records = records) :
    (advanceOffset e count).1.phase = .open entry ∧ (advanceOffset e count).1.records = records := by
  unfold advanceOffset
  cases checkedAdd e.offset count <;> exact ⟨hp, hr⟩

theorem since_finishData (data : List Byte) (n consumed : ℕ) (produced : List Byte)
    (hr : e.records = records) :
    Since records entry (finishData e entry data n consumed produced).1 := by
  unfold finishData
  dsimp only
  by_cases h : exceeds entry.uncompressedSize e.limits.entryBytes = true
  · rw [if_pos h]
    exact .open rfl (.refl entry) hr
  · rw [if_neg h]
    have hi := @since_accountInput κ α { e with phase := .open entry } records entry consumed rfl hr
    generalize accountInput { e with phase := .open entry } consumed = r at hi ⊢
    obtain ⟨e1, _ | _⟩ := r
    · exact .open hi.1 (.refl entry) hi.2
    · have ho := since_advanceOffset produced.length hi.1 hi.2
      dsimp only
      generalize advanceOffset e1 produced.length = r at ho ⊢
      obtain ⟨e2, _ | _⟩ := r
      · exact .open ho.1 (.refl entry) ho.2
      · dsimp only
        split_ifs <;> exact .open ho.1 (.refl entry) ho.2

theorem since_accountData (data : List Byte) (n consumed : ℕ) (produced : List Byte)
    (hr : e.records = records) :
    Since records entry (accountData e entry data n consumed produced).1 := by
  unfold accountData
  dsimp only
  cases checkedAdd entry.uncompressedSize consumed with
  | none => exact .open rfl ⟨rfl, rfl, rfl, rfl, rfl⟩ hr
  | some uncompressed =>
    dsimp only
    cases checkedAdd entry.compressedSize produced.length with
    | none => exact .open rfl ⟨rfl, rfl, rfl, rfl, rfl⟩ hr
    | some compressed =>
      dsimp only
      refine Since.of_kept ?_ (since_finishData data n consumed produced hr)
      exact ⟨rfl, rfl, rfl, rfl, rfl⟩

theorem kept_encryptProduced (produced : List Byte) :
    Kept entry (encryptProduced codecs entry produced).2 := by
  unfold encryptProduced
  cases entry.aes <;> exact ⟨rfl, rfl, rfl, rfl, rfl⟩

theorem since_writeData (data : List Byte) (n : ℕ) (hp : e.phase = .open entry)
    (hr : e.records = records) : Since records entry (writeData codecs e data n).1 := by
  unfold writeData
  rw [hp]
  dsimp only
  split_ifs with hd
  · exact .open hp (.refl entry) hr
  · generalize compressStep codecs entry.compressor data n = r
    obtain ⟨_ | ⟨consumed, produced⟩, compressor⟩ := r
    · exact .open rfl ⟨rfl, rfl, rfl, rfl, rfl⟩ hr
    · have hk := @kept_encryptProduced κ α codecs { entry with compressor := compressor } produced
      exact .of_kept ⟨hk.name, hk.comment, hk.extra, hk.zip64Size, hk.localOffset⟩
        (since_accountData _ _ _ _ hr)

theorem kept_authenticate {authentication : List Byte}
    (h : authenticate codecs entry = .ok (authentication, entry')) : Kept entry entry' := by
  unfold authenticate at h
  cases haes : entry.aes with
  | none =>
    rw [haes] at h
    cases h
    exact .refl entry
  | some aes =>
    rw [haes] at h
    obtain ⟨size, -, h⟩ := Result.bind_eq_ok.mp h
    cases h
    exact ⟨rfl, rfl, rfl, rfl, rfl⟩

theorem since_closeEntry (produced : List Byte) (hr : e.records = records) :
    Since records entry (closeEntry codecs e entry produced).1 := by
  unfold closeEntry
  dsimp only
  split_ifs with hsize hfits
  · exact .failed rfl hr
  · exact .failed rfl hr
  · cases hauth : authenticate codecs entry with
    | error error => exact .failed rfl hr
    | ok r =>
      obtain ⟨authentication, entry'⟩ := r
      have hk := kept_authenticate hauth
      dsimp only
      split_ifs with hfits'
      · exact .failed rfl hr
      · have hclosed : Since records entry
            { e with phase := .ready, records := e.records ++ [closedRecord entry'] } :=
          .closed rfl hk (by simpa using hfits') (by rw [hr])
        unfold queue
        dsimp only
        split_ifs
        · exact hclosed
        · cases hclosed with
          | «open» hp => cases hp
          | failed hp hr' => exact .failed rfl hr'
          | closed hp hk' hfits hr' => exact .closed rfl hk' hfits hr'

theorem since_growCompressed (produced : List Byte) (hr : e.records = records) :
    Since records entry (growCompressed e entry produced).1 ∧
      (growCompressed e entry produced).1.records = records ∧
      ∀ entry', (growCompressed e entry produced).2 = .ok entry' → Kept entry entry' := by
  unfold growCompressed
  cases checkedAdd entry.compressedSize produced.length with
  | none => exact ⟨.open rfl (.refl entry) hr, hr, nofun⟩
  | some size =>
    dsimp only
    have ho := @since_advanceOffset κ α
      { e with phase := .open { entry with compressedSize := size } } records
      { entry with compressedSize := size } produced.length rfl hr
    generalize advanceOffset { e with phase := .open { entry with compressedSize := size } }
      produced.length = r at ho ⊢
    obtain ⟨e1, _ | _⟩ := r
    · exact ⟨.open ho.1 ⟨rfl, rfl, rfl, rfl, rfl⟩ ho.2, ho.2, nofun⟩
    · refine ⟨.open ho.1 ⟨rfl, rfl, rfl, rfl, rfl⟩ ho.2, ho.2, fun entry' h => ?_⟩
      cases h
      exact ⟨rfl, rfl, rfl, rfl, rfl⟩

theorem since_endDeflated (k : κ) (n : ℕ) (hr : e.records = records) :
    Since records entry (endDeflated codecs e entry k n).1 := by
  unfold endDeflated
  generalize deflateFinish codecs k n = r
  obtain ⟨_ | ⟨produced, status⟩, k'⟩ := r
  · exact .open rfl ⟨rfl, rfl, rfl, rfl, rfl⟩ hr
  · dsimp only
    have hk := @kept_encryptProduced κ α codecs { entry with compressor := .deflate k' } produced
    have hkept : Kept entry
        (encryptProduced codecs { entry with compressor := .deflate k' } produced).2 :=
      ⟨hk.name, hk.comment, hk.extra, hk.zip64Size, hk.localOffset⟩
    generalize encryptProduced codecs { entry with compressor := .deflate k' } produced = r at hkept ⊢
    obtain ⟨out, entry1⟩ := r
    dsimp only
    obtain ⟨hs, hr1, hk1⟩ := @since_growCompressed κ α e records entry1 out hr
    generalize growCompressed e entry1 out = r at hs hr1 hk1 ⊢
    obtain ⟨e1, _ | entry2⟩ := r
    · exact .of_kept hkept hs
    · cases status with
      | done => exact .of_kept (hkept.trans (hk1 entry2 rfl)) (since_closeEntry out hr1)
      | needOutput => exact .of_kept hkept hs
      | needInput => exact .of_kept hkept hs

theorem since_endOther (compressor : Compressor κ) (n : ℕ) (hr : e.records = records) :
    Since records entry (endOther codecs e entry compressor n).1 := by
  unfold endOther
  generalize finishStep codecs compressor n = r
  obtain ⟨_ | ⟨written, finished⟩, compressor'⟩ := r
  · exact .open rfl ⟨rfl, rfl, rfl, rfl, rfl⟩ hr
  · dsimp only
    have hkept : Kept entry { entry with compressor := compressor' } := ⟨rfl, rfl, rfl, rfl, rfl⟩
    obtain ⟨hs, hr1, hk1⟩ :=
      @since_growCompressed κ α e records { entry with compressor := compressor' } written hr
    generalize growCompressed e { entry with compressor := compressor' } written = r at hs hr1 hk1 ⊢
    obtain ⟨e1, _ | entry2⟩ := r
    · exact .of_kept hkept hs
    · cases finished with
      | true => exact .of_kept (hkept.trans (hk1 entry2 rfl)) (since_closeEntry written hr1)
      | false => exact .of_kept hkept hs

theorem since_endEntry (n : ℕ) (hp : e.phase = .open entry) (hr : e.records = records) :
    Since records entry (endEntry codecs e n).1 := by
  unfold endEntry
  rw [hp]
  dsimp only
  cases entry.compressor with
  | deflate k => exact since_endDeflated k n hr
  | store => exact since_endOther _ n hr
  | bzip2 k => exact since_endOther _ n hr
  | zstd k => exact since_endOther _ n hr
  | lzma k sink => exact since_endOther _ n hr
  | lzmaTail tail => exact since_endOther _ n hr

theorem drainPending_eq (e : ZipStreamEncoder κ α) (n : ℕ) :
    (drainPending e n).1.phase = e.phase ∧ (drainPending e n).1.records = e.records := by
  unfold drainPending
  dsimp only
  cases checkedAdd e.offset (e.pending.take n).length <;> exact ⟨rfl, rfl⟩

/-- **A call on an open entry** leaves it open with its fields, or closes it. -/
theorem since_step (c : EncodeCommand) (n : ℕ) (hp : e.phase = .open entry)
    (hr : e.records = records) : Since records entry (step codecs e c n).1 := by
  unfold step
  rw [hp]
  dsimp only
  by_cases hpending : e.pending ≠ []
  · rw [if_pos hpending]
    have hd := drainPending_eq e n
    generalize drainPending e n = r at hd ⊢
    obtain ⟨e1, _ | _⟩ := r <;> exact .open (hd.1.trans hp) (.refl entry) (hd.2.trans hr)
  · rw [if_neg hpending]
    unfold command
    cases c with
    | beginEntry m =>
      unfold beginEntry
      rw [hp]
      exact .open hp (.refl entry) hr
    | data data => exact since_writeData data n hp hr
    | endEntry => exact since_endEntry n hp hr
    | finish =>
      unfold finishArchive
      dsimp only
      rw [hp]
      exact .open hp (.refl entry) hr

/-! ### Beginning an entry -/

variable {m : EntryMetadata} {f : EntryFields}

/-- Calls on an encoder of which each but the last leaves the entry open. -/
inductive Within (codecs : Codecs κ α) (e : ZipStreamEncoder κ α) : ZipStreamEncoder κ α → Prop
  | refl : Within codecs e e
  | call {e1 : ZipStreamEncoder κ α} {entry : OpenEntry κ α} (h : Within codecs e e1)
      (hp : e1.phase = .open entry) (c : EncodeCommand) (n : ℕ) :
      Within codecs e (step codecs e1 c n).1

theorem since_within (hp : e.phase = .open entry) (hr : e.records = records)
    (h : Within codecs e e') : Since records entry e' := by
  induction h with
  | refl => exact .open hp (.refl entry) hr
  | call h hp1 c n ih =>
    cases ih with
    | «open» hp' hk hr' => exact .of_kept hk (since_step c n hp' hr')
    | failed hp' hr' =>
      rw [hp1] at hp'
      cases hp'
    | closed hp' hk hfits hr' =>
      rw [hp1] at hp'
      cases hp'

/-- What `begin_entry` checks about the fields of an entry. -/
structure Checked (offset : ℕ) (m : EntryMetadata) (f : EntryFields) : Prop where
  name : m.path.raw.length ≤ u16Sentinel ∧
    f.name = if m.kind = .dir ∧ m.path.raw.getLast? ≠ some (chr '/') then m.path.raw ++ [chr '/']
      else m.path.raw
  comment : f.comment.length ≤ u16Sentinel
  extra : f.extra.length ≤ maximumExtra f.zip64Size offset

theorem entryName_eq_ok {limits : Limits} {name : List Byte} (h : entryName limits m = .ok name) :
    m.path.raw.length ≤ u16Sentinel ∧
      name = if m.kind = .dir ∧ m.path.raw.getLast? ≠ some (chr '/') then
        m.path.raw ++ [chr '/'] else m.path.raw := by
  unfold entryName at h
  dsimp only at h
  split_ifs at h with hlimit hlength hdir
  · cases h
    exact ⟨Nat.le_of_not_lt hlength, (if_pos hdir).symm⟩
  · cases h
    exact ⟨Nat.le_of_not_lt hlength, (if_neg hdir).symm⟩

theorem checked_entryFields (h : entryFields e m = .ok f) : Checked e.offset m f := by
  unfold entryFields at h
  obtain ⟨-, h⟩ := Result.guard_eq_ok.mp h
  obtain ⟨name, hname, h⟩ := Result.bind_eq_ok.mp h
  obtain ⟨hcomment, h⟩ := Result.guard_eq_ok.mp h
  obtain ⟨kept, -, h⟩ := Result.bind_eq_ok.mp h
  obtain ⟨hextra, h⟩ := Result.guard_eq_ok.mp h
  cases h
  exact ⟨entryName_eq_ok hname, Nat.le_of_not_lt hcomment, Nat.le_of_not_lt hextra⟩

/-- What the calls inside `begin_entry` leave as it is. -/
structure Frame (e e' : ZipStreamEncoder κ α) : Prop where
  phase : e'.phase = e.phase
  records : e'.records = e.records
  offset : e'.offset = e.offset
  method : e'.method = e.method
  password : e'.password = e.password
  pending : e'.pending = e.pending
  archiveComment : e'.archiveComment = e.archiveComment

theorem frame_accountMetadata (added : ℕ) : Frame e (accountMetadata e added).1 := by
  unfold accountMetadata
  cases checkedAdd e.metadataBytes added with
  | none => exact ⟨rfl, rfl, rfl, rfl, rfl, rfl, rfl⟩
  | some total =>
    dsimp only
    split_ifs <;> exact ⟨rfl, rfl, rfl, rfl, rfl, rfl, rfl⟩

theorem encryptFields_eq_ok {f' : EntryFields} (h : encryptFields e m f = (e', .ok f'))
    (hf : Checked e.offset m f) : Frame e e' ∧ Checked e'.offset m f' := by
  unfold encryptFields at h
  dsimp only at h
  by_cases hnone : e.password.isNone = true
  · rw [if_pos hnone] at h
    cases h
    exact ⟨⟨rfl, rfl, rfl, rfl, rfl, rfl, rfl⟩, hf⟩
  · rw [if_neg hnone] at h
    have hframe := @frame_accountMetadata κ α e 11
    generalize accountMetadata e 11 = r at hframe h
    obtain ⟨e1, _ | _⟩ := r
    · cases h
    · dsimp only at h
      split_ifs at h with hextra
      · cases h
      · cases h
        exact ⟨hframe, ⟨hf.name, hf.comment, Nat.le_of_not_lt hextra⟩⟩

/-- An entry was begun with these fields: it is open, and its local header is staged. -/
structure Began (e e' : ZipStreamEncoder κ α) (m : EntryMetadata) (f : EntryFields)
    (entry : OpenEntry κ α) : Prop where
  checked : Checked e.offset m f
  phase : e'.phase = .open entry
  records : e'.records = e.records
  offset : e'.offset = e.offset
  archiveComment : e'.archiveComment = e.archiveComment
  name : entry.name = f.name
  comment : entry.comment = f.comment
  extra : entry.extra = f.extra
  zip64Size : entry.zip64Size = f.zip64Size
  localOffset : entry.localOffset = e.offset
  pending : ∃ version flags method dosTime dosDate framing, e'.pending =
    localHeader version flags method dosTime dosDate f.zip64Size f.name f.extra ++ framing

/-- **An accepted entry** was begun with fields that were checked. -/
theorem beginEntry_eq_ok (h : beginEntry codecs e m = (e', .ok ())) :
    ∃ f entry, Began e e' m f entry := by
  unfold beginEntry at h
  cases hphase : e.phase with
  | ready =>
    rw [hphase] at h
    dsimp only at h
    cases hfields : entryFields e m with
    | error error =>
      rw [hfields] at h
      cases h
    | ok f0 =>
      rw [hfields] at h
      dsimp only at h
      have hchecked := checked_entryFields hfields
      have hframe := @frame_accountMetadata κ α e
        (f0.name.length + f0.comment.length + f0.extra.length + codecs.recordSize)
      generalize accountMetadata e _ = r at hframe h
      obtain ⟨e1, _ | _⟩ := r
      · cases h
      · dsimp only at h hframe
        cases hencrypt : encryptFields e1 m f0 with
        | mk e2 result =>
          rw [hencrypt] at h
          cases result with
          | error error => cases h
          | ok f =>
            dsimp only at h
            obtain ⟨hframe', hchecked'⟩ := encryptFields_eq_ok hencrypt (hframe.offset ▸ hchecked)
            have hoffset : e2.offset = e.offset := hframe'.offset.trans hframe.offset
            unfold writeHeader at h
            cases hcipher : newCipher codecs e2 with
            | error error =>
              rw [hcipher] at h
              cases h
            | ok r =>
              obtain ⟨aes, framing⟩ := r
              rw [hcipher] at h
              unfold queue at h
              dsimp only at h
              by_cases hpending : e2.pending ≠ []
              · rw [if_pos hpending] at h
                cases h
              · rw [if_neg hpending] at h
                dsimp only at h
                cases hcompressor : newCompressor codecs (payloadMethod e2.method m.kind) with
                | error error =>
                  rw [hcompressor] at h
                  cases h
                | ok compressor =>
                  rw [hcompressor] at h
                  cases h
                  exact ⟨f, _, hoffset ▸ hchecked', rfl, hframe'.records.trans hframe.records,
                    hoffset, hframe'.archiveComment.trans hframe.archiveComment, rfl, rfl, rfl, rfl,
                    hoffset, _, _, _, _, _, framing, rfl⟩
  | «open» entry =>
    rw [hphase] at h
    cases h
  | central next start =>
    rw [hphase] at h
    cases h
  | finalBytes =>
    rw [hphase] at h
    cases h
  | done =>
    rw [hphase] at h
    cases h

/-! ### The lengths fit -/

/-- The slash that `begin_entry` appends makes the name of the directory too long. -/
def SlashOverflows (m : EntryMetadata) : Prop :=
  m.kind = .dir ∧ m.path.raw.length = u16Sentinel ∧ m.path.raw.getLast? ≠ some (chr '/')

instance (m : EntryMetadata) : Decidable (SlashOverflows m) := inferInstanceAs (Decidable (_ ∧ _))

theorem Checked.name_le_iff {offset : ℕ} (h : Checked offset m f) :
    f.name.length ≤ u16Sentinel ↔ ¬ SlashOverflows m := by
  obtain ⟨hle, hname⟩ := h.name
  rw [hname, SlashOverflows]
  by_cases hdir : m.kind = .dir ∧ m.path.raw.getLast? ≠ some (chr '/')
  · rw [if_pos hdir, List.length_append, List.length_singleton]
    simp only [hdir.1, hdir.2, true_and, and_true, not_false_eq_true, ne_eq]
    omega
  · rw [if_neg hdir]
    exact ⟨fun _ hs => hdir ⟨hs.1, hs.2.2⟩, fun _ => hle⟩

theorem Checked.localExtra_le {offset : ℕ} (h : Checked offset m f) :
    (localZip64 f.zip64Size ++ f.extra).length ≤ u16Sentinel := by
  have hextra := h.extra
  have hsentinel : u16Sentinel = 65535 := rfl
  rw [List.length_append, length_localZip64]
  unfold maximumExtra at hextra
  cases hz : f.zip64Size <;> cases ho : decide (u32Sentinel ≤ offset) <;>
    simp only [hz, ho, zip64ExtraReserve] at hextra ⊢ <;> simp at hextra ⊢ <;> omega

theorem length_zip64Field (r : CentralRecord) :
    r.zip64Field.length = zip64ExtraReserve r.sizeZip64 r.offsetZip64 := by
  unfold CentralRecord.zip64Field zip64ExtraReserve extraField
  cases r.sizeZip64 <;> cases r.offsetZip64 <;> simp

/-- The ZIP64 field of a closed entry is the one that was reserved for it. -/
theorem length_centralExtra (h : fitsHeader entry = true) :
    (closedRecord entry).centralExtra.length =
      zip64ExtraReserve entry.zip64Size (decide (u32Sentinel ≤ entry.localOffset)) +
        entry.extra.length := by
  have hsize : (closedRecord entry).sizeZip64 = entry.zip64Size := by
    unfold fitsHeader at h
    unfold CentralRecord.sizeZip64 closedRecord
    cases hz : entry.zip64Size with
    | true => rfl
    | false =>
      rw [hz] at h
      simpa [and_comm] using h
  rw [CentralRecord.centralExtra, List.length_append, length_zip64Field, hsize]
  rfl

theorem Checked.centralExtra_le (h : Checked entry.localOffset m f) (hx : entry.extra = f.extra)
    (hz : entry.zip64Size = f.zip64Size) (hfits : fitsHeader entry = true) :
    (closedRecord entry).centralExtra.length ≤ u16Sentinel := by
  have hextra := h.extra
  have hsentinel : u16Sentinel = 65535 := rfl
  rw [length_centralExtra hfits, hx, hz]
  unfold maximumExtra at hextra
  cases hz' : f.zip64Size <;> cases ho : decide (u32Sentinel ≤ entry.localOffset) <;>
    simp only [hz', ho, zip64ExtraReserve] at hextra ⊢ <;> simp at hextra ⊢ <;> omega

/-- The local header of the open entry is exact, and so is its central header, whatever is called
until it is closed. -/
def HeadersExact (codecs : Codecs κ α) (e e' : ZipStreamEncoder κ α) : Prop :=
  ∃ entry, e'.phase = .open entry ∧
    (∃ framing, LocalExact e'.pending entry.name (localZip64 entry.zip64Size ++ entry.extra) framing) ∧
    ∀ e'' record, Within codecs e' e'' → e''.records = e.records ++ [record] →
      record.name = entry.name ∧ record.comment = entry.comment ∧
        CentralExact record.bytes record.name record.centralExtra record.comment

/-- An exact local header has a name that fits its length field. -/
theorem name_le_of_headersExact (hp : e'.phase = .open entry) (h : HeadersExact codecs e e') :
    entry.name.length ≤ u16Sentinel := by
  obtain ⟨entry', hphase', ⟨framing, fixed, hlength, -, hn, -⟩, -⟩ := h
  rw [hp] at hphase'
  cases hphase'
  have hlt := leValue_lt (window fixed 26 28)
  rw [length_window_of_le (by omega), hn] at hlt
  exact Nat.le_of_lt_succ hlt

/-- **Header lengths** of an accepted entry are exact unless it is a directory whose name has 65535
bytes and no slash at its end. -/
theorem headersExact_iff {m : EntryMetadata} (h : beginEntry codecs e m = (e', .ok ())) :
    HeadersExact codecs e e' ↔ ¬ SlashOverflows m := by
  obtain ⟨f, entry, hb⟩ := beginEntry_eq_ok h
  rw [← hb.checked.name_le_iff]
  constructor
  · intro hexact
    rw [← hb.name]
    exact name_le_of_headersExact hb.phase hexact
  · intro hle
    refine ⟨entry, hb.phase, ?_, fun e'' record hwithin hpushed => ?_⟩
    · obtain ⟨version, flags, method, dosTime, dosDate, framing, hpending⟩ := hb.pending
      refine ⟨framing, ?_⟩
      rw [hpending, hb.name, hb.zip64Size, hb.extra]
      exact (localExact_iff _ _ _ _ _ _ _ _ _).mpr ⟨hle, hb.checked.localExtra_le⟩
    · cases since_within hb.phase hb.records hwithin with
      | «open» hp hk hr =>
        rw [hr] at hpushed
        simp at hpushed
      | failed hp hr =>
        rw [hr] at hpushed
        simp at hpushed
      | @closed entry' hp hk hfits hr =>
        rw [hr] at hpushed
        have hrecord : closedRecord entry' = record := by simpa using hpushed
        subst hrecord
        have hoff : Checked entry'.localOffset m f := by
          rw [hk.localOffset, hb.localOffset]
          exact hb.checked
        refine ⟨hk.name, hk.comment, centralExact_of_le ?_ ?_ ?_⟩
        · exact (congrArg List.length (hk.name.trans hb.name)).trans_le hle
        · exact hoff.centralExtra_le (hk.extra.trans hb.extra) (hk.zip64Size.trans hb.zip64Size) hfits
        · exact (congrArg List.length (hk.comment.trans hb.comment)).trans_le hb.checked.comment

/-- Compressors that are not used by stored entries. -/
def storing : Codecs Unit Unit where
  recordSize := 184
  newDeflate := .ok ()
  deflate := fun k data _ _ => (.ok ⟨data.length, [], .needInput⟩, k)
  newBzip2 := ()
  bzip2 := fun k _ _ => (none, k)
  bzip2Finish := fun k _ => (none, k)
  newZstd := .ok ()
  zstd := fun k data _ => (.ok (data.length, []), k)
  zstdFinish := fun k _ => (.ok ([], true), k)
  lzmaProps := 93
  lzmaDictSize := 0x800000
  newLzma := none
  lzmaWrite := fun k _ => (none, k)
  lzmaFinish := fun _ => none
  newAes := fun _ => .ok ((), List.replicate 18 0)
  encrypt := fun k bytes => (bytes, k)
  authentication := fun _ => List.replicate 10 0

/-- An encoder without limits. -/
def fresh : ZipStreamEncoder Unit Unit where
  limits := .unlimited
  method := .store

/-- An empty directory. -/
def directory (path : List Byte) : EntryMetadata where
  kind := .dir
  path := .fromBytes path
  size := some 0

theorem headersExact_directory : HeadersExact storing fresh
    (beginEntry storing fresh (directory (bstr "d"))).1 ↔ ¬ SlashOverflows (directory (bstr "d")) :=
  headersExact_iff (Prod.ext rfl (by decide +kernel))

/-- A directory is accepted as long as its name without the slash fits. -/
theorem beginEntry_directory {path : List Byte} (hlength : path.length ≤ u16Sentinel)
    (hslash : path.getLast? ≠ some (chr '/')) : ∃ e' entry,
      beginEntry storing fresh (directory path) = (e', .ok ()) ∧ e'.phase = .open entry ∧
        entry.name = path ++ [chr '/'] := by
  have hname : entryName .unlimited (directory path) = .ok (path ++ [chr '/']) := by
    unfold entryName
    have hfits : ¬ u16Sentinel < (directory path).path.raw.length := Nat.not_lt.mpr hlength
    dsimp only
    rw [if_neg (by exact Bool.false_ne_true), if_neg hfits, if_pos ⟨rfl, hslash⟩]
    rfl
  have hfields : entryFields fresh (directory path) = .ok ⟨path ++ [chr '/'], [], [], false⟩ := by
    unfold entryFields
    change (entryName .unlimited (directory path) >>= _) = _
    rw [hname]
    rfl
  have haccount : accountMetadata fresh ((path ++ [chr '/']).length + 0 + 0 + 184) =
      ({ fresh with metadataBytes := (path ++ [chr '/']).length + 0 + 0 + 184 }, .ok ()) := by
    have hmax : u64Max = 18446744073709551615 := rfl
    have hsentinel : u16Sentinel = 65535 := rfl
    unfold accountMetadata
    rw [show fresh.metadataBytes = 0 from rfl, checkedAdd_of_le (by
      rw [List.length_append, List.length_singleton]
      omega), Nat.zero_add]
    rfl
  obtain ⟨e1, he1⟩ : ∃ e1 : ZipStreamEncoder Unit Unit, e1 =
    { fresh with metadataBytes := (path ++ [chr '/']).length + 0 + 0 + 184 } := ⟨_, rfl⟩
  obtain ⟨f, hf⟩ : ∃ f : EntryFields, f = ⟨path ++ [chr '/'], [], [], false⟩ := ⟨_, rfl⟩
  refine ⟨{ e1 with
    pending := entryHeader e1 (directory path) f ++ []
    phase := .open (openEntry e1 (directory path) f .store none) },
    openEntry e1 (directory path) f .store none, ?_, rfl, by rw [hf]; rfl⟩
  unfold beginEntry
  rw [show fresh.phase = .ready from rfl]
  dsimp only
  rw [hfields]
  dsimp only
  rw [List.length_nil, show storing.recordSize = 184 from rfl, haccount, ← he1, ← hf]
  rw [he1]
  rfl

/-- A directory that is accepted and whose local header has a wrong length. -/
theorem slash_overflows : ∃ e', beginEntry storing fresh
    (directory (List.replicate u16Sentinel (chr 'd'))) = (e', .ok ()) ∧
      ¬ HeadersExact storing fresh e' := by
  have hlast : (List.replicate u16Sentinel (chr 'd')).getLast? = some (chr 'd') := by
    rw [List.getLast?_replicate, if_neg (by decide)]
  obtain ⟨e', entry, hbegin, hphase, hname⟩ :=
    @beginEntry_directory (List.replicate u16Sentinel (chr 'd'))
      (List.length_replicate ..).le (by rw [hlast]; decide)
  refine ⟨e', hbegin, fun h => ?_⟩
  have hle := name_le_of_headersExact hphase h
  rw [hname, List.length_append, List.length_replicate, List.length_singleton] at hle
  omega

end LibarchiveOxide.Zip.Lengths
