import LibarchiveOxide.Ar.Encoder
import LibarchiveOxide.Cpio.Dialects
import LibarchiveOxide.Lib.Refusals
import LibarchiveOxide.Tar.Encoder
import LibarchiveOxide.Tar.Numeric

/-! # Refused commands of the archive encoders

A header is staged before all of its checks have passed, and what is staged when one of them fails stays
in front of the next command. `TarUntouched`, `CpioUntouched` and `ArUntouched` are the commands whose
refusal leaves nothing: refused commands of these kinds can be left out of a script. -/

namespace LibarchiveOxide.Formats.Refusals

open Core.Failure Core.Metadata Core.Protocol Core.Encode Lib.Result Lib.Refusals

/-- The step of an encoder on a command and the room for its output. -/
def call {σ : Type} (step : EncodeFn σ) (e : σ) (c : EncodeCommand × ℕ) :
    σ × Except ArchiveError EncodeStep :=
  step e c.1 c.2

/-! ### ar -/

section Ar

open Ar.Encoder

/-- Commands that `ArEncoder` refuses without a trace: the sum of a payload and of an inline name may not
overflow behind a magic that has just been staged. -/
def ArUntouched (e : ArEncoder) : EncodeCommand → Prop
  | .beginEntry m => e.done = true ∨ (e.beginChecks m).isOk = false ∨ e.started = true ∨
      ∀ size, m.size = some size → size.toNat + inlineLength m.path.raw ≤ u64Max
  | _ => True

theorem ar_stageEntry {e : ArEncoder} {m : EntryMetadata} (h : e.started = true ∨
      ∀ size, m.size = some size → size.toNat + inlineLength m.path.raw ≤ u64Max)
    (hfail : (e.stageEntry m).2.isOk = false) : (e.stageEntry m).1 = e := by
  unfold ArEncoder.stageEntry at hfail ⊢
  cases hsize : m.size with
  | none => rfl
  | some size =>
    rw [hsize] at hfail
    dsimp only at hfail ⊢
    cases hsum : checkedAdd size.toNat (inlineLength m.path.raw) with
    | some total =>
      rw [hsum] at hfail
      cases hfail
    | none =>
      dsimp only
      rcases h with hstarted | hfits
      · rw [ArEncoder.start, if_pos hstarted]
      · rw [checkedAdd, if_pos (hfits size hsize)] at hsum
        cases hsum

theorem ar_untouched {e : ArEncoder} {c : EncodeCommand} {n : ℕ} (h : ArUntouched e c)
    (hfail : (e.step c n).2.isOk = false) : (e.step c n).1 = e := by
  unfold ArEncoder.step at hfail ⊢
  by_cases hdone : e.done = true
  · rw [if_pos hdone]
    cases c <;> rfl
  rw [if_neg hdone] at hfail ⊢
  by_cases hpending : (!e.pending.isEmpty) = true
  · rw [if_pos hpending] at hfail
    cases hfail
  rw [if_neg hpending] at hfail ⊢
  cases c with
  | beginEntry m =>
    dsimp only at hfail ⊢
    unfold ArEncoder.beginEntry at hfail ⊢
    cases hchecks : e.beginChecks m with
    | error err => rfl
    | ok entries =>
      rw [hchecks] at hfail
      dsimp only at hfail ⊢
      rcases h with h | h | h
      · exact absurd h hdone
      · rw [hchecks] at h
        cases h
      have hstage := ar_stageEntry h
      rcases hstaged : e.stageEntry m with ⟨e', err | staged⟩
      · rw [hstaged] at hstage
        exact hstage rfl
      · rw [hstaged] at hfail
        cases hfail
  | data input =>
    dsimp only at hfail ⊢
    unfold ArEncoder.data at hfail ⊢
    split_ifs at hfail ⊢ <;> first | rfl | cases hfail
  | endEntry =>
    dsimp only at hfail ⊢
    unfold ArEncoder.endEntry at hfail ⊢
    split_ifs at hfail ⊢ <;> first | rfl | cases hfail
  | finish =>
    dsimp only at hfail ⊢
    unfold ArEncoder.finish at hfail ⊢
    split_ifs at hfail ⊢ <;> first | rfl | cases hfail

end Ar

/-! ### cpio -/

section Cpio

open Cpio.Header Cpio.Encoder Cpio.Dialects

/-- The numbers of an `odc` header fit its fields. -/
def OdcFits (v : HeaderValues) : Prop := ∀ f ∈ odcValues v, f.2 < 8 ^ f.1

/-- A header that is refused is refused before any byte of it is staged. The numbers of an `odc` header
are written while they are checked. A name is shorter than `isize::MAX`, as all slices are. -/
def HeaderUntouched (e : CpioEncoder) (name : List Byte) (m : Option EntryMetadata) : Prop :=
  name.length < 2 ^ 63 ∧ (e.dialect = .odc → ∀ v, headerValues e.dialect e.inode name m = .ok v →
    v.device.major = 0 ∧ v.referenced.major = 0 → OdcFits v)

/-- Commands that `CpioEncoder` refuses without a trace. -/
def CpioUntouched (e : CpioEncoder) : EncodeCommand → Prop
  | .beginEntry m => e.done = true ∨ ∀ entries m', e.beginChecks m = .ok (entries, m') →
      HeaderUntouched e m'.path.raw (some m')
  | .finish => e.isOpen = true ∨ (e.dialect = .odc → e.inode.toNat < 8 ^ 6)
  | _ => True

theorem putOctals_fits : ∀ {fs : List (ℕ × ℕ)}, (∀ f ∈ fs, f.2 < 8 ^ f.1) → (putOctals fs).2 = true
  | [], _ => rfl
  | f :: fs, h => by
    obtain ⟨hf, hfs⟩ := List.forall_mem_cons.mp h
    have hdigits : (putOctal f.1 f.2).2 = true := by
      simpa [putOctal] using Nat.div_eq_of_lt hf
    unfold putOctals
    dsimp only
    rw [if_pos hdigits]
    exact putOctals_fits hfs

theorem cpio_writeHeader {dialect : CpioDialect} {v : HeaderValues} {pending : List Byte}
    {err : ArchiveError}
    (hfits : dialect = .odc → v.device.major = 0 ∧ v.referenced.major = 0 → OdcFits v)
    (h : writeHeader dialect v = (pending, .error err)) : pending = [] := by
  cases dialect with
  | odc =>
    simp only [writeHeader] at h
    split_ifs at h with hmajor hall
    · cases h
      rfl
    · cases h
    · rw [not_or, not_not, not_not] at hmajor
      exact absurd (putOctals_fits (hfits rfl hmajor)) hall
  | newc | crc | binaryLittleEndian | binaryBigEndian =>
    simp only [writeHeader] at h
    split at h <;> cases h
    rfl

theorem dialect_bounds (dialect : CpioDialect) :
    fixedLength dialect ≤ 110 ∧ alignmentOf dialect ≤ 4 := by
  cases dialect <;> decide

theorem cpio_stageHeader {e : CpioEncoder} {name : List Byte} {m : Option EntryMetadata}
    (hpending : e.pending = []) (h : HeaderUntouched e name m)
    (hfail : (e.stageHeader name m).2.isOk = false) : (e.stageHeader name m).1 = e := by
  obtain ⟨hname, hodc⟩ := h
  unfold CpioEncoder.stageHeader at hfail ⊢
  cases hv : headerValues e.dialect e.inode name m with
  | error err => rfl
  | ok v =>
    rw [hv] at hfail
    dsimp only at hfail ⊢
    rcases hw : writeHeader e.dialect v with ⟨fixed, err | written⟩
    · rw [cpio_writeHeader (fun hdialect => hodc hdialect v hv) hw, ← hpending]
    · rw [hw] at hfail
      dsimp only at hfail
      have hlength : fixed.length = fixedLength e.dialect := (fixed_of_writeHeader hv hw).length
      have hbounds := dialect_bounds e.dialect
      have hmax : u64Max = 2 ^ 64 - 1 := rfl
      rw [aligned, checkedAdd_of_le (by
        rw [List.length_append, List.length_append, List.length_singleton]
        omega)] at hfail
      cases hfail

theorem cpio_trailer {e : CpioEncoder} (h : e.dialect = .odc → e.inode.toNat < 8 ^ 6) :
    HeaderUntouched e trailerName none := by
  refine ⟨by decide, fun hdialect v hv _ => ?_⟩
  rw [hdialect] at hv
  cases hv
  show ∀ f ∈ [(6, 0), (6, e.inode.toNat), (6, 0), (6, 0), (6, 0), (6, 1), (6, 0), (11, 0), (6, 11), (11, 0)],
    f.2 < 8 ^ f.1
  simpa using h hdialect

theorem cpio_untouched {e : CpioEncoder} {c : EncodeCommand} {n : ℕ} (h : CpioUntouched e c)
    (hfail : (e.step c n).2.isOk = false) : (e.step c n).1 = e := by
  unfold CpioEncoder.step at hfail ⊢
  by_cases hdone : e.done = true
  · rw [if_pos hdone]
    cases c <;> rfl
  rw [if_neg hdone] at hfail ⊢
  by_cases hpending : (!e.pending.isEmpty) = true
  · rw [if_pos hpending] at hfail
    unfold CpioEncoder.flush at hfail
    dsimp only at hfail
    split_ifs at hfail <;> cases hfail
  rw [if_neg hpending] at hfail ⊢
  have hempty : e.pending = [] := by simpa using hpending
  cases c with
  | beginEntry m =>
    dsimp only at hfail ⊢
    unfold CpioEncoder.beginEntry at hfail ⊢
    rcases hchecks : e.beginChecks m with err | ⟨entries, m'⟩
    · rfl
    · rw [hchecks] at hfail
      dsimp only at hfail ⊢
      have hstage := cpio_stageHeader hempty (h.resolve_left hdone entries m' hchecks)
      rcases hstaged : e.stageHeader m'.path.raw (some m') with ⟨e', err | staged⟩
      · rw [hstaged] at hstage
        exact hstage rfl
      · rw [hstaged] at hfail
        cases hfail
  | data input =>
    dsimp only at hfail ⊢
    unfold CpioEncoder.data at hfail ⊢
    split_ifs at hfail ⊢ <;> first | rfl | cases hfail
  | endEntry =>
    dsimp only at hfail ⊢
    unfold CpioEncoder.endEntry at hfail ⊢
    split_ifs at hfail ⊢ <;> first | rfl | cases hfail
  | finish =>
    dsimp only at hfail ⊢
    unfold CpioEncoder.finish at hfail ⊢
    by_cases hopen : e.isOpen = true
    · rw [if_pos hopen]
    · rw [if_neg hopen] at hfail ⊢
      have hstage := cpio_stageHeader hempty (cpio_trailer (h.resolve_left hopen))
      rcases hstaged : e.stageHeader trailerName none with ⟨e', err | staged⟩
      · rw [hstaged] at hstage
        exact hstage rfl
      · rw [hstaged] at hfail
        dsimp only at hfail
        split_ifs at hfail <;> cases hfail

end Cpio

/-! ### tar -/

section Tar

open Tar.Header Tar.Encoder

/-- The header of an entry needs no block in front of it, and the owner does not fit into it. -/
def OwnerTooLarge (m : EntryMetadata) : Prop :=
  m.path.raw.length ≤ 100 ∧ (∀ link, m.linkTarget = some link → link.raw.length ≤ 100) ∧
    (2 ^ 56 ≤ (m.owner.uid.getD 0).toNat ∨ 2 ^ 56 ≤ (m.owner.gid.getD 0).toNat)

/-- A header that is refused is refused before any block of it is staged. -/
def BlocksUntouched (m : EntryMetadata) : Prop :=
  (paxRecords (paxPairs m (!m.sparse.isEmpty))).isOk = false ∨
    paxPairs m (!m.sparse.isEmpty) = [] ∧ (m.kind = .socket ∨ OwnerTooLarge m)

/-- Commands that `TarEncoder` refuses without a trace. Of the data of a sparse entry the extents are
walked before the total is checked. -/
def TarUntouched (e : TarEncoder) : EncodeCommand → Prop
  | .beginEntry m => e.done = true ∨ (e.beginChecks m).isOk = false ∨ BlocksUntouched m
  | .data input => e.done = true ∨ e.isOpen = false ∨ e.remaining < input.length ∨ e.sparse = []
  | _ => True

theorem buildHeader_refused {name : List Byte} {mode uid gid size mtime : ℕ} {typeflag : Byte}
    {link : List Byte} (huid : uid ≤ u64Max) (hgid : gid ≤ u64Max) (h : 2 ^ 56 ≤ uid ∨ 2 ^ 56 ≤ gid) :
    ∃ err, buildHeader name mode uid gid size mtime typeflag link = .error err := by
  unfold buildHeader putField
  dsimp only
  rcases hmode : putOctal (fMode.2 - fMode.1) mode with err | mode'
  · exact ⟨err, rfl⟩
  rcases huid' : putOctal (fUid.2 - fUid.1) uid with err | uid'
  · exact ⟨err, rfl⟩
  rcases hgid' : putOctal (fGid.2 - fGid.1) gid with err | gid'
  · exact ⟨err, rfl⟩
  rcases h with h | h
  · obtain ⟨err, herr⟩ := (Tar.Numeric.putOctal_error (n := 8) (by decide) huid).mpr h
    cases huid'.symm.trans herr
  · obtain ⟨err, herr⟩ := (Tar.Numeric.putOctal_error (n := 8) (by decide) hgid).mpr h
    cases hgid'.symm.trans herr

theorem sink_bind_error {α β : Type} {x : SinkM α} {f : α → SinkM β} {sink sink' : List Byte}
    {err : Error} (h : x sink = (.error err, sink')) : (x >>= f) sink = (.error err, sink') := by
  simp only [bind, ExceptT.bind, ExceptT.mk, StateT.bind]
  rw [h]
  rfl

theorem sink_bind_ok {α β : Type} (a : α) (f : α → SinkM β) (sink : List Byte) :
    ((liftM (Except.ok a : Except Error α) : SinkM α) >>= f) sink = f a sink := rfl

theorem writeHeader_refused {v : HeaderView} {sink : List Byte}
    (h : v.kind = .socket ∨ v.path.length ≤ 100 ∧
      (∀ link, v.linkTarget = some link → link.length ≤ 100) ∧
        ∀ typeflag, ∃ err, buildHeader (v.path.take 100) (v.mode &&& 0o7777).toNat v.uid.toNat
          v.gid.toNat v.size v.mtime typeflag ((v.linkTarget.getD []).take 100) = .error err) :
    ∃ err, writeHeader v sink = (.error err, sink) := by
  unfold writeHeader
  rcases hflag : typeflagFor v.kind with err | typeflag
  · exact ⟨err, rfl⟩
  · rcases h with h | ⟨hpath, hlink, hheader⟩
    · rw [h] at hflag
      cases hflag
    · obtain ⟨err, herr⟩ := hheader typeflag
      refine ⟨err, ?_⟩
      rw [sink_bind_ok, herr]
      dsimp only
      rw [if_neg (by omega)]
      cases hv : v.linkTarget with
      | none => rfl
      | some link =>
        dsimp only
        rw [if_neg (by have := hlink link hv; omega)]
        rfl

theorem writeV2Header_untouched {m : EntryMetadata} {stored : ℕ} (h : BlocksUntouched m) :
    ∃ err, writeV2Header m (.fromMetadata m stored) (!m.sparse.isEmpty) [] = (.error err, []) := by
  unfold writeV2Header
  rcases h with h | ⟨hpairs, h⟩
  · cases hrecords : paxRecords (paxPairs m (!m.sparse.isEmpty)) with
    | error err => exact ⟨err, rfl⟩
    | ok records =>
      rw [hrecords] at h
      cases h
  · rw [hpairs]
    obtain ⟨err, herr⟩ := @writeHeader_refused (.fromMetadata m stored) [] (by
      rcases h with h | ⟨hpath, hlink, howner⟩
      · exact .inl h
      · refine .inr ⟨hpath, ?_, fun typeflag => buildHeader_refused ?_ ?_ howner⟩
        · intro link hmem
          obtain ⟨target, htarget, rfl⟩ := Option.map_eq_some_iff.mp hmem
          exact hlink target htarget
        · exact Nat.le_of_lt_succ (UInt64.toNat_lt _)
        · exact Nat.le_of_lt_succ (UInt64.toNat_lt _))
    refine ⟨err, ?_⟩
    rw [show paxRecords [] = .ok [] from rfl, sink_bind_ok]
    exact sink_bind_error herr

/-- The states differ in the position in an entry that is not sparse, which nothing reads. -/
def Moved (e e' : TarEncoder) : Prop :=
  ∃ position, e' = { e with logicalPosition := position } ∧
    (e.sparse = [] ∨ position = e.logicalPosition)

theorem moved_refl (e : TarEncoder) : Moved e e := ⟨e.logicalPosition, rfl, .inr rfl⟩

theorem accountData_moved (e : TarEncoder) (length consumed : ℕ) (produced : List Byte) :
    (e.accountData length consumed produced).2.isOk = true ∨
      (e.accountData length consumed produced).1 = e := by
  unfold TarEncoder.accountData
  cases checkedAdd e.totalBytes consumed with
  | none => exact .inr rfl
  | some total =>
    dsimp only
    cases Core.Budget.exceeds total e.limits.decodedTotal with
    | true => exact .inr rfl
    | false => exact .inl rfl

theorem tar_untouched {e : TarEncoder} {c : EncodeCommand} {n : ℕ} (h : TarUntouched e c)
    (hfail : (e.step c n).2.isOk = false) : Moved e (e.step c n).1 := by
  unfold TarEncoder.step at hfail ⊢
  by_cases hdone : e.done = true
  · rw [if_pos hdone]
    cases c <;> exact moved_refl e
  rw [if_neg hdone] at hfail ⊢
  by_cases hpending : (!e.pending.isEmpty) = true
  · rw [if_pos hpending] at hfail
    unfold TarEncoder.drainFirst at hfail
    dsimp only at hfail
    split_ifs at hfail <;> cases hfail
  rw [if_neg hpending] at hfail ⊢
  have hempty : e.pending = [] := by simpa using hpending
  cases c with
  | beginEntry m =>
    dsimp only at hfail ⊢
    unfold TarEncoder.beginEntry at hfail ⊢
    rcases hchecks : e.beginChecks m with err | ⟨logicalSize, entries, stored⟩
    · exact moved_refl e
    · dsimp only
      rcases h with h | h | h
      · exact absurd h hdone
      · rw [hchecks] at h
        cases h
      · obtain ⟨err, herr⟩ := @writeV2Header_untouched _ stored h
        rw [hempty, herr]
        dsimp only
        rw [← hempty]
        exact moved_refl e
  | data input =>
    dsimp only at hfail ⊢
    unfold TarEncoder.data at hfail ⊢
    by_cases hopen : (!e.isOpen) = true
    · rw [if_pos hopen]
      exact moved_refl e
    rw [if_neg hopen] at hfail ⊢
    by_cases hlong : e.remaining < input.length
    · rw [if_pos hlong]
      exact moved_refl e
    rw [if_neg hlong] at hfail ⊢
    rcases h with h | h | h | h
    · exact absurd h hdone
    · rw [h] at hopen
      exact absurd rfl hopen
    · exact absurd h hlong
    · have hsparse : e.sparse.isEmpty = true := by rw [h]; rfl
      rw [if_pos hsparse] at hfail ⊢
      split_ifs at hfail ⊢
      · cases hfail
      · cases hfail
      · rcases accountData_moved { e with
            logicalPosition := (e.logicalPosition + min input.length n) % 2 ^ 64 }
          input.length (min input.length n) (input.take (min input.length n)) with hok | hsame
        · rw [hok] at hfail
          cases hfail
        · rw [hsame]
          exact ⟨_, rfl, .inl h⟩
  | endEntry =>
    dsimp only at hfail ⊢
    unfold TarEncoder.endEntry at hfail ⊢
    split_ifs at hfail ⊢
    · exact moved_refl e
    · exact moved_refl e
    · split at hfail
      · exact moved_refl e
      · cases hfail
  | finish =>
    dsimp only at hfail ⊢
    unfold TarEncoder.finish at hfail ⊢
    split_ifs at hfail ⊢
    · exact moved_refl e
    · cases hfail

theorem drainPending_moved {e : TarEncoder} (h : e.sparse = []) (position n : ℕ) :
    ∃ out e', e.drainPending n = (out, e') ∧ e'.sparse = [] ∧
      ({ e with logicalPosition := position } : TarEncoder).drainPending n =
        (out, { e' with logicalPosition := position }) := by
  unfold TarEncoder.drainPending
  dsimp only
  split_ifs
  · exact ⟨_, _, rfl, h, rfl⟩
  · exact ⟨_, _, rfl, h, rfl⟩

theorem accountData_bisimilar {e : TarEncoder} (h : e.sparse = []) (position length consumed : ℕ)
    (produced : List Byte) :
    (e.accountData length consumed produced).2 =
        (({ e with logicalPosition := position } : TarEncoder).accountData length consumed produced).2 ∧
      Moved (e.accountData length consumed produced).1
        (({ e with logicalPosition := position } : TarEncoder).accountData length consumed
          produced).1 := by
  unfold TarEncoder.accountData
  cases checkedAdd e.totalBytes consumed with
  | none => exact ⟨rfl, position, rfl, .inl h⟩
  | some total =>
    dsimp only
    cases Core.Budget.exceeds total e.limits.decodedTotal with
    | true => exact ⟨rfl, position, rfl, .inl h⟩
    | false => exact ⟨rfl, position, rfl, .inl h⟩

/-- **The position does not matter** in an entry that is not sparse. -/
theorem tar_bisimilar (e e' : TarEncoder) (c : EncodeCommand × ℕ) (h : Moved e e') :
    (call TarEncoder.step e c).2 = (call TarEncoder.step e' c).2 ∧
      Moved (call TarEncoder.step e c).1 (call TarEncoder.step e' c).1 := by
  obtain ⟨position, rfl, h | rfl⟩ := h
  case inr => exact ⟨rfl, moved_refl _⟩
  obtain ⟨c, n⟩ := c
  have hsparse : e.sparse.isEmpty = true := by rw [h]; rfl
  unfold call TarEncoder.step
  dsimp only
  by_cases hdone : e.done = true
  · rw [if_pos hdone, if_pos hdone]
    cases c <;> exact ⟨rfl, position, rfl, .inl h⟩
  rw [if_neg hdone, if_neg hdone]
  by_cases hpending : (!e.pending.isEmpty) = true
  · rw [if_pos hpending, if_pos hpending]
    obtain ⟨out, e', hdrain, hlast, hmoved⟩ := drainPending_moved h position n
    unfold TarEncoder.drainFirst
    rw [hdrain, hmoved]
    dsimp only
    split_ifs
    · exact ⟨rfl, position, rfl, .inl hlast⟩
    · exact ⟨rfl, position, rfl, .inl hlast⟩
  rw [if_neg hpending, if_neg hpending]
  cases c with
  | beginEntry m =>
    unfold TarEncoder.beginEntry
    dsimp only
    have hchecks : ({ e with logicalPosition := position } : TarEncoder).beginChecks m =
        e.beginChecks m := rfl
    rw [hchecks]
    rcases e.beginChecks m with err | ⟨logicalSize, entries, stored⟩
    · exact ⟨rfl, position, rfl, .inl h⟩
    · dsimp only
      rcases writeV2Header m (.fromMetadata m stored) (!m.sparse.isEmpty) e.pending with
        ⟨err | written, pending⟩
      · exact ⟨rfl, position, rfl, .inl h⟩
      · dsimp only
        split_ifs
        · exact ⟨rfl, position, rfl, .inl h⟩
        · exact ⟨rfl, moved_refl _⟩
  | data input =>
    unfold TarEncoder.data
    dsimp only
    rw [if_pos hsparse, if_pos hsparse]
    split_ifs
    · exact ⟨rfl, position, rfl, .inl h⟩
    · exact ⟨rfl, position, rfl, .inl h⟩
    · exact ⟨rfl, position, rfl, .inl h⟩
    · exact ⟨rfl, position, rfl, .inl h⟩
    · exact @accountData_bisimilar
        { e with logicalPosition := (e.logicalPosition + min input.length n) % 2 ^ 64 } h _ _ _ _
  | endEntry =>
    unfold TarEncoder.endEntry
    dsimp only
    split_ifs
    · exact ⟨rfl, position, rfl, .inl h⟩
    · exact ⟨rfl, position, rfl, .inl h⟩
    · split
      · exact ⟨rfl, position, rfl, .inl h⟩
      · next pad _ =>
        obtain ⟨out, e', hdrain, hlast, hmoved⟩ := @drainPending_moved
          { e with pending := List.replicate pad 0, isOpen := false, sparse := [] } rfl position n
        unfold TarEncoder.drained
        rw [hdrain, hmoved]
        exact ⟨rfl, position, rfl, .inl hlast⟩
  | finish =>
    unfold TarEncoder.finish
    dsimp only
    by_cases hopen : e.isOpen = true
    · rw [if_pos hopen, if_pos hopen]
      exact ⟨rfl, position, rfl, .inl h⟩
    · rw [if_neg hopen, if_neg hopen]
      obtain ⟨out, e', hdrain, hlast, hmoved⟩ := @drainPending_moved
        { e with pending := List.replicate (2 * BLOCK) 0, finishing := true } h position n
      rw [hdrain, hmoved]
      dsimp only
      cases e'.pending.isEmpty with
      | true => exact ⟨rfl, position, rfl, .inl hlast⟩
      | false => exact ⟨rfl, position, rfl, .inl hlast⟩

end Tar

/-! ### The encoders -/

open Tar.Encoder Cpio.Encoder Ar.Encoder

/-- Refused commands of this kind can be left out of a script: nothing changes in the answers to the
other commands, nor in those to the commands behind the script. -/
def Omissible {σ : Type} (step : EncodeFn σ) (Untouched : σ → EncodeCommand → Prop)
    (later : List (EncodeCommand × ℕ)) : Prop :=
  ∀ e cs, Refused (call step) (fun e c => Untouched e c.1) e cs →
    answers (call step) e (survivors (call step) e cs ++ later) =
      (answers (call step) e cs).filter Except.isOk ++
        answers (call step) (after (call step) e cs) later

/-- **A refused command leaves no trace**, of the kinds that are refused before anything is staged. -/
theorem refused_commands_omissible (later : List (EncodeCommand × ℕ)) :
    Omissible TarEncoder.step TarUntouched later ∧
      Omissible CpioEncoder.step CpioUntouched later ∧ Omissible ArEncoder.step ArUntouched later := by
  refine ⟨?_, ?_, ?_⟩
  · intro e cs hrun
    refine answers_survivors (fun e c hc hfail => ?_) hrun later
    exact same_of_bisimilar tar_bisimilar (tar_untouched hc hfail)
  · intro e cs hrun
    refine answers_survivors (fun e c hc hfail => ?_) hrun later
    rw [call, cpio_untouched hc hfail]
    exact same_refl e
  · intro e cs hrun
    refine answers_survivors (fun e c hc hfail => ?_) hrun later
    rw [call, ar_untouched hc hfail]
    exact same_refl e

/-- A file of an owner whose number has seven octal digits. -/
def largeOwner : EntryMetadata where
  kind := .file
  path := .fromBytes (bstr "a")
  size := some 0
  owner := { uid := some 300000 }

/-- The fields in front of the owner stay, and come out in front of the trailer. -/
theorem odc_refusal_staged :
    ((CpioEncoder.withDialect .unlimited .odc).step (.beginEntry largeOwner) 512).2.isOk = false ∧
      ¬ Same (call CpioEncoder.step) (CpioEncoder.withDialect .unlimited .odc)
        ((CpioEncoder.withDialect .unlimited .odc).step (.beginEntry largeOwner) 512).1 := by
  refine ⟨by decide +kernel, fun hsame => ?_⟩
  have hconsumed := congrArg
    (fun rs => rs.map fun r => r.toOption.map EncodeStep.consumed) (hsame [(.finish, 512)])
  exact absurd hconsumed (by decide +kernel)

end LibarchiveOxide.Formats.Refusals
