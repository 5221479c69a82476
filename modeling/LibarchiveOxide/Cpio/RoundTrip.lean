import LibarchiveOxide.Cpio.Archive
import LibarchiveOxide.Cpio.Dialects
import LibarchiveOxide.Cpio.Writing

/-! # Written records, as they are read

What the encoder writes is an archive of the decoder: the records of the accepted entries
(`record_of_accepts`) and a trailer (`trailer_of_stage`). -/

namespace LibarchiveOxide.Cpio.Records

open Core.Failure Core.Budget Core.Metadata Core.Encode Cpio.Header Cpio.Decoder Cpio.Encoder
open Cpio.Dialects Cpio.Writing Cpio.Archive Lib.Result

/-- What is read of a header that is written with these values. -/
def parsedBack (dialect : CpioDialect) (v : HeaderValues) (name : List Byte) : ParsedHeader where
  metadata := metadataOf (fieldsBack dialect v) name
  size := v.size.toNat
  padding := payloadPadding (alignmentOf dialect) v.size.toNat
  checksum := v.checksum
  trailer := name == trailerName

section
variable {e e1 e2 : CpioEncoder} {name : List Byte} {m : Option EntryMetadata} {staged : StagedHeader}

theorem alignmentOf_pos (dialect : CpioDialect) : 0 < alignmentOf dialect := by
  cases dialect <;> decide

theorem two_le_fixedLength (dialect : CpioDialect) : 2 ≤ fixedLength dialect := by
  cases dialect <;> decide

theorem namesize_of_headerValues {dialect : CpioDialect} {inode : UInt32} {v : HeaderValues}
    (h : headerValues dialect inode name m = .ok v) : v.namesize = name.length + 1 := by
  obtain ⟨checksum, rfl, -⟩ := headerValues_ok h
  rfl

/-- **A staged header is read back.** -/
theorem header_of_stage (h : e.stageHeader name m = (e1, .ok staged)) :
    ∃ v, headerValues e.dialect e.inode name m = .ok v ∧ Head .unlimited e1.pending ∧
      parseHeader .unlimited e1.pending = .ok (parsedBack e.dialect v name) ∧
      staged = ⟨v.size, ⟨v.inode, v.links, v.device⟩, alignmentOf e.dialect, v.checksum⟩ := by
  obtain ⟨v, fixed, len, hv, hw, halign, rfl, hstaged⟩ := stageHeader_ok h
  have hfixed := fixed_of_writeHeader hv hw
  have hname : (fieldsBack e.dialect v).namesize = name.length + 1 := namesize_of_headerValues hv
  have h2 : 2 ≤ fixed.length := hfixed.length ▸ two_le_fixedLength e.dialect
  have hsize : (fieldsBack e.dialect v).size ≤ u64Max := by
    have hlt := v.size.toNat_lt
    have hmax : u64Max = 2 ^ 64 - 1 := rfl
    show v.size.toNat ≤ u64Max
    omega
  refine ⟨v, hv, ?_, ?_, hstaged⟩
  · exact hfixed.head h2 (alignmentOf_pos _) hname halign
  · exact hfixed.parse hname (le_of_aligned (alignmentOf_pos _) halign) hsize

/-- The padding that is written is the one that is read. -/
theorem padding_eq {size alignment : ℕ} (ha : 0 < alignment) :
    (if size % alignment = 0 then 0 else alignment - size % alignment) =
      payloadPadding alignment size := by
  have hlt := Nat.mod_lt size ha
  unfold payloadPadding
  split_ifs with h
  · rw [h, Nat.sub_zero, Nat.mod_self]
  · exact (Nat.mod_eq_of_lt (by omega)).symm

/-- **The record of an accepted entry.** -/
theorem record_of_accepts {x : EntryMetadata × List Byte} {r : Written} (h : Accepts e x r e2)
    (hname : r.metadata.path.raw ≠ trailerName) :
    ∃ (c : Record) (v : HeaderValues),
      headerValues e.dialect e.inode r.metadata.path.raw (some r.metadata) = .ok v ∧
      c.bytes = r.bytes ∧ c.payload = x.2 ∧
      c.parsed = parsedBack e.dialect v r.metadata.path.raw := by
  cases h with
  | @intro entries m e0 staged hc hs hsize hsum =>
    obtain ⟨v, hv, hhead, hparse, rfl⟩ := header_of_stage hs
    have hpad : (List.replicate (e0.opened entries m ⟨v.size, ⟨v.inode, v.links, v.device⟩,
        alignmentOf e.dialect, v.checksum⟩).endPadding (0 : Byte)).length =
        (parsedBack e.dialect v m.path.raw).padding := by
      rw [List.length_replicate]
      exact padding_eq (alignmentOf_pos _)
    exact ⟨⟨e0.pending, parsedBack e.dialect v m.path.raw, x.2, _, hhead, hparse,
      by simpa [parsedBack] using hname, hsize.symm, hpad, hsum⟩, v, hv, rfl, rfl, rfl⟩

/-- **The trailer.** -/
theorem trailer_of_stage (h : e.stageHeader trailerName none = (e1, .ok staged)) :
    ∃ t : Trailer, t.header = e1.pending := by
  obtain ⟨v, -, hhead, hparse, -⟩ := header_of_stage h
  exact ⟨⟨e1.pending, _, hhead, hparse, by simp [parsedBack]⟩, rfl⟩

end

end LibarchiveOxide.Cpio.Records

/-! # The cpio round trip

In every dialect, an accepted script of entries that are no hardlinks is read back as it was given,
with the defaults of what was not set. -/

namespace LibarchiveOxide.Cpio.RoundTrip

open Core.Failure Core.Budget Core.Metadata Core.Encode Core.Drive Core.Meaning Cpio.Header
open Cpio.Decoder Cpio.Encoder Cpio.Dialects Cpio.Writing Cpio.Archive Cpio.Records Lib.Result

/-- The seconds of the modification time. -/
def modifiedSecs (m : EntryMetadata) : Option Int64 := m.times.modified.map (·.secs)

/-- An entry that is no link, with the declared size and a time in whole seconds. -/
structure Plain (x : EntryMetadata × List Byte) : Prop where
  kind : x.1.kind ≠ .hardlink
  links : ∀ n, x.1.links = some n → n ≤ 1
  size : x.1.size.map UInt64.toNat = some x.2.length
  modified : ∀ t, x.1.times.modified = some t → 0 ≤ t.secs.toInt ∧ t.nanos = 0
  path : x.1.path.raw ≠ trailerName

/-- An entry that is read back as it was given, with the defaults of what was not set. -/
structure Matches (dialect : CpioDialect) (x y : EntryMetadata × List Byte) : Prop where
  kind : y.1.kind = x.1.kind
  path : y.1.path.raw = x.1.path.raw
  size : y.1.size = x.1.size
  mode : y.1.mode = some (x.1.mode.getD (defaultMode x.1.kind) &&& 0o7777)
  uid : y.1.owner.uid = some (x.1.owner.uid.getD 0)
  gid : y.1.owner.gid = some (x.1.owner.gid.getD 0)
  modified : modifiedSecs y.1 = some ((modifiedSecs x.1).getD 0)
  links : y.1.links = some (x.1.links.getD 1)
  device : y.1.device = some (x.1.device.getD {})
  referencedDevice : y.1.referencedDevice = some (x.1.referencedDevice.getD {})
  inode : ∀ n, x.1.inode = some n → y.1.inode = some n
  checksum : dialect = .crc → y.1.checksum = some (x.1.checksum.getD (.ofCpioSum32 0))
  body : y.2 = x.2

/-! ### Numbers -/

theorem and_mode (bits : ℕ) (x : UInt32) {mask : ℕ} :
    (bits ||| (x &&& 0o7777).toNat) &&& mask = (bits &&& mask) ||| (x.toNat &&& (0o7777 &&& mask)) := by
  have hand : (x &&& 0o7777).toNat = x.toNat &&& 0o7777 := by
    rw [UInt32.toNat_and]
    rfl
  rw [Nat.and_or_distrib_right, hand, Nat.and_assoc]

theorem kindFromMode_modeBits {kind : EntryKind} (h : kind ≠ .hardlink) (x : UInt32) :
    kindFromMode (modeBits kind ||| (x &&& 0o7777).toNat) = kind := by
  have hmask : 0o7777 &&& sIfmt = 0 := by decide
  unfold kindFromMode
  simp only [and_mode, hmask, Nat.and_zero, Nat.or_zero]
  cases kind with
  | hardlink => exact absurd rfl h
  | _ => decide

theorem mode_modeBits (kind : EntryKind) (x : UInt32) :
    UInt32.ofNat ((modeBits kind ||| (x &&& 0o7777).toNat) &&& 0o7777) = x &&& 0o7777 := by
  have hbits : modeBits kind &&& 0o7777 = 0 := by cases kind <;> decide
  have hand : x.toNat &&& 0o7777 = (x &&& 0o7777).toNat := by
    rw [UInt32.toNat_and]
    rfl
  rw [and_mode, hbits, Nat.zero_or, Nat.and_self, hand, UInt32.ofNat_toNat]

theorem seconds_back {s : Int64} (h : 0 ≤ s.toInt) : (i64Of s.toInt.toNat).getD i64Max = s := by
  have hlt := s.toInt_lt
  have hcast : ((s.toInt.toNat : ℕ) : ℤ) = s.toInt := Int.toNat_of_nonneg h
  rw [i64Of, hcast, if_pos ⟨by omega, hlt⟩, Option.getD_some, Int64.ofInt_toInt]

theorem beBytes32_back {bytes : List Byte} {v : UInt32} (h : ofBeBytes32 bytes = some v) :
    beBytes32 v = bytes := by
  unfold ofBeBytes32 at h
  split at h
  · next a b c d =>
    cases h
    have h24 : ((a.toUInt32 <<< 24 ||| b.toUInt32 <<< 16 ||| c.toUInt32 <<< 8 ||| d.toUInt32) >>> 24).toUInt8
        = a := by
      apply UInt8.eq_of_toBitVec_eq
      apply BitVec.eq_of_getLsbD_eq
      intro i hi
      simp
      interval_cases i <;> simp
    have h16 : ((a.toUInt32 <<< 24 ||| b.toUInt32 <<< 16 ||| c.toUInt32 <<< 8 ||| d.toUInt32) >>> 16).toUInt8
        = b := by
      apply UInt8.eq_of_toBitVec_eq
      apply BitVec.eq_of_getLsbD_eq
      intro i hi
      simp
      interval_cases i <;> simp
    have h8 : ((a.toUInt32 <<< 24 ||| b.toUInt32 <<< 16 ||| c.toUInt32 <<< 8 ||| d.toUInt32) >>> 8).toUInt8
        = c := by
      apply UInt8.eq_of_toBitVec_eq
      apply BitVec.eq_of_getLsbD_eq
      intro i hi
      simp
      interval_cases i <;> simp
    have h0 : (a.toUInt32 <<< 24 ||| b.toUInt32 <<< 16 ||| c.toUInt32 <<< 8 ||| d.toUInt32).toUInt8 = d := by
      apply UInt8.eq_of_toBitVec_eq
      apply BitVec.eq_of_getLsbD_eq
      intro i hi
      simp
    rw [beBytes32, h24, h16, h8, h0]
  · cases h

theorem checksum_back {size : UInt64} {checksum : Option Checksum} {sum : UInt32}
    (h : declaredChecksum size checksum = .ok sum) :
    Checksum.ofCpioSum32 sum = checksum.getD (.ofCpioSum32 0) := by
  unfold declaredChecksum at h
  dsimp only at h
  split at h
  · next c =>
    split_ifs at h with halg
    obtain ⟨algorithm, bytes, hlen⟩ := c
    have halg : algorithm = .cpioSum32 := halg
    subst halg
    have hback := beBytes32_back (okOr_eq_ok.mp h)
    rw [Option.getD_some, Checksum.ofCpioSum32]
    simp only [hback]
  · split_ifs at h
    cases h
    rfl

/-! ### Entries -/

section
variable {dialect : CpioDialect} {x : EntryMetadata × List Byte} {xs : List (EntryMetadata × List Byte)}

/-- The record of an entry that is written as it was given. -/
def RecordOf (dialect : CpioDialect) (x : EntryMetadata × List Byte) (c : Record) : Prop :=
  ∃ inode v, headerValues dialect inode x.1.path.raw (some x.1) = .ok v ∧ c.payload = x.2 ∧
    c.parsed = parsedBack dialect v x.1.path.raw

theorem modifiedSecs_metadataOf (f : Fields) (name : List Byte) :
    modifiedSecs (metadataOf f name) = some ((i64Of (f.mtime : ℤ)).getD i64Max) := by
  simp only [modifiedSecs, metadataOf, Option.map_some, Timestamp.fromSeconds]

/-- **What is read of an entry matches it.** -/
theorem matches_of_record {c : Record} (hx : Plain x) (h : RecordOf dialect x c) :
    Matches dialect x (c.parsed.metadata, c.payload) := by
  obtain ⟨inode, v, hv, hbody, hparsed⟩ := h
  obtain ⟨checksum, rfl, hsum⟩ := headerValues_ok hv
  rw [hparsed]
  refine ⟨?_, rfl, ?_, ?_, ?_, ?_, ?_, ?_, rfl, rfl, ?_, ?_, hbody⟩
  · exact kindFromMode_modeBits hx.kind _
  · obtain ⟨n, hn, -⟩ := Option.map_eq_some_iff.mp hx.size
    rw [hn]
    show some (UInt64.ofNat ((x.1.size.getD 0).toNat)) = some n
    rw [hn, Option.getD_some, UInt64.ofNat_toNat]
  · exact congrArg some (mode_modeBits _ _)
  · exact congrArg some UInt64.ofNat_toNat
  · exact congrArg some UInt64.ofNat_toNat
  · have hsecs : ((i64Of (((x.1.times.modified.map (·.secs.toInt.toNat)).getD 0 : ℕ) : ℤ)).getD i64Max)
        = (modifiedSecs x.1).getD 0 := by
      unfold modifiedSecs
      cases ht : x.1.times.modified with
      | none => decide
      | some t =>
        rw [Option.map_some, Option.getD_some, Option.map_some, Option.getD_some]
        exact seconds_back (hx.modified t ht).1
    rw [← hsecs, parsedBack, modifiedSecs_metadataOf]
    rfl
  · exact congrArg some UInt64.ofNat_toNat
  · intro n hn
    show some (UInt64.ofNat (x.1.inode.getD inode.toUInt64).toNat) = some n
    rw [hn, Option.getD_some, UInt64.ofNat_toNat]
  · intro hd
    rw [if_pos hd] at hsum
    obtain ⟨sum, rfl, hsum⟩ := hsum
    exact congrArg some (checksum_back hsum)

/-- Such entries are in no group. -/
theorem not_isGrouped {c : Record} (hx : Plain x) (h : RecordOf dialect x c) :
    isGrouped c.parsed.metadata = false := by
  have hlinks := (matches_of_record hx h).links
  simp only at hlinks
  have hle : ¬ 1 < linksOf c.parsed.metadata := by
    rw [linksOf, hlinks, Option.getD_some]
    cases hl : x.1.links with
    | none => decide
    | some n =>
      have := hx.links n hl
      rw [Option.getD_some, Nat.not_lt]
      exact UInt64.le_iff_toNat_le.mp this
  simp [isGrouped, hle]

theorem dialect_of_accepts {e e2 : CpioEncoder} {r : Written} (h : Accepts e x r e2) :
    e2.dialect = e.dialect := by
  cases h with
  | intro hc hs =>
    obtain ⟨v, fixed, len, -, -, -, rfl, -⟩ := stageHeader_ok hs
    rfl

/-- An entry that is no link is written as it was given. -/
theorem metadata_of_accepts {e e2 : CpioEncoder} {r : Written} (hx : x.1.kind ≠ .hardlink)
    (h : Accepts e x r e2) : r.metadata = x.1 := by
  cases h with
  | intro hc =>
    obtain ⟨-, hc⟩ := guard_eq_ok.mp hc
    obtain ⟨size, -, hc⟩ := bind_eq_ok.mp hc
    obtain ⟨-, hc⟩ := guard_eq_ok.mp hc
    obtain ⟨entries, -, hc⟩ := bind_eq_ok.mp hc
    obtain ⟨-, hc⟩ := guard_eq_ok.mp hc
    obtain ⟨m, hm, hc⟩ := bind_eq_ok.mp hc
    cases hc
    rw [CpioEncoder.effective, if_neg hx] at hm
    cases hm
    rfl

/-- The records of a script. -/
theorem records_of_acceptsAll {e e1 : CpioEncoder} {rs : List Written}
    (h : AcceptsAll e xs rs e1) (hx : ∀ x ∈ xs, Plain x) :
    ∃ cs : List Record, bytesOf cs = rs.flatMap Written.bytes ∧
      List.Forall₂ (RecordOf e.dialect) xs cs := by
  induction h with
  | nil => exact ⟨[], rfl, .nil⟩
  | @cons e e1 e2 x r xs rs h _ ih =>
    obtain ⟨hxx, hxs⟩ := List.forall_mem_cons.mp hx
    have hm := metadata_of_accepts hxx.kind h
    obtain ⟨c, v, hv, hbytes, hpay, hparsed⟩ := record_of_accepts h (by rw [hm]; exact hxx.path)
    obtain ⟨cs, hcs, hall⟩ := ih hxs
    rw [dialect_of_accepts h] at hall
    rw [hm] at hv hparsed
    refine ⟨c :: cs, ?_, .cons ⟨e.inode, v, hv, hpay, hparsed⟩ hall⟩
    rw [bytesOf_cons, List.flatMap_cons, hbytes, hcs]

/-- Records in no group are reported one after the other. -/
theorem readAll_single : ∀ {cs : List Record} {d : CpioDecoder}, d.queued = [] →
    (∀ c ∈ cs, isGrouped c.parsed.metadata = false) →
    ∃ d', readAll d cs = .ok (cs.flatMap fun c => entryAtoms (c.parsed.metadata, c.payload), d') ∧
      d'.hardlinks = d.hardlinks
  | [], d, _, _ => ⟨d, rfl, rfl⟩
  | c :: cs, d, hq, hc => by
    obtain ⟨hcc, hcs⟩ := List.forall_mem_cons.mp hc
    have hfile : file d c.parsed = .ok (some c.parsed.metadata, { d with entries := d.entries + 1 }) := by
      rw [file, CpioDecoder.classifyHardlink, if_pos (by simp [hcc])]
    obtain ⟨d', hread, hlinks⟩ :=
      readAll_single (d := settled { d with entries := d.entries + 1 } c.parsed.size) rfl hcs
    refine ⟨d', ?_, hlinks⟩
    rw [readAll, hfile, ok_bind]
    simp only [hread, ok_bind]
    rw [List.flatMap_cons, hq]
    simp [recordAtoms, queuedAtoms, entryAtoms]

end

/-- **Round trip in every dialect.** The bound is the one of a slice, which holds all of the output. -/
theorem encoded_readsBack (metadataSize : ℕ) {dialect : CpioDialect}
    {xs : List (EntryMetadata × List Byte)} {out : List Byte} (hx : ∀ x ∈ xs, Plain x)
    (he : Encodes CpioEncoder.step (.withDialect .unlimited dialect) (script xs) out)
    (hout : out.length ≤ u64Max) :
    Reads CpioDecoder.step (.new .unlimited metadataSize) out fun as =>
      ∃ ys, as = ys.flatMap entryAtoms ∧ List.Forall₂ (Matches dialect) xs ys := by
  obtain ⟨rs, e1, e2, staged, hrs, ht, rfl⟩ := encodes_script he
  obtain ⟨cs, hbytes, hall⟩ := records_of_acceptsAll hrs hx
  obtain ⟨t, ht⟩ := trailer_of_stage ht
  rw [← hbytes, ← ht] at hout ⊢
  rw [reads_archive_iff t (ready_new metadataSize hout)]
  have hgrouped : ∀ c ∈ cs, isGrouped c.parsed.metadata = false := by
    intro c hc
    obtain ⟨i, hi, rfl⟩ := List.mem_iff_getElem.mp hc
    have hj : i < xs.length := hall.length_eq ▸ hi
    exact not_isGrouped (hx _ (List.getElem_mem hj)) (hall.get hj hi)
  obtain ⟨d, hread, hlinks⟩ := readAll_single (d := .new .unlimited metadataSize) rfl hgrouped
  refine ⟨_, d, hread, cs.map fun c => (c.parsed.metadata, c.payload), ?_, ?_⟩
  · rw [hlinks, List.flatMap_map]
    exact List.append_nil _
  · rw [List.forall₂_map_right_iff]
    have hboth := (List.forall₂_and_left xs cs).mpr ⟨hx, hall⟩
    exact hboth.imp fun x c h => matches_of_record h.1 h.2

/-- A file with one byte. -/
def oneByte : EntryMetadata × List Byte :=
  ({ kind := .file, path := .fromBytes (bstr "a"), size := some 1 }, [7])

theorem encoded_readsBack_oneByte : ∃ out, (∀ x ∈ [oneByte], Plain x) ∧
    Encodes CpioEncoder.step (.withDialect .unlimited .odc) (script [oneByte]) out ∧
    out.length ≤ u64Max ∧
    Reads CpioDecoder.step (.new .unlimited 512) out fun as =>
      ∃ ys, as = ys.flatMap entryAtoms ∧ List.Forall₂ (Matches .odc) [oneByte] ys := by
  have hx : ∀ x ∈ [oneByte], Plain x := by
    intro x hx
    obtain rfl := List.mem_singleton.mp hx
    exact ⟨nofun, nofun, rfl, nofun, by decide⟩
  have hsome : ∃ out, Encodes CpioEncoder.step (.withDialect .unlimited .odc) (script [oneByte]) out ∧
      out.length ≤ u64Max := by
    refine ⟨_, .call (n := 200) rfl (.call (n := 200) rfl (.call (n := 200) rfl
      (.call (n := 200) rfl (.nil _)))), ?_⟩
    decide +kernel
  obtain ⟨out, he, hout⟩ := hsome
  exact ⟨out, hx, he, hout, encoded_readsBack 512 hx he hout⟩

end LibarchiveOxide.Cpio.RoundTrip
