import LibarchiveOxide.Ar.Decoder
import LibarchiveOxide.Async.FilterReader
import LibarchiveOxide.Cpio.Decoder
import LibarchiveOxide.Lib.Signatures
import LibarchiveOxide.Tar.Decoder

/-! # Detection of formats and filters

Every format but three has a signature of a few bytes, and no signature starts another one; so what has
one is decided once these bytes are there. A tar header has its checksum only. It is decided after 512
bytes, while the volume signatures of UDF and ISO 9660, which come first, are 32 KiB away. -/

namespace LibarchiveOxide.Formats.Probing

open Core.Failure Core.Budget Core.Protocol Lib.Signatures Lib.Slice
open LibarchiveOxide.Async.FilterReader (FilterId)

/-- `usize::MAX`. -/
def usizeMax : ℕ := u64Max

/-- The answer for the number of bytes that could decide, `usize::MAX` for none. -/
def settled {α : Type} (minimum : ℕ) : ProbeResult α :=
  if minimum = usizeMax then .noMatch else .needMore minimum

/-! ### Filters -/

/-- `BZIP2_PREFIX`. -/
def bzip2Prefix : List Byte := bstr "BZh"

/-- `SIGNATURES`. -/
def filterSignatures : List (FilterId × List Byte) :=
  [(.gzip, [0x1f, 0x8b]), (.compress, [0x1f, 0x9d]), (.zstd, [0x28, 0xb5, 0x2f, 0xfd]),
    (.xz, [0xfd, 0x37, 0x7a, 0x58, 0x5a, 0x00]), (.lz4, [0x04, 0x22, 0x4d, 0x18]),
    (.lzip, bstr "LZIP")]

/-- The loop over the signatures, which keeps the number of bytes that could decide. -/
def search (pre : List Byte) : List (FilterId × List Byte) → ℕ → ProbeResult FilterId
  | [], minimum => settled minimum
  | (identifier, signature) :: rest, minimum =>
    if signature.isPrefixOf pre then .isMatch identifier
    else
      search pre rest <|
        if pre.length < signature.length ∧ pre.isPrefixOf signature then min minimum signature.length
        else minimum

/-- The byte is a block size, `b'1'..=b'9'`. -/
def isLevel (b : Byte) : Bool := chr '1' ≤ b && b ≤ chr '9'

/-- `FilterId::probe`. -/
def probeFilter (pre : List Byte) : ProbeResult FilterId :=
  if pre.length < bzip2Prefix.length ∧ pre.isPrefixOf bzip2Prefix then search pre filterSignatures 4
  else if bzip2Prefix.isPrefixOf pre then
    if pre.length < 4 then .needMore 4
    else if isLevel (pre.getD 3 0) then .isMatch .bzip2
    else search pre filterSignatures usizeMax
  else search pre filterSignatures usizeMax

/-! ### Formats -/

/-- `FormatId`, without the range of the downstream formats. -/
inductive FormatId where
  | tar
  | cpio
  | ar
  | zip
  | sevenZip
  | iso9660
  | udf
  | cab
  | xar
  | empty
  | raw
  | warc
deriving DecidableEq

/-- The signatures at the start, in their order. -/
def formatSignatures : List (FormatId × List Byte) :=
  [(.warc, bstr "WARC/1.0\r\n"), (.warc, bstr "WARC/1.1\r\n"), (.zip, [0x50, 0x4b, 0x03, 0x04]),
    (.zip, [0x50, 0x4b, 0x05, 0x06]), (.sevenZip, [0x37, 0x7a, 0xbc, 0xaf, 0x27, 0x1c]),
    (.cab, bstr "MSCF"), (.xar, bstr "xar!")]

def isoSignatureEnd : ℕ := 16 * 2048 + 6
def udfSignatureEnd : ℕ := 17 * 2048 + 6

/-- The volume recognition sequence of a UDF image. -/
def udfSignature (pre : List Byte) : Prop :=
  udfSignatureEnd ≤ pre.length ∧
    window pre (16 * 2048 + 1) (16 * 2048 + 6) = bstr "BEA01" ∧
    (window pre (17 * 2048 + 1) udfSignatureEnd = bstr "NSR02" ∨
      window pre (17 * 2048 + 1) udfSignatureEnd = bstr "NSR03")

/-- The descriptor of an ISO 9660 image, which is looked for once the UDF one could be there. -/
def isoSignature (pre : List Byte) : Prop :=
  udfSignatureEnd ≤ pre.length ∧ isoSignatureEnd ≤ pre.length ∧
    window pre (16 * 2048 + 1) isoSignatureEnd = bstr "CD001"

instance (pre : List Byte) : Decidable (udfSignature pre) := by unfold udfSignature; infer_instance
instance (pre : List Byte) : Decidable (isoSignature pre) := by unfold isoSignature; infer_instance

/-- The smaller of a length and that of an answer that needs more. -/
def wanted (minimum : ℕ) : ProbeResult Unit → ℕ
  | .needMore candidate => min minimum candidate
  | _ => minimum

/-- The number of bytes that could decide. -/
def minimumOf (pre : List Byte) : ℕ :=
  let minimum := shortest formatSignatures pre usizeMax
  let minimum := [Cpio.Decoder.probe pre, Ar.Decoder.probe pre, Tar.Decoder.probe pre].foldl wanted
    minimum
  if pre.length < udfSignatureEnd then min minimum udfSignatureEnd else minimum

/-- `FormatId::probe`. -/
def probeFormat (pre : List Byte) : ProbeResult FormatId :=
  match first formatSignatures pre with
  | some identifier => .isMatch identifier
  | none =>
    if Cpio.Decoder.probe pre = .isMatch () then .isMatch .cpio
    else if Ar.Decoder.probe pre = .isMatch () then .isMatch .ar
    else if udfSignature pre then .isMatch .udf
    else if isoSignature pre then .isMatch .iso9660
    else if Tar.Decoder.probe pre = .isMatch () then .isMatch .tar
    else settled (minimumOf pre)

/-! ### Stable answers -/

variable {m : ℕ}

/-- What an answer promises about the answers to longer inputs. -/
structure Stable {α : Type} (probe : List Byte → ProbeResult α) (p s : List Byte) : Prop where
  matched : ∀ x, probe p = .isMatch x → probe (p ++ s) = .isMatch x
  refused : probe p = .noMatch → probe (p ++ s) = .noMatch
  wants : ∀ minimum, probe p = .needMore minimum → p.length < minimum

@[simp] theorem settled_ne_isMatch {α : Type} (m : ℕ) (x : α) : settled m ≠ .isMatch x := by
  unfold settled
  split <;> simp

theorem settled_eq_noMatch {α : Type} : settled m = (.noMatch : ProbeResult α) ↔ m = usizeMax := by
  unfold settled
  split <;> simp [*]

theorem settled_eq_needMore {α : Type} {k : ℕ} (h : settled m = (.needMore k : ProbeResult α)) :
    m = k ∧ m ≠ usizeMax := by
  unfold settled at h
  split at h
  · cases h
  · cases h
    exact ⟨rfl, ‹_›⟩

/-! ### The filters -/

variable {p : List Byte}

theorem search_eq (pre : List Byte) (table : List (FilterId × List Byte)) (m : ℕ) :
    search pre table m =
      (first table pre).elim (settled (shortest table pre m)) ProbeResult.isMatch := by
  induction table generalizing m with
  | nil => rfl
  | cons e table ih =>
    obtain ⟨identifier, signature⟩ := e
    rw [search]
    by_cases h : signature.isPrefixOf pre = true
    · rw [if_pos h]
      simp [first, h]
    · have hfirst : first ((identifier, signature) :: table) pre = first table pre := by
        simp [first, h]
      rw [if_neg h, ih, hfirst]
      rfl

theorem filterSignatures_apart : Apart ((.bzip2, bzip2Prefix) :: filterSignatures) := by decide

theorem filterSignatures_length : ∀ e ∈ filterSignatures, e.2.length ≤ 6 := by decide

/-- A list with a signature is not on its way to a bzip2 header. -/
theorem not_bzip2_of_first {x : FilterId} (h : first filterSignatures p = some x) :
    ¬ bzip2Prefix <+: p ∧ ¬ p <+: bzip2Prefix := by
  obtain ⟨e, he, rfl, hp⟩ := exists_of_first h
  have hmem := List.mem_cons_of_mem (.bzip2, bzip2Prefix) he
  have hother : ∀ e ∈ filterSignatures, e.1 ≠ .bzip2 := by decide
  constructor
  · exact fun hb => hother e he (filterSignatures_apart.name_eq hmem List.mem_cons_self hp hb)
  · exact fun hb => hother e he (filterSignatures_apart e hmem _ List.mem_cons_self (hp.trans hb))

/-- The header of a bzip2 stream: its prefix and a block size. -/
def Bzip2Header (p : List Byte) : Prop :=
  bzip2Prefix <+: p ∧ 4 ≤ p.length ∧ isLevel (p.getD 3 0) = true

theorem probeFilter_of_first {x : FilterId} (h : first filterSignatures p = some x) :
    probeFilter p = .isMatch x := by
  obtain ⟨hafter, hbefore⟩ := not_bzip2_of_first h
  unfold probeFilter
  rw [if_neg fun hb => hbefore (List.isPrefixOf_iff_prefix.mp hb.2),
    if_neg fun hb => hafter (List.isPrefixOf_iff_prefix.mp hb), search_eq, h]
  rfl

theorem probeFilter_of_header (h : Bzip2Header p) : probeFilter p = .isMatch .bzip2 := by
  obtain ⟨hpre, hlen, hlevel⟩ := h
  unfold probeFilter
  rw [if_neg fun hb => absurd hb.1 (Nat.not_lt.mpr hpre.length_le),
    if_pos (List.isPrefixOf_iff_prefix.mpr hpre), if_neg (Nat.not_lt.mpr hlen), if_pos hlevel]

/-- A list that is not on its way to a bzip2 header, or has a byte in it that is no block size. -/
def Bzip2Refused (p : List Byte) : Prop :=
  bzip2Prefix <+: p ∧ 4 ≤ p.length ∧ isLevel (p.getD 3 0) = false ∨
    Foreign [(FilterId.bzip2, bzip2Prefix)] p

theorem getD_append_left {i : ℕ} (h : i < p.length) (s : List Byte) (d : Byte) :
    (p ++ s).getD i d = p.getD i d := by
  rw [List.getD_eq_getElem?_getD, List.getD_eq_getElem?_getD, List.getElem?_append_left h]

theorem Bzip2Header.append (h : Bzip2Header p) (s : List Byte) : Bzip2Header (p ++ s) := by
  obtain ⟨hpre, hlen, hlevel⟩ := h
  refine ⟨hpre.trans (List.prefix_append p s), ?_, by rwa [getD_append_left hlen]⟩
  rw [List.length_append]
  omega

theorem Bzip2Refused.append (h : Bzip2Refused p) (s : List Byte) : Bzip2Refused (p ++ s) := by
  rcases h with ⟨hpre, hlen, hlevel⟩ | hforeign
  · refine .inl ⟨hpre.trans (List.prefix_append p s), ?_, by rwa [getD_append_left hlen]⟩
    rw [List.length_append]
    omega
  · exact .inr (hforeign.append s)

/-- A list that both tests refuse has no filter. -/
theorem probeFilter_of_refused (hforeign : Foreign filterSignatures p) (hbzip2 : Bzip2Refused p) :
    probeFilter p = .noMatch := by
  have hsearch : search p filterSignatures usizeMax = .noMatch := by
    rw [search_eq, hforeign.first_eq]
    refine settled_eq_noMatch.mpr (shortest_eq (fun e he _ => (hforeign e he).2) _)
  unfold probeFilter
  rcases hbzip2 with ⟨hpre, hlen, hlevel⟩ | hother
  · rw [if_neg fun hb => absurd hb.1 (Nat.not_lt.mpr hpre.length_le),
      if_pos (List.isPrefixOf_iff_prefix.mpr hpre), if_neg (Nat.not_lt.mpr hlen), hlevel]
    exact hsearch
  · obtain ⟨hafter, hbefore⟩ := hother _ List.mem_cons_self
    rw [if_neg fun hb => hbefore (List.isPrefixOf_iff_prefix.mp hb.2),
      if_neg fun hb => hafter (List.isPrefixOf_iff_prefix.mp hb), hsearch]

/-- The ways through the bzip2 test. -/
theorem probeFilter_cases (p : List Byte) :
    (p.length < 3 ∧ probeFilter p = search p filterSignatures 4) ∨
    (p.length < 4 ∧ probeFilter p = .needMore 4) ∨
    (Bzip2Header p ∧ probeFilter p = .isMatch .bzip2) ∨
    (Bzip2Refused p ∧ probeFilter p = search p filterSignatures usizeMax) := by
  unfold probeFilter
  by_cases hshort : p.length < bzip2Prefix.length ∧ p.isPrefixOf bzip2Prefix
  · rw [if_pos hshort]
    exact .inl ⟨hshort.1, rfl⟩
  rw [if_neg hshort]
  by_cases hpre : bzip2Prefix.isPrefixOf p
  · rw [if_pos hpre]
    by_cases hlen : p.length < 4
    · rw [if_pos hlen]
      exact .inr (.inl ⟨hlen, rfl⟩)
    rw [if_neg hlen]
    have hpre := List.isPrefixOf_iff_prefix.mp hpre
    by_cases hlevel : isLevel (p.getD 3 0) = true
    · rw [if_pos hlevel]
      exact .inr (.inr (.inl ⟨⟨hpre, Nat.not_lt.mp hlen, hlevel⟩, rfl⟩))
    · rw [if_neg hlevel]
      exact .inr (.inr (.inr ⟨.inl ⟨hpre, Nat.not_lt.mp hlen, Bool.not_eq_true _ ▸ hlevel⟩, rfl⟩))
  · rw [if_neg hpre]
    have hpre := mt List.isPrefixOf_iff_prefix.mpr hpre
    refine .inr (.inr (.inr ⟨.inr ?_, rfl⟩))
    rintro e he
    obtain rfl := List.mem_singleton.mp he
    refine ⟨hpre, fun hb => ?_⟩
    rcases Nat.lt_or_ge p.length bzip2Prefix.length with hlt | hge
    · exact hshort ⟨hlt, List.isPrefixOf_iff_prefix.mpr hb⟩
    · exact hpre (hb.eq_of_length_le hge ▸ List.prefix_rfl)

theorem first_of_search {x : FilterId} (h : search p filterSignatures m = .isMatch x) :
    first filterSignatures p = some x := by
  rw [search_eq] at h
  cases hfirst : first filterSignatures p with
  | none =>
    rw [hfirst] at h
    exact absurd h (settled_ne_isMatch _ _)
  | some y =>
    rw [hfirst] at h
    cases h
    rfl

theorem search_eq_of_ne (h : ∀ x, search p filterSignatures m ≠ .isMatch x) :
    first filterSignatures p = none ∧
      search p filterSignatures m = settled (shortest filterSignatures p m) := by
  cases hfirst : first filterSignatures p with
  | none =>
    refine ⟨rfl, ?_⟩
    rw [search_eq, hfirst]
    rfl
  | some y => exact absurd (by rw [search_eq, hfirst]; rfl) (h y)

theorem usizeMax_large : 34822 < usizeMax := by
  unfold usizeMax u64Max
  norm_num

/-- A search that gives up has no signature before it and none behind it. -/
theorem foreign_of_search (hm : m ≤ usizeMax) (h : search p filterSignatures m = .noMatch) :
    m = usizeMax ∧ Foreign filterSignatures p := by
  obtain ⟨hfirst, hsearch⟩ := search_eq_of_ne (p := p) (m := m) (by simp [h])
  have hleast := settled_eq_noMatch.mp (hsearch.symm.trans h)
  refine ⟨le_antisymm hm (hleast ▸ shortest_le m), fun e he => ?_⟩
  have hnot := first_eq_none_iff.mp hfirst e he
  refine ⟨hnot, fun hpre => ?_⟩
  have hlt : p.length < e.2.length := by
    by_contra hge
    exact hnot (hpre.eq_of_length_le (Nat.not_lt.mp hge) ▸ List.prefix_rfl)
  have hle := shortest_le_length he hlt hpre m
  have hsix := filterSignatures_length e he
  have hlarge := usizeMax_large
  omega

/-- A search wants more bytes than there are. -/
theorem search_wants {k : ℕ} (hm : m = usizeMax ∨ p.length < m)
    (h : search p filterSignatures m = .needMore k) : p.length < k := by
  obtain ⟨-, hsearch⟩ := search_eq_of_ne (p := p) (m := m) (by simp [h])
  obtain ⟨rfl, hne⟩ := settled_eq_needMore (hsearch.symm.trans h)
  rcases shortest_eq_or_lt filterSignatures p m with heq | hlt
  · rw [heq] at hne ⊢
    exact hm.resolve_left hne
  · exact hlt

/-- **The filter of a stream does not depend on how much of it is there.** -/
theorem probeFilter_stable (p s : List Byte) : Stable probeFilter p s := by
  have hcases := probeFilter_cases p
  refine ⟨fun x h => ?_, fun h => ?_, fun k h => ?_⟩
  · have hfirst : first filterSignatures p = some x ∨ Bzip2Header p ∧ x = .bzip2 := by
      rcases hcases with ⟨-, heq⟩ | ⟨-, heq⟩ | ⟨hheader, heq⟩ | ⟨-, heq⟩
      · exact .inl (first_of_search (heq.symm.trans h))
      · cases heq.symm.trans h
      · cases heq.symm.trans h
        exact .inr ⟨hheader, rfl⟩
      · exact .inl (first_of_search (heq.symm.trans h))
    rcases hfirst with hfirst | ⟨hheader, rfl⟩
    · have hapart : Apart filterSignatures := by decide
      exact probeFilter_of_first (hapart.first_append hfirst)
    · exact probeFilter_of_header (hheader.append s)
  · rcases hcases with ⟨-, heq⟩ | ⟨-, heq⟩ | ⟨-, heq⟩ | ⟨hrefused, heq⟩
    · have hlarge := usizeMax_large
      have hfour := (foreign_of_search (by omega) (heq.symm.trans h)).1
      omega
    · cases heq.symm.trans h
    · cases heq.symm.trans h
    · have hforeign := (foreign_of_search le_rfl (heq.symm.trans h)).2
      exact probeFilter_of_refused (hforeign.append s) (hrefused.append s)
  · rcases hcases with ⟨hlt, heq⟩ | ⟨hlt, heq⟩ | ⟨-, heq⟩ | ⟨-, heq⟩
    · exact search_wants (.inr (by omega)) (heq.symm.trans h)
    · cases heq.symm.trans h
      exact hlt
    · cases heq.symm.trans h
    · exact search_wants (.inl rfl) (heq.symm.trans h)

/-! ### The formats -/

/-- The magics of the cpio decoder. -/
def cpioMagics : List (FormatId × List Byte) :=
  [Cpio.Header.binMagicLe, Cpio.Header.binMagicBe, Cpio.Header.newcMagic, Cpio.Header.newcCrcMagic,
    Cpio.Header.odcMagic].map fun m => (.cpio, m)

/-- The magics of the ar decoder. -/
def arMagics : List (FormatId × List Byte) :=
  [Ar.Decoder.magic, Ar.Decoder.thinMagic].map fun m => (.ar, m)

/-- The magics at the start of a file, in the order in which they are tried. -/
def magics : List (FormatId × List Byte) := formatSignatures ++ (cpioMagics ++ arMagics)

theorem magics_apart : Apart magics := by decide

theorem magics_length : ∀ e ∈ magics, e.2.length ≤ 10 := by decide

theorem cpio_probe : Cpio.Decoder.probe p = .isMatch () ↔ ∃ e ∈ cpioMagics, e.2 <+: p := by
  have hmagics : (∃ e ∈ cpioMagics, e.2 <+: p) ↔
      Cpio.Header.isBinary p = true ∨
        (Cpio.Header.isNewc p || Cpio.Header.odcMagic.isPrefixOf p) = true := by
    simp [cpioMagics, Cpio.Header.isBinary, Cpio.Header.isNewc, or_assoc]
  have htwo (hbinary : Cpio.Header.isBinary p = true) : 2 ≤ p.length := by
    rcases (Bool.or_eq_true _ _).mp hbinary with hpre | hpre <;>
      exact (List.isPrefixOf_iff_prefix.mp hpre).length_le
  have hsix (hascii : (Cpio.Header.isNewc p || Cpio.Header.odcMagic.isPrefixOf p) = true) :
      6 ≤ p.length := by
    simp only [Cpio.Header.isNewc, Bool.or_eq_true, List.isPrefixOf_iff_prefix] at hascii
    rcases hascii with (hpre | hpre) | hpre <;> exact hpre.length_le
  rw [hmagics]
  unfold Cpio.Decoder.probe
  constructor
  · intro h
    split at h
    · cases h
    split at h
    · exact .inl ‹_›
    split at h
    · cases h
    split at h
    · exact .inr ‹_›
    · cases h
  · rintro (hbinary | hascii)
    · rw [if_neg (Nat.not_lt.mpr (htwo hbinary)), if_pos hbinary]
    · have hlen := hsix hascii
      rw [if_neg (show ¬ p.length < 2 by omega), if_neg (show ¬ p.length < 6 by omega), if_pos hascii,
        ite_self]

theorem ar_probe : Ar.Decoder.probe p = .isMatch () ↔ ∃ e ∈ arMagics, e.2 <+: p := by
  have hmagics : (∃ e ∈ arMagics, e.2 <+: p) ↔
      (Ar.Decoder.magic.isPrefixOf p || Ar.Decoder.thinMagic.isPrefixOf p) = true := by
    simp [arMagics]
  rw [hmagics]
  unfold Ar.Decoder.probe
  constructor
  · intro h
    split at h
    · cases h
    split at h
    case isTrue hmagic => exact hmagic
    case isFalse => cases h
  · intro hmagic
    have hthin : Ar.Decoder.magic.length = Ar.Decoder.thinMagic.length := by decide
    have hlen : Ar.Decoder.magic.length ≤ p.length := by
      rcases (Bool.or_eq_true _ _).mp hmagic with hpre | hpre
      · exact (List.isPrefixOf_iff_prefix.mp hpre).length_le
      · exact hthin.le.trans (List.isPrefixOf_iff_prefix.mp hpre).length_le
    rw [if_neg (Nat.not_lt.mpr hlen), if_pos hmagic]

/-- The detection behind the magics. -/
def probeVolume (p : List Byte) : ProbeResult FormatId :=
  if udfSignature p then .isMatch .udf
  else if isoSignature p then .isMatch .iso9660
  else if Tar.Decoder.probe p = .isMatch () then .isMatch .tar
  else settled (minimumOf p)

theorem first_cpio (h : Cpio.Decoder.probe p = .isMatch ()) : first cpioMagics p = some .cpio := by
  obtain ⟨e, he, hp⟩ := cpio_probe.mp h
  have hname : ∀ e ∈ cpioMagics, e.1 = .cpio := by decide
  have hapart : Apart cpioMagics := by decide
  rw [hapart.first_eq he hp, hname e he]

theorem first_ar (h : Ar.Decoder.probe p = .isMatch ()) : first arMagics p = some .ar := by
  obtain ⟨e, he, hp⟩ := ar_probe.mp h
  have hname : ∀ e ∈ arMagics, e.1 = .ar := by decide
  have hapart : Apart arMagics := by decide
  rw [hapart.first_eq he hp, hname e he]

theorem probeFormat_eq (p : List Byte) :
    probeFormat p = (first magics p).elim (probeVolume p) ProbeResult.isMatch := by
  rw [magics, first_append_table, first_append_table]
  unfold probeFormat
  cases hfront : first formatSignatures p with
  | some x => rfl
  | none =>
    by_cases hc : Cpio.Decoder.probe p = .isMatch ()
    · rw [if_pos hc, first_cpio hc]
      rfl
    have hcpio : first cpioMagics p = none :=
      first_eq_none_iff.mpr fun e he hp => hc (cpio_probe.mpr ⟨e, he, hp⟩)
    rw [if_neg hc, hcpio]
    by_cases ha : Ar.Decoder.probe p = .isMatch ()
    · rw [if_pos ha, first_ar ha]
      rfl
    have har : first arMagics p = none :=
      first_eq_none_iff.mpr fun e he hp => ha (ar_probe.mpr ⟨e, he, hp⟩)
    rw [if_neg ha, har]
    rfl

/-- No magic at the start. -/
def Unnamed (p : List Byte) : Prop :=
  first formatSignatures p = none ∧ Cpio.Decoder.probe p ≠ .isMatch () ∧
    Ar.Decoder.probe p ≠ .isMatch ()

theorem unnamed_iff : Unnamed p ↔ first magics p = none := by
  rw [magics, first_append_table, first_append_table, Option.or_eq_none_iff, Option.or_eq_none_iff,
    @first_eq_none_iff _ _ cpioMagics, @first_eq_none_iff _ _ arMagics]
  unfold Unnamed
  rw [Ne, Ne, cpio_probe, ar_probe]
  simp

/-! ### The number of bytes that could decide -/

theorem wanted_spec {r : ProbeResult Unit} (hr : ∀ k, r = .needMore k → p.length < k)
    (hm : m = usizeMax ∨ p.length < m) : wanted m r = usizeMax ∨ p.length < wanted m r := by
  cases r with
  | needMore k =>
    have hk := hr k rfl
    rcases hm with rfl | hm
    · rcases Nat.le_total usizeMax k with hle | hle
      · exact .inl (min_eq_left hle)
      · exact .inr (lt_of_lt_of_eq hk (min_eq_right hle).symm)
    · exact .inr (lt_min hm hk)
  | isMatch => exact hm
  | noMatch => exact hm

/-- What the decoder of a format wants is more than there is. -/
theorem decoders_want :
    ∀ r ∈ [Cpio.Decoder.probe p, Ar.Decoder.probe p, Tar.Decoder.probe p],
      ∀ k, r = .needMore k → p.length < k := by
  intro r hr k hk
  simp only [List.mem_cons, List.not_mem_nil, or_false] at hr
  rcases hr with rfl | rfl | rfl
  · unfold Cpio.Decoder.probe at hk
    split_ifs at hk <;> cases hk <;> assumption
  · unfold Ar.Decoder.probe at hk
    split_ifs at hk
    cases hk
    assumption
  · unfold Tar.Decoder.probe at hk
    split_ifs at hk <;> cases hk <;> assumption

theorem foldl_wanted_spec : ∀ {rs : List (ProbeResult Unit)},
    (∀ r ∈ rs, ∀ k, r = .needMore k → p.length < k) → ∀ {m}, m = usizeMax ∨ p.length < m →
      rs.foldl wanted m = usizeMax ∨ p.length < rs.foldl wanted m
  | [], _, _, hm => hm
  | _ :: _, hrs, _, hm =>
    foldl_wanted_spec (fun r hr => hrs r (List.mem_cons_of_mem _ hr))
      (wanted_spec (hrs _ List.mem_cons_self) hm)

/-- The number that could decide is more than there is. -/
theorem minimumOf_spec (p : List Byte) : minimumOf p = usizeMax ∨ p.length < minimumOf p := by
  have hfold := foldl_wanted_spec (decoders_want (p := p))
    (shortest_eq_or_lt formatSignatures p usizeMax)
  unfold minimumOf
  dsimp only
  split
  · rename_i hshort
    rcases hfold with heq | hlt
    · rw [heq]
      exact .inr (lt_min (hshort.trans usizeMax_large) hshort)
    · exact .inr (lt_min hlt hshort)
  · exact hfold

theorem minimumOf_ne (h : p.length < udfSignatureEnd) : minimumOf p ≠ usizeMax := by
  have hle : minimumOf p ≤ udfSignatureEnd := by
    unfold minimumOf
    dsimp only
    rw [if_pos h]
    exact min_le_right _ _
  exact (lt_of_le_of_lt hle usizeMax_large).ne

/-- The decoder of tar waits as long as the volume signatures need. -/
theorem tar_probe_eq (p : List Byte) :
    Tar.Decoder.probe p =
      if p.length < Tar.Header.BLOCK then .needMore Tar.Header.BLOCK
      else if (p.take Tar.Header.BLOCK).all (· == 0) then
        if p.length < udfSignatureEnd then .needMore udfSignatureEnd else .isMatch ()
      else if (Tar.Header.verifyChecksum (p.take Tar.Header.BLOCK)).isOk then .isMatch ()
      else .noMatch := rfl

theorem block_le (h : 34822 ≤ p.length) : Tar.Header.BLOCK ≤ p.length :=
  le_trans (by decide) h

/-- Behind the volume signatures the decoders have decided. -/
theorem decoders_decided (h : udfSignatureEnd ≤ p.length) :
    ∀ r ∈ [Cpio.Decoder.probe p, Ar.Decoder.probe p, Tar.Decoder.probe p],
      ∀ k, r ≠ .needMore k := by
  intro r hr k hk
  have hlen : 34822 ≤ p.length := h
  simp only [List.mem_cons, List.not_mem_nil, or_false] at hr
  rcases hr with rfl | rfl | rfl
  · unfold Cpio.Decoder.probe at hk
    split_ifs at hk <;> omega
  · unfold Ar.Decoder.probe at hk
    have hmagic : Ar.Decoder.magic.length ≤ p.length := le_trans (show _ ≤ 34822 by decide) hlen
    rw [if_neg (Nat.not_lt.mpr hmagic)] at hk
    split_ifs at hk
  · rw [tar_probe_eq] at hk
    rw [if_neg (Nat.not_lt.mpr (block_le hlen)), if_neg (Nat.not_lt.mpr h)] at hk
    split_ifs at hk

/-- Nothing is open behind the volume signatures. -/
theorem minimumOf_eq (h : udfSignatureEnd ≤ p.length) : minimumOf p = usizeMax := by
  have hlen : 34822 ≤ p.length := h
  have hshortest : shortest formatSignatures p usizeMax = usizeMax := by
    refine shortest_eq (fun e he hlt _ => ?_) _
    have hten := magics_length e (List.mem_append_left _ he)
    omega
  have hnone : ∀ r ∈ [Cpio.Decoder.probe p, Ar.Decoder.probe p, Tar.Decoder.probe p],
      wanted usizeMax r = usizeMax := by
    intro r hr
    cases r with
    | needMore k => exact absurd rfl (decoders_decided h _ hr k)
    | isMatch => rfl
    | noMatch => rfl
  unfold minimumOf
  dsimp only
  rw [if_neg (Nat.not_lt.mpr h), hshortest, List.foldl_cons, hnone _ List.mem_cons_self,
    List.foldl_cons, hnone _ (List.mem_cons_of_mem _ List.mem_cons_self), List.foldl_cons,
    hnone _ (List.mem_cons_of_mem _ (List.mem_cons_of_mem _ List.mem_cons_self)), List.foldl_nil]

/-! ### The answer behind the volume signatures -/

theorem window_append {a b : ℕ} (h : b ≤ p.length) (s : List Byte) :
    window (p ++ s) a b = window p a b := by
  unfold window
  rcases Nat.le_total a p.length with hle | hge
  · rw [List.drop_append_of_le_length hle, List.take_append_of_le_length]
    rw [List.length_drop]
    omega
  · rw [show b - a = 0 by omega, List.take_zero, List.take_zero]

/-- Once the volume signatures could be there, more bytes change nothing. -/
theorem probeFormat_append (h : udfSignatureEnd ≤ p.length) (s : List Byte) :
    probeFormat (p ++ s) = probeFormat p := by
  have hlen : 34822 ≤ p.length := h
  have hlong : udfSignatureEnd ≤ (p ++ s).length := by
    rw [List.length_append]
    exact h.trans (Nat.le_add_right _ _)
  have hmagics : first magics (p ++ s) = first magics p :=
    first_append_of_long fun e he => (magics_length e he).trans (by omega)
  have hend : window (p ++ s) (17 * 2048 + 1) udfSignatureEnd =
      window p (17 * 2048 + 1) udfSignatureEnd := window_append h s
  have hstart : window (p ++ s) (16 * 2048 + 1) (16 * 2048 + 6) =
      window p (16 * 2048 + 1) (16 * 2048 + 6) := window_append (by omega) s
  have hiso : isoSignatureEnd ≤ p.length := by
    unfold isoSignatureEnd
    omega
  have hudf : udfSignature (p ++ s) ↔ udfSignature p := by
    unfold udfSignature
    rw [hend, hstart]
    simp only [h, hlong, true_and]
  have hcd : isoSignature (p ++ s) ↔ isoSignature p := by
    unfold isoSignature
    rw [show window (p ++ s) (16 * 2048 + 1) isoSignatureEnd =
      window p (16 * 2048 + 1) isoSignatureEnd from hstart]
    simp only [h, hlong, hiso, hiso.trans (show p.length ≤ (p ++ s).length by simp), true_and]
  have htar : Tar.Decoder.probe (p ++ s) = Tar.Decoder.probe p := by
    rw [tar_probe_eq, tar_probe_eq, List.take_append_of_le_length (block_le hlen),
      if_neg (Nat.not_lt.mpr (block_le hlong)), if_neg (Nat.not_lt.mpr (block_le hlen)),
      if_neg (Nat.not_lt.mpr hlong), if_neg (Nat.not_lt.mpr h)]
  have hvolume : probeVolume (p ++ s) = probeVolume p := by
    unfold probeVolume
    rw [htar, minimumOf_eq h, minimumOf_eq hlong]
    simp only [hudf, hcd]
  rw [probeFormat_eq, probeFormat_eq, hmagics, hvolume]

/-! ### The answer before them -/

theorem not_udfSignature (h : p.length < udfSignatureEnd) : ¬ udfSignature p :=
  fun hudf => Nat.not_le.mpr h hudf.1

theorem not_isoSignature (h : p.length < udfSignatureEnd) : ¬ isoSignature p :=
  fun hiso => Nat.not_le.mpr h hiso.1

theorem probeVolume_short (h : p.length < udfSignatureEnd) :
    probeVolume p =
      if Tar.Decoder.probe p = .isMatch () then .isMatch .tar else settled (minimumOf p) := by
  rw [probeVolume, if_neg (not_udfSignature h), if_neg (not_isoSignature h)]

/-- A header with a checksum is a tar header, whatever follows. -/
theorem tar_probe_append (h : p.length < udfSignatureEnd) (htar : Tar.Decoder.probe p = .isMatch ())
    (s : List Byte) : Tar.Header.BLOCK ≤ p.length ∧ Tar.Decoder.probe (p ++ s) = .isMatch () := by
  rw [tar_probe_eq] at htar ⊢
  by_cases hblock : p.length < Tar.Header.BLOCK
  · rw [if_pos hblock] at htar
    cases htar
  rw [if_neg hblock] at htar
  have hin := Nat.not_lt.mp hblock
  have hin' : Tar.Header.BLOCK ≤ (p ++ s).length :=
    hin.trans (List.length_append ▸ Nat.le_add_right _ _)
  rw [List.take_append_of_le_length hin, if_neg (Nat.not_lt.mpr hin')]
  refine ⟨hin, ?_⟩
  by_cases hzero : (p.take Tar.Header.BLOCK).all (· == 0)
  · rw [if_pos hzero, if_pos h] at htar
    cases htar
  · rw [if_neg hzero] at htar ⊢
    exact htar

/-- **When the answer comes too early.** Without a magic a valid tar header is decided before the
volume signatures could be there, and the rest of the file brings one of them. -/
structure TarTooEarly (p s : List Byte) : Prop where
  unnamed : Unnamed p
  tar : Tar.Decoder.probe p = .isMatch ()
  short : p.length < udfSignatureEnd
  volume : udfSignature (p ++ s) ∨ isoSignature (p ++ s)

/-- A tar header that is decided is as long as every magic. -/
theorem magics_of_block (h : Tar.Header.BLOCK ≤ p.length) (s : List Byte) :
    first magics (p ++ s) = first magics p :=
  first_append_of_long fun e he => (magics_length e he).trans (le_trans (by decide) h)

/-- A wrong answer needs all of the condition. -/
theorem tarTooEarly_of_unstable {s : List Byte} {x : FormatId} (h : probeFormat p = .isMatch x)
    (hother : probeFormat (p ++ s) ≠ .isMatch x) : TarTooEarly p s := by
  have hshort : p.length < udfSignatureEnd := by
    by_contra hlong
    exact hother ((probeFormat_append (Nat.not_lt.mp hlong) s).trans h)
  rw [probeFormat_eq] at h hother
  cases hname : first magics p with
  | some y =>
    rw [hname] at h
    rw [magics_apart.first_append hname] at hother
    exact absurd h hother
  | none =>
    rw [hname, Option.elim_none, probeVolume_short hshort] at h
    by_cases htar : Tar.Decoder.probe p = .isMatch ()
    · rw [if_pos htar] at h
      cases h
      obtain ⟨hblock, htar'⟩ := tar_probe_append hshort htar s
      refine ⟨unnamed_iff.mpr hname, htar, hshort, ?_⟩
      by_contra hnone
      obtain ⟨hudf, hiso⟩ := not_or.mp hnone
      rw [magics_of_block hblock, hname, Option.elim_none, probeVolume, if_neg hudf, if_neg hiso,
        if_pos htar'] at hother
      exact hother rfl
    · rw [if_neg htar] at h
      exact absurd h (settled_ne_isMatch _ _)

/-- The two answers where the condition holds. -/
theorem TarTooEarly.answers {s : List Byte} (h : TarTooEarly p s) :
    probeFormat p = .isMatch .tar ∧
      (probeFormat (p ++ s) = .isMatch .udf ∨ probeFormat (p ++ s) = .isMatch .iso9660) := by
  have hname := unnamed_iff.mp h.unnamed
  obtain ⟨hblock, -⟩ := tar_probe_append h.short h.tar s
  constructor
  · rw [probeFormat_eq, hname, Option.elim_none, probeVolume_short h.short, if_pos h.tar]
  · rw [probeFormat_eq, magics_of_block hblock, hname, Option.elim_none, probeVolume]
    by_cases hudf : udfSignature (p ++ s)
    · exact .inl (if_pos hudf)
    · rw [if_neg hudf, if_pos (h.volume.resolve_left hudf)]
      exact .inr rfl

/-- **Detection is stable but for tar.** For every input and every extension the answers of both probes
stay, and what they want is more than there is, exactly if the input is no tar header that is decided
before the volume signature of the file. -/
theorem probes_stable (p s : List Byte) :
    Stable probeFormat p s ∧ Stable probeFilter p s ↔ ¬ TarTooEarly p s := by
  constructor
  · rintro ⟨hformat, -⟩ hearly
    obtain ⟨hbefore, hafter⟩ := hearly.answers
    have hstill := hformat.matched _ hbefore
    rcases hafter with hafter | hafter <;> cases hstill.symm.trans hafter
  · intro hearly
    refine ⟨⟨fun x h => ?_, fun h => ?_, fun k h => ?_⟩, probeFilter_stable p s⟩
    · by_contra hother
      exact hearly (tarTooEarly_of_unstable h hother)
    · have hlong : udfSignatureEnd ≤ p.length := by
        by_contra hshort
        have hshort := Nat.not_le.mp hshort
        rw [probeFormat_eq] at h
        cases hname : first magics p with
        | some y =>
          rw [hname] at h
          cases h
        | none =>
          rw [hname, Option.elim_none, probeVolume_short hshort] at h
          split at h
          · cases h
          · exact minimumOf_ne hshort (settled_eq_noMatch.mp h)
      exact (probeFormat_append hlong s).trans h
    · rw [probeFormat_eq] at h
      cases hname : first magics p with
      | some y =>
        rw [hname] at h
        cases h
      | none =>
        rw [hname, Option.elim_none] at h
        unfold probeVolume at h
        split_ifs at h
        obtain ⟨rfl, hne⟩ := settled_eq_needMore h
        exact (minimumOf_spec p).resolve_left hne

/-! ### A tar header before an image -/

/-- The header of an empty file `a`. -/
def tarBlock : List Byte :=
  chr 'a' :: List.replicate 147 0 ++ bstr "0000541" ++ List.replicate 357 0

/-- The rest of an ISO 9660 image that has it in its system area. -/
def isoRest : List Byte :=
  List.replicate (16 * 2048 + 1 - 512) 0 ++ bstr "CD001" ++ List.replicate 2048 0

theorem isoSignature_image : isoSignature (tarBlock ++ isoRest) := by
  have hsize : (bstr "0000541").length = 7 := rfl
  have hcd : (bstr "CD001").length = 5 := rfl
  have hfront : (tarBlock ++ List.replicate (16 * 2048 + 1 - 512) 0).length = 16 * 2048 + 1 := by
    simp only [tarBlock, List.length_append, List.length_cons, List.length_replicate, hsize]
  have hbytes : tarBlock ++ isoRest =
      (tarBlock ++ List.replicate (16 * 2048 + 1 - 512) 0) ++
        (bstr "CD001" ++ List.replicate 2048 0) := by
    simp only [isoRest, List.append_assoc]
  have hlen : (tarBlock ++ isoRest).length = udfSignatureEnd := by
    rw [hbytes, List.length_append, hfront, List.length_append, hcd, List.length_replicate]
    rfl
  refine ⟨hlen.ge, le_trans (by decide) hlen.ge, ?_⟩
  unfold window
  rw [hbytes, List.drop_left' hfront]
  exact List.take_left' rfl

/-- The format of the file changes while it is read. -/
theorem tar_then_iso : ¬ Stable probeFormat tarBlock isoRest := by
  intro hstable
  have hearly : TarTooEarly tarBlock isoRest := by
    refine ⟨⟨by decide +kernel, by decide +kernel, by decide +kernel⟩, by decide +kernel, ?_,
      .inr isoSignature_image⟩
    decide +kernel
  obtain ⟨hbefore, hafter⟩ := hearly.answers
  have hstill := hstable.matched _ hbefore
  rcases hafter with hafter | hafter <;> cases hstill.symm.trans hafter

end LibarchiveOxide.Formats.Probing
