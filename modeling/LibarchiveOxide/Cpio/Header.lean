import LibarchiveOxide.Core.Failure
import LibarchiveOxide.Core.Metadata
import LibarchiveOxide.Lib.Result
import LibarchiveOxide.Lib.Slice

/-! # cpio headers

The `newc`, `crc` and `odc` ASCII headers and the legacy binary header in both byte orders: how long
the header that starts with some bytes is (`targetFromPrefix`) and what it says (`parseHeader`). -/

namespace LibarchiveOxide.Cpio.Header

open Core.Failure Core.Budget Core.Metadata Lib.Slice

def newcMagic : List Byte := bstr "070701"
def newcCrcMagic : List Byte := bstr "070702"
def odcMagic : List Byte := bstr "070707"
def newcHeader : ℕ := 110
def odcHeader : ℕ := 76
def binaryHeader : ℕ := 26
def trailerName : List Byte := bstr "TRAILER!!!"
def binMagicLe : List Byte := [0xc7, 0x71]
def binMagicBe : List Byte := [0x71, 0xc7]

/-- An error of the cpio decoder or encoder. -/
def cpioError (kind : ErrorKind) (context : String) : ArchiveError := .inFormat "cpio" kind context

/-- The header starts with one of the binary magics. -/
def isBinary (header : List Byte) : Bool :=
  binMagicLe.isPrefixOf header || binMagicBe.isPrefixOf header

/-- The header starts with one of the `newc` magics. -/
def isNewc (header : List Byte) : Bool :=
  newcMagic.isPrefixOf header || newcCrcMagic.isPrefixOf header

/-! ### Numeric fields -/

/-- `char::to_digit` on a byte. -/
def toDigit (radix : ℕ) (b : Byte) : Option ℕ :=
  let digit :=
    if chr '0' ≤ b ∧ b ≤ chr '9' then some (b - chr '0').toNat
    else if chr 'a' ≤ b ∧ b ≤ chr 'f' then some ((b - chr 'a').toNat + 10)
    else if chr 'A' ≤ b ∧ b ≤ chr 'F' then some ((b - chr 'A').toNat + 10)
    else none
  digit.filter (· < radix)

/-- The loop of `parse_radix`. -/
def parseRadixFrom (radix val : ℕ) : List Byte → Except Error ℕ
  | [] => .ok val
  | b :: rest =>
    if b = chr ' ' ∨ b = 0 then parseRadixFrom radix val rest
    else match toDigit radix b with
      | none => .error (.malformed "cpio: invalid digit")
      | some digit =>
        match (checkedMul val radix).bind (checkedAdd · digit) with
        | some v => parseRadixFrom radix v rest
        | none => .error (.malformed "cpio: numeric overflow")

/-- `parse_radix`. -/
def parseRadix (radix : ℕ) (field : List Byte) : Except Error ℕ := parseRadixFrom radix 0 field

/-- `data.get(start..end)`. -/
def get (data : List Byte) (start stop : ℕ) : Option (List Byte) :=
  if stop ≤ data.length then some (window data start stop) else none

/-- `newc_field`, at the start of the data. -/
def newcField (data : List Byte) (i : ℕ) : Except Error ℕ := do
  let field ← okOr (get data (6 + i * 8) (6 + i * 8 + 8)) (.malformed "cpio: truncated newc field")
  parseRadix 16 field

/-- `odc_field`, at the start of the data. -/
def odcField (data : List Byte) (off width : ℕ) : Except Error ℕ := do
  let field ← okOr (get data off (off + width)) (.malformed "cpio: truncated odc field")
  parseRadix 8 field

/-- `binary_word`. -/
def binaryWord (bytes : List Byte) (index : ℕ) (little : Bool) : Except ArchiveError ℕ :=
  match get bytes (index * 2) (index * 2 + 2) with
  | some [a, b] => .ok (if little then a.toNat + b.toNat * 256 else a.toNat * 256 + b.toNat)
  | _ => .error (cpioError .malformed "truncated binary header")

/-- `usize_of`. -/
def usizeOf (v : ℕ) : Except Error ℕ :=
  if v ≤ u64Max then .ok v else .error (.limitExceeded "cpio: size exceeds usize")

/-! ### The length of a header -/

/-- The fixed part, the size of the pathname and the alignment, once the fixed part is there; the
number of bytes to read first otherwise. -/
def fixedPart (header : List Byte) : Except ArchiveError (ℕ ⊕ (ℕ × ℕ × ℕ)) :=
  if isBinary header then
    if header.length < binaryHeader then .ok (.inl binaryHeader)
    else do
      return .inr (binaryHeader, ← binaryWord header 10 (binMagicLe.isPrefixOf header), 2)
  else if header.length < 6 then .ok (.inl 6)
  else if isNewc header then
    if header.length < newcHeader then .ok (.inl newcHeader)
    else do
      let namesize ← liftError (newcField header 11 >>= usizeOf)
      return .inr (newcHeader, namesize, 4)
  else if odcMagic.isPrefixOf header then
    if header.length < odcHeader then .ok (.inl odcHeader)
    else do
      let namesize ← liftError (odcField header 59 6 >>= usizeOf)
      return .inr (odcHeader, namesize, 1)
  else .error (cpioError .malformed "unrecognized cpio magic")

/-- `unaligned` rounded up to a multiple of the alignment. -/
def aligned (unaligned alignment : ℕ) : Option ℕ :=
  (checkedAdd unaligned (alignment - 1)).map fun v => v / alignment * alignment

/-- `target_from_prefix`: how many bytes the header has, or how many are needed to tell. -/
def targetFromPrefix (limits : Limits) (header : List Byte) : Except ArchiveError (Option ℕ) :=
  if header.length < 2 then .ok none
  else do
    match ← fixedPart header with
    | .inl needed => return some needed
    | .inr (fixed, namesize, alignment) =>
      if namesize = 0 then throw (cpioError .malformed "zero-length pathname")
      if exceeds (namesize - 1) limits.pathBytes then
        throw (cpioError .limit "pathname exceeds configured limit")
      let unaligned ← okOr (checkedAdd fixed namesize) (cpioError .malformed "header size overflow")
      let target ← okOr (aligned unaligned alignment)
        (cpioError .malformed "header alignment overflow")
      if exceeds target limits.metadataBytes then
        throw (cpioError .limit "header metadata exceeds configured limit")
      return some target

/-! ### What a header says -/

/-- The file-type bits of a UNIX mode. -/
def sIfmt : ℕ := 0o170000
def sIfreg : ℕ := 0o100000
def sIfdir : ℕ := 0o040000
def sIfchr : ℕ := 0o020000
def sIfblk : ℕ := 0o060000
def sIfifo : ℕ := 0o010000
def sIflnk : ℕ := 0o120000
def sIfsock : ℕ := 0o140000

/-- `kind_from_mode`. -/
def kindFromMode (mode : ℕ) : EntryKind :=
  let bits := mode &&& sIfmt
  if bits = sIfdir then .dir
  else if bits = sIflnk then .symlink
  else if bits = sIfchr then .char
  else if bits = sIfblk then .block
  else if bits = sIfifo then .fifo
  else if bits = sIfsock then .socket
  else .file

/-- The numbers of a header. -/
structure Fields where
  fixed : ℕ
  namesize : ℕ
  size : ℕ
  mode : ℕ
  uid : ℕ
  gid : ℕ
  mtime : ℕ
  inode : ℕ
  links : ℕ
  device : Device
  referenced : Device
  checksum : Option UInt32
  alignment : ℕ
deriving DecidableEq

/-- `lo32`. -/
def lo32 (v : ℕ) : UInt32 := UInt32.ofNat (v &&& 0xFFFFFFFF)

def newcFields (bytes : List Byte) : Except Error Fields := do
  let namesize ← newcField bytes 11 >>= usizeOf
  let size ← newcField bytes 6
  let device : Device :=
    ⟨UInt64.ofNat (← newcField bytes 7), UInt64.ofNat (← newcField bytes 8)⟩
  let referenced : Device :=
    ⟨UInt64.ofNat (← newcField bytes 9), UInt64.ofNat (← newcField bytes 10)⟩
  let mode ← newcField bytes 1
  let uid ← newcField bytes 2
  let gid ← newcField bytes 3
  let mtime ← newcField bytes 5
  let inode ← newcField bytes 0
  let links ← newcField bytes 4
  let checksum ←
    if newcCrcMagic.isPrefixOf bytes then (some ∘ lo32) <$> newcField bytes 12 else pure none
  return {
    fixed := newcHeader, namesize, size, mode, uid, gid, mtime, inode, links, device, referenced
    checksum, alignment := 4 }

def odcFields (bytes : List Byte) : Except Error Fields := do
  return {
    fixed := odcHeader
    namesize := ← odcField bytes 59 6 >>= usizeOf
    size := ← odcField bytes 65 11
    mode := ← odcField bytes 18 6
    uid := ← odcField bytes 24 6
    gid := ← odcField bytes 30 6
    mtime := ← odcField bytes 48 11
    inode := ← odcField bytes 12 6
    links := ← odcField bytes 36 6
    device := ⟨0, UInt64.ofNat (← odcField bytes 6 6)⟩
    referenced := ⟨0, UInt64.ofNat (← odcField bytes 42 6)⟩
    checksum := none
    alignment := 1 }

def binaryFields (bytes : List Byte) : Except ArchiveError Fields := do
  let word (i : ℕ) := binaryWord bytes i (binMagicLe.isPrefixOf bytes)
  return {
    fixed := binaryHeader
    namesize := ← word 10
    size := (← word 11) * 65536 + (← word 12)
    mode := ← word 3
    uid := ← word 4
    gid := ← word 5
    mtime := (← word 8) * 65536 + (← word 9)
    inode := ← word 2
    links := ← word 6
    device := ⟨0, UInt64.ofNat (← word 1)⟩
    referenced := ⟨0, UInt64.ofNat (← word 7)⟩
    checksum := none
    alignment := 2 }

/-- The numbers of a header in its dialect. -/
def fieldsOf (bytes : List Byte) : Except ArchiveError Fields :=
  if isNewc bytes then liftError (newcFields bytes)
  else if odcMagic.isPrefixOf bytes then liftError (odcFields bytes)
  else binaryFields bytes

/-- A parsed record header. -/
structure ParsedHeader where
  metadata : EntryMetadata
  size : ℕ
  padding : ℕ
  checksum : Option UInt32
  trailer : Bool
deriving DecidableEq

/-- The bytes between a payload and the next header. -/
def payloadPadding (alignment size : ℕ) : ℕ := (alignment - size % alignment) % alignment

/-- The metadata of a header with this pathname. -/
def metadataOf (f : Fields) (name : List Byte) : EntryMetadata where
  kind := kindFromMode f.mode
  path := .fromBytes name
  size := some (UInt64.ofNat f.size)
  mode := some (UInt32.ofNat (f.mode &&& 0o7777))
  owner := { uid := some (UInt64.ofNat f.uid), gid := some (UInt64.ofNat f.gid) }
  times := { modified := some (.fromSeconds ((i64Of f.mtime).getD i64Max)) }
  inode := some (UInt64.ofNat f.inode)
  links := some (UInt64.ofNat f.links)
  device := some f.device
  referencedDevice := some f.referenced
  checksum := f.checksum.map .ofCpioSum32

/-- `parse_header`. -/
def parseHeader (limits : Limits) (bytes : List Byte) : Except ArchiveError ParsedHeader := do
  let f ← fieldsOf bytes
  if exceeds f.size limits.entryBytes then
    throw (cpioError .limit "entry exceeds configured size limit")
  let raw ← okOr (get bytes f.fixed (f.fixed + f.namesize))
    (cpioError .malformed "truncated pathname")
  if raw.getLast? ≠ some 0 then throw (cpioError .malformed "pathname is not NUL terminated")
  let name := raw.dropLast
  if u64Max < f.size then throw (cpioError .limit "entry size exceeds address space")
  return {
    metadata := metadataOf f name, size := f.size, padding := payloadPadding f.alignment f.size
    checksum := f.checksum, trailer := name == trailerName }

end LibarchiveOxide.Cpio.Header

/-! # What an accepted cpio header guarantees

`targetFromPrefix` and `parseHeader` read the pathname size of a header at the same place, so the
path that `parseHeader` returns is the one whose length `targetFromPrefix` has checked. -/

namespace LibarchiveOxide.Cpio.Header

open Core.Failure Core.Budget Core.Metadata Lib.Slice Lib.Result

variable {limits : Limits} {bytes : List Byte} {p : ParsedHeader}

/-- The bytes hold all of the header they start. -/
def Whole (limits : Limits) (bytes : List Byte) : Prop :=
  ∃ next, targetFromPrefix limits bytes = .ok next ∧ ∀ needed, next = some needed →
    needed ≤ bytes.length

/-- The reading of a header that starts these bytes comes to the point where it wants `t` of them. -/
inductive Front (limits : Limits) (bytes : List Byte) : ℕ → Prop
  | start : Front limits bytes 2
  | next {t t' : ℕ} (h : Front limits bytes t) (hle : t ≤ bytes.length)
      (ht : targetFromPrefix limits (bytes.take t) = .ok (some t')) (hlt : t < t') :
      Front limits bytes t'

/-- The bytes are exactly a header. -/
structure Head (limits : Limits) (bytes : List Byte) : Prop where
  front : Front limits bytes bytes.length
  whole : Whole limits bytes

/-- The bytes start a header whose reading wants more of them. -/
def Reading (limits : Limits) (bytes : List Byte) (target : Option ℕ) : Prop :=
  Front limits bytes (target.getD 2) ∧ bytes.length < target.getD 2

theorem reading_nil (limits : Limits) : Reading limits [] none := ⟨.start, by simp⟩

/-- More bytes do not change how a header is read. -/
theorem Front.append {t : ℕ} (h : Front limits bytes t) (more : List Byte) :
    Front limits (bytes ++ more) t := by
  induction h with
  | start => exact .start
  | next _ hle ht hlt ih =>
    refine .next ih ?_ ?_ hlt
    · rw [List.length_append]
      omega
    · rw [List.take_append_of_le_length hle]
      exact ht

/-- A record within the budgets. -/
structure Described (limits : Limits) (p : ParsedHeader) : Prop where
  size_eq : p.metadata.size.map UInt64.toNat = some p.size
  size_within : Within p.size limits.entryBytes
  path_within : Within p.metadata.path.raw.length limits.pathBytes

theorem not_isBinary_of_ascii (h : isNewc bytes = true ∨ odcMagic.isPrefixOf bytes = true) :
    isBinary bytes = false := by
  have hhead : bytes.head? = some 0x30 := by
    cases bytes with
    | nil => simp [isNewc, newcMagic, newcCrcMagic, odcMagic, bstr] at h
    | cons b rest =>
      have h0 : newcMagic.head? = some 0x30 ∧ newcCrcMagic.head? = some 0x30 ∧
          odcMagic.head? = some 0x30 := by decide
      rw [isNewc, Bool.or_eq_true, List.isPrefixOf_iff_prefix, List.isPrefixOf_iff_prefix,
        List.isPrefixOf_iff_prefix] at h
      rcases h with (⟨t, ht⟩ | ⟨t, ht⟩) | ⟨t, ht⟩
      · rw [← ht, List.head?_append, h0.1]; rfl
      · rw [← ht, List.head?_append, h0.2.1]; rfl
      · rw [← ht, List.head?_append, h0.2.2]; rfl
  cases bytes with
  | nil => simp at hhead
  | cons b rest =>
    rw [List.head?_cons, Option.some.injEq] at hhead
    subst hhead
    rfl

/-- Where the pathname size of a complete fixed part is read. -/
theorem fixedPart_inr {r : ℕ × ℕ × ℕ} (h : fixedPart bytes = .ok (.inr r)) :
    (isBinary bytes = true ∧ binaryWord bytes 10 (binMagicLe.isPrefixOf bytes) = .ok r.2.1 ∧
      r.1 = binaryHeader ∧ r.2.2 = 2) ∨
    (isNewc bytes = true ∧ (newcField bytes 11 >>= usizeOf) = .ok r.2.1 ∧
      r.1 = newcHeader ∧ r.2.2 = 4) ∨
    (isNewc bytes = false ∧ odcMagic.isPrefixOf bytes = true ∧
      (odcField bytes 59 6 >>= usizeOf) = .ok r.2.1 ∧ r.1 = odcHeader ∧ r.2.2 = 1) := by
  unfold fixedPart at h
  split_ifs at h with hb hbl h6 hn hnl ho hol
  · simp at h
  · obtain ⟨ns, hns, h⟩ := bind_eq_ok.mp h
    cases h
    exact .inl ⟨hb, hns, rfl, rfl⟩
  · simp at h
  · simp at h
  · obtain ⟨ns, hns, h⟩ := bind_eq_ok.mp h
    cases h
    exact .inr (.inl ⟨hn, mapError_eq_ok.mp hns, rfl, rfl⟩)
  · simp at h
  · obtain ⟨ns, hns, h⟩ := bind_eq_ok.mp h
    cases h
    exact .inr (.inr ⟨by simpa using hn, ho, mapError_eq_ok.mp hns, rfl, rfl⟩)

variable {f : Fields}

theorem newcFields_ok (h : newcFields bytes = .ok f) :
    (newcField bytes 11 >>= usizeOf) = .ok f.namesize ∧ f.fixed = newcHeader ∧ f.alignment = 4 := by
  obtain ⟨ns, hns, h⟩ := bind_eq_ok.mp h
  simp only [bind_eq_ok] at h
  obtain ⟨_, -, _, -, _, -, _, -, _, -, _, -, _, -, _, -, _, -, _, -, _, -, h⟩ := h
  split_ifs at h
  · obtain ⟨_, -, h⟩ := bind_eq_ok.mp h
    cases h
    exact ⟨hns, rfl, rfl⟩
  · cases h
    exact ⟨hns, rfl, rfl⟩

theorem odcFields_ok (h : odcFields bytes = .ok f) :
    (odcField bytes 59 6 >>= usizeOf) = .ok f.namesize ∧ f.fixed = odcHeader ∧ f.alignment = 1 := by
  obtain ⟨ns, hns, h⟩ := bind_eq_ok.mp h
  simp only [bind_eq_ok] at h
  obtain ⟨_, -, _, -, _, -, _, -, _, -, _, -, _, -, _, -, _, -, h⟩ := h
  cases h
  exact ⟨hns, rfl, rfl⟩

theorem binaryFields_ok (h : binaryFields bytes = .ok f) :
    binaryWord bytes 10 (binMagicLe.isPrefixOf bytes) = .ok f.namesize ∧ f.fixed = binaryHeader ∧
      f.alignment = 2 := by
  obtain ⟨ns, hns, h⟩ := bind_eq_ok.mp h
  simp only [bind_eq_ok] at h
  obtain ⟨_, -, _, -, _, -, _, -, _, -, _, -, _, -, _, -, _, -, _, -, _, -, h⟩ := h
  cases h
  exact ⟨hns, rfl, rfl⟩

/-- The fixed part and the pathname size are read alike. -/
theorem fieldsOf_agrees {r : ℕ × ℕ × ℕ} (hf : fieldsOf bytes = .ok f)
    (hr : fixedPart bytes = .ok (.inr r)) :
    f.fixed = r.1 ∧ f.namesize = r.2.1 ∧ f.alignment = r.2.2 := by
  unfold fieldsOf at hf
  rcases fixedPart_inr hr with ⟨hb, hns, h1, h2⟩ | ⟨hn, hns, h1, h2⟩ | ⟨hn, ho, hns, h1, h2⟩
  · have hn : isNewc bytes = false := by
      by_contra hc
      simp [not_isBinary_of_ascii (.inl (by simpa using hc))] at hb
    have ho : odcMagic.isPrefixOf bytes = false := by
      by_contra hc
      simp [not_isBinary_of_ascii (.inr (by simpa using hc))] at hb
    rw [hn, ho] at hf
    obtain ⟨hns', h1', h2'⟩ := binaryFields_ok hf
    rw [hns, Except.ok.injEq] at hns'
    exact ⟨h1'.trans h1.symm, hns'.symm, h2'.trans h2.symm⟩
  · rw [hn] at hf
    obtain ⟨hns', h1', h2'⟩ := newcFields_ok (mapError_eq_ok.mp hf)
    rw [hns, Except.ok.injEq] at hns'
    exact ⟨h1'.trans h1.symm, hns'.symm, h2'.trans h2.symm⟩
  · rw [hn, ho] at hf
    obtain ⟨hns', h1', h2'⟩ := odcFields_ok (mapError_eq_ok.mp hf)
    rw [hns, Except.ok.injEq] at hns'
    exact ⟨h1'.trans h1.symm, hns'.symm, h2'.trans h2.symm⟩

/-- What is asked for before the fixed part is complete. -/
theorem fixedPart_inl {needed : ℕ} (h : fixedPart bytes = .ok (.inl needed)) :
    bytes.length < needed := by
  unfold fixedPart at h
  split_ifs at h with hb hbl h6 hn hnl ho hol
  · cases h
    exact hbl
  · obtain ⟨ns, hns, h⟩ := bind_eq_ok.mp h
    cases h
  · cases h
    exact h6
  · cases h
    exact hnl
  · obtain ⟨ns, hns, h⟩ := bind_eq_ok.mp h
    cases h
  · cases h
    exact hol
  · obtain ⟨ns, hns, h⟩ := bind_eq_ok.mp h
    cases h

theorem length_of_fieldsOf (h : fieldsOf bytes = .ok f) : 2 ≤ bytes.length := by
  unfold fieldsOf at h
  split_ifs at h with hn ho
  · have h6 : newcMagic.length = 6 ∧ newcCrcMagic.length = 6 := by decide
    rw [isNewc, Bool.or_eq_true, List.isPrefixOf_iff_prefix, List.isPrefixOf_iff_prefix] at hn
    rcases hn with hn | hn
    · have := hn.length_le
      omega
    · have := hn.length_le
      omega
  · have h6 : odcMagic.length = 6 := by decide
    have := (List.isPrefixOf_iff_prefix.mp ho).length_le
    omega
  · have hw := (binaryFields_ok h).1
    unfold binaryWord at hw
    split at hw
    · next a b hg =>
      unfold get at hg
      split_ifs at hg with hle
      omega
    · cases hw

/-- A whole header has its pathname size checked. -/
theorem namesize_within (hw : Whole limits bytes) (hf : fieldsOf bytes = .ok f) :
    Within (f.namesize - 1) limits.pathBytes := by
  obtain ⟨next, ht, hn⟩ := hw
  unfold targetFromPrefix at ht
  have h2 := length_of_fieldsOf hf
  rw [if_neg (by omega)] at ht
  obtain ⟨part, hp, ht⟩ := bind_eq_ok.mp ht
  cases part with
  | inl needed =>
    cases ht
    have := hn needed rfl
    have := fixedPart_inl hp
    omega
  | inr r =>
    obtain ⟨-, ht⟩ := guard_eq_ok.mp ht
    obtain ⟨hx, ht⟩ := guard_eq_ok.mp ht
    rw [(fieldsOf_agrees hf hp).2.1]
    exact within_of_not_exceeds hx

/-- **A record whose header is accepted is within the budgets.** -/
theorem described_of_parseHeader (hw : Whole limits bytes) (h : parseHeader limits bytes = .ok p) :
    Described limits p := by
  obtain ⟨f, hf, h⟩ := bind_eq_ok.mp h
  obtain ⟨hx, h⟩ := guard_eq_ok.mp h
  obtain ⟨raw, hraw, h⟩ := bind_eq_ok.mp h
  obtain ⟨-, h⟩ := guard_eq_ok.mp h
  obtain ⟨hmax, h⟩ := guard_eq_ok.mp h
  cases h
  have hm : u64Max = 2 ^ 64 - 1 := rfl
  refine ⟨?_, within_of_not_exceeds hx, ?_⟩
  · show some (UInt64.ofNat f.size).toNat = some f.size
    rw [UInt64.toNat_ofNat', Nat.mod_eq_of_lt (by omega)]
  · have hlen : raw.length = f.namesize := by
      have hraw := okOr_eq_ok.mp hraw
      unfold get at hraw
      split_ifs at hraw with hle
      cases hraw
      rw [length_window_of_le hle]
      omega
    show Within raw.dropLast.length limits.pathBytes
    rw [List.length_dropLast, hlen]
    exact namesize_within hw hf

end LibarchiveOxide.Cpio.Header
