import LibarchiveOxide.Ar.Decoder
import LibarchiveOxide.Core.Encode
import LibarchiveOxide.Lib.Radix
import LibarchiveOxide.Lib.Result

/-! # The ar encoder

Member names above 15 bytes are written in front of the payload (BSD); shorter ones fill the name
field, with a slash behind them. Numbers that are too wide for their field are cut off. -/

namespace LibarchiveOxide.Ar.Encoder

open Core.Failure Core.Budget Core.Metadata Core.Protocol Core.Encode Ar.Decoder Lib.Radix

/-- The width of a header field. -/
def width (r : ℕ × ℕ) : ℕ := r.2 - r.1

/-- `put_field`, on a field of the header. -/
def putField (r : ℕ × ℕ) (value : List Byte) : List Byte :=
  value.take (width r) ++ List.replicate (width r - value.length) (chr ' ')

/-- `radix_bytes`. -/
def radixBytes (val radix : ℕ) : List Byte :=
  (numeral radix val).map fun digit => chr '0' + UInt8.ofNat digit

/-- A name that is written in front of the payload. -/
def inlineName (name : List Byte) : Bool := decide (15 < name.length)

/-- The name field of a member. -/
def nameField (name : List Byte) : List Byte :=
  if inlineName name then bstr "#1/" ++ radixBytes name.length 10 else name ++ [chr '/']

/-- The size that the header tells: the payload and the name in front of it. -/
def inlineLength (name : List Byte) : ℕ := if inlineName name then name.length else 0

/-- The seconds of the modification time, or zero. -/
def mtimeOf (m : EntryMetadata) : ℕ := (m.times.modified.map fun t => t.secs.toInt.toNat).getD 0

/-- The header of a member. The fields follow one another. -/
def memberHeader (m : EntryMetadata) (total : ℕ) : List Byte :=
  putField fName (nameField m.path.raw) ++
  putField fMtime (radixBytes (mtimeOf m) 10) ++
  putField fUid (radixBytes (m.owner.uid.getD 0).toNat 10) ++
  putField fGid (radixBytes (m.owner.gid.getD 0).toNat 10) ++
  putField fMode (radixBytes (0o100000 ||| ((m.mode.getD (defaultMode m.kind)) &&& 0o7777).toNat) 8) ++
  putField fSize (radixBytes total 10) ++
  [chr '\x60', chr '\n']

/-- The encoder. -/
structure ArEncoder where
  limits : Limits
  pending : List Byte := []
  pendingPos : ℕ := 0
  started : Bool := false
  isOpen : Bool := false
  remaining : ℕ := 0
  padding : ℕ := 0
  done : Bool := false
  entries : ℕ := 0
deriving DecidableEq

namespace ArEncoder

/-- `ArEncoder::new`. -/
def new (limits : Limits) : ArEncoder := { limits }

/-- `drain_pending`. -/
def drainPending (e : ArEncoder) (outputLen : ℕ) : List Byte × ArEncoder :=
  let (out, pending, pendingPos) := drain e.pending e.pendingPos outputLen
  (out, { e with pending, pendingPos })

/-- The status after staged bytes were drained. -/
def drainStatus (e : ArEncoder) : EncodeStatus :=
  if e.pending.isEmpty then .needCommand else .needOutput

/-- A command answered out of the staging buffer. -/
def drained (e : ArEncoder) (consumed outputLen : ℕ) : ArEncoder × Except ArchiveError EncodeStep :=
  let (produced, e) := e.drainPending outputLen
  (e, .ok ⟨consumed, produced, e.drainStatus⟩)

/-- The global magic in front of the first member. -/
def start (e : ArEncoder) : ArEncoder :=
  if e.started then e else { e with pending := e.pending ++ magic, started := true }

/-- `stage_entry`. The magic stays when the member is rejected. -/
def stageEntry (e : ArEncoder) (m : EntryMetadata) : ArEncoder × Except ArchiveError Unit :=
  match m.size with
  | none => (e, .error (arError .sizeRequired "ar requires a declared entry size"))
  | some size =>
    let e := e.start
    let name := m.path.raw
    match checkedAdd size.toNat (inlineLength name) with
    | none => (e, .error (arError .limit "member size overflow"))
    | some total =>
      ({ e with
        pending := e.pending ++ memberHeader m total ++ (if inlineName name then name else [])
        remaining := size.toNat
        padding := total % 2
        isOpen := true }, .ok ())

/-- The checks of `BeginEntry`: the number of entries with the new one. -/
def beginChecks (e : ArEncoder) (m : EntryMetadata) : Except ArchiveError ℕ := do
  if e.isOpen then throw (arError .protocol "previous entry is still open")
  let size ← okOr (m.size.map UInt64.toNat)
    (arError .sizeRequired "ar requires a declared entry size")
  if exceeds m.path.raw.length e.limits.pathBytes || exceeds size e.limits.entryBytes then
    throw (arError .limit "entry exceeds configured limits")
  let nextEntries ← okOr (checkedAdd e.entries 1) (arError .limit "entry count overflow")
  if exceeds nextEntries e.limits.entries then
    throw (arError .limit "entry count exceeds configured limit")
  return nextEntries

/-- `BeginEntry`. -/
def beginEntry (e : ArEncoder) (m : EntryMetadata) (outputLen : ℕ) :
    ArEncoder × Except ArchiveError EncodeStep :=
  match e.beginChecks m with
  | .error err => (e, .error err)
  | .ok nextEntries =>
    match e.stageEntry m with
    | (e, .error err) => (e, .error err)
    | (e, .ok ()) => ({ e with entries := nextEntries } : ArEncoder).drained 1 outputLen

/-- `Data`. -/
def data (e : ArEncoder) (input : List Byte) (outputLen : ℕ) :
    ArEncoder × Except ArchiveError EncodeStep :=
  if !e.isOpen then (e, .error (arError .protocol "entry data supplied without an open entry"))
  else if e.remaining < input.length then
    (e, .error (arError .protocol "entry data exceeds declared size"))
  else
    let count := min input.length outputLen
    ({ e with remaining := e.remaining - count },
      .ok ⟨count, input.take count, if count = input.length then .needCommand else .needOutput⟩)

/-- `EndEntry`. The staging buffer is empty here, so resizing it leaves the padding only. -/
def endEntry (e : ArEncoder) (outputLen : ℕ) : ArEncoder × Except ArchiveError EncodeStep :=
  if !e.isOpen || e.remaining != 0 then
    (e, .error (arError .protocol "entry ended before its declared size"))
  else
    ({ e with
      pending := List.replicate e.padding (chr '\n'), padding := 0, isOpen := false } :
      ArEncoder).drained 1 outputLen

/-- `Finish`. -/
def finish (e : ArEncoder) (outputLen : ℕ) : ArEncoder × Except ArchiveError EncodeStep :=
  if e.isOpen then (e, .error (arError .protocol "cannot finish with an open entry"))
  else if !e.started then
    let (produced, e) := e.start.drainPending outputLen
    let e := if e.pending.isEmpty then { e with done := true } else e
    (e, .ok ⟨1, produced, if e.done then .done else .needOutput⟩)
  else ({ e with done := true }, .ok ⟨1, [], .done⟩)

/-- `ArEncoder::step`. -/
def step (e : ArEncoder) (command : EncodeCommand) (outputLen : ℕ) :
    ArEncoder × Except ArchiveError EncodeStep :=
  if e.done then
    match command with
    | .finish => (e, .ok ⟨0, [], .done⟩)
    | _ => (e, .error (arError .protocol "command supplied after finish"))
  else if !e.pending.isEmpty then e.drained 0 outputLen
  else
    match command with
    | .beginEntry m => e.beginEntry m outputLen
    | .data input => e.data input outputLen
    | .endEntry => e.endEntry outputLen
    | .finish => e.finish outputLen

end ArEncoder

end LibarchiveOxide.Ar.Encoder

/-! # How a member header is read back

A number comes back cut to the digits that its field holds (`leading`), and a name field comes back
without its padding. -/

namespace LibarchiveOxide.Ar.HeaderLemmas

open Core.Failure Core.Metadata Ar.Decoder Ar.Encoder Lib.Radix Lib.Result Lib.Slice

/-! ### Numbers -/

/-- The character of a digit. -/
def ascii (digit : ℕ) : Byte := chr '0' + UInt8.ofNat digit

theorem ascii_digit {d : ℕ} (h : d < 10) : chr '0' ≤ ascii d ∧ (ascii d - chr '0').toNat = d := by
  interval_cases d <;> decide

theorem ascii_ne_space {d : ℕ} (h : d < 10) : ascii d ≠ chr ' ' := by
  interval_cases d <;> decide

theorem parseDigits_ascii {radix : ℕ} {message : String} (hpos : 0 < radix) (hr : radix ≤ 10) :
    ∀ {ds : List ℕ} {val : ℕ}, (∀ d ∈ ds, d < radix) → horner radix val ds ≤ u64Max →
    parseDigits radix message val (ds.map ascii) = .ok (horner radix val ds)
  | [], val, _, _ => rfl
  | d :: ds, val, hd, hmax => by
    obtain ⟨hlt, hds⟩ := List.forall_mem_cons.mp hd
    obtain ⟨hle, heq⟩ := ascii_digit (hlt.trans_le hr)
    have hstep := le_horner hpos ds (val * radix + d)
    rw [horner_cons] at hmax
    rw [List.map_cons, parseDigits, heq, if_pos ⟨hle, hlt⟩, checkedMul_of_le (by omega)]
    simp only [Option.bind_some]
    rw [checkedAdd_of_le (by omega)]
    exact parseDigits_ascii hpos hr hds hmax

/-- The digits of a field. -/
theorem take_radixBytes (val radix w : ℕ) :
    (radixBytes val radix).take w = ((numeral radix val).take w).map ascii := by
  rw [radixBytes, List.map_take]
  rfl

theorem pow_le_u64Max {w : ℕ} (hw : w ≤ 19) : 10 ^ w ≤ u64Max + 1 := by
  have : 10 ^ w ≤ 10 ^ 19 := Nat.pow_le_pow_right (by decide) hw
  have hmax : u64Max = 2 ^ 64 - 1 := rfl
  omega

theorem parseDecimal_radixBytes {val w : ℕ} (hw : 0 < w) (hmax : w ≤ 19) :
    parseDecimal ((radixBytes val 10).take w) = .ok (leading 10 w val) := by
  have hlt : leading 10 w val < 10 ^ w := leading_lt (by decide)
  have hle := pow_le_u64Max hmax
  have hne : (numeral 10 val).take w ≠ [] := by
    rw [Ne, List.take_eq_nil_iff]
    rintro (h | h)
    · omega
    · exact numeral_ne_nil h
  rw [take_radixBytes, parseDecimal, if_neg (by simpa using hne)]
  refine parseDigits_ascii (by decide) le_rfl ?_ ?_
  · intro d hd
    exact lt_of_mem_numeral (by decide) (List.mem_of_mem_take hd)
  · show leading 10 w val ≤ u64Max
    omega

theorem parseOctal_radixBytes {val w : ℕ} (h : val < 8 ^ w) (hw : 0 < w) (hmax : val ≤ u64Max) :
    parseOctal ((radixBytes val 8).take w) = .ok val := by
  have hlead := (leading_eq_iff (b := 8) (by decide) hw).mpr h
  rw [take_radixBytes, parseOctal]
  have hval : horner 8 0 ((numeral 8 val).take w) = val := hlead
  rw [parseDigits_ascii (by decide) (by decide) ?_ (by rw [hval]; exact hmax), hval]
  intro d hd
  exact lt_of_mem_numeral (by decide) (List.mem_of_mem_take hd)

/-! ### Fields -/

theorem length_putField (r : ℕ × ℕ) (value : List Byte) :
    (putField r value).length = width r := by
  rw [putField, List.length_append, List.length_take, List.length_replicate]
  omega

theorem rtrim_append_replicate (l : List Byte) (k : ℕ) (b : Byte) :
    rtrim (l ++ List.replicate k b) b = rtrim l b := by
  have hdrop : ∀ (k : ℕ) (l : List Byte),
      (List.replicate k b ++ l).dropWhile (· == b) = l.dropWhile (· == b) := by
    intro k l
    induction k with
    | zero => rfl
    | succ k ih =>
      rw [List.replicate_succ, List.cons_append, List.dropWhile_cons_of_pos (by simp)]
      exact ih
  rw [rtrim, List.reverse_append, List.reverse_replicate, hdrop]
  rfl

theorem rtrim_of_getLast {l : List Byte} {b : Byte} (h : l.getLast? ≠ some b) : rtrim l b = l := by
  rw [← List.head?_reverse] at h
  rw [rtrim]
  cases hr : l.reverse with
  | nil =>
    rw [List.reverse_eq_nil_iff] at hr
    rw [hr]
    rfl
  | cons a as =>
    rw [hr, List.head?_cons, Ne, Option.some.injEq] at h
    rw [List.dropWhile_cons_of_neg (by simpa using h), ← hr, List.reverse_reverse]

/-- A field that does not end in a space is read back. -/
theorem rtrim_putField {r : ℕ × ℕ} {value : List Byte}
    (h : (value.take (width r)).getLast? ≠ some (chr ' ')) :
    rtrim (putField r value) (chr ' ') = value.take (width r) := by
  rw [putField, rtrim_append_replicate, rtrim_of_getLast h]

theorem rtrim_radixBytes (r : ℕ × ℕ) (val : ℕ) {radix : ℕ} (hr : 1 < radix) (hle : radix ≤ 10) :
    rtrim (putField r (radixBytes val radix)) (chr ' ') = (radixBytes val radix).take (width r) := by
  refine rtrim_putField ?_
  intro hl
  have hmem := List.mem_of_getLast? hl
  rw [take_radixBytes] at hmem
  obtain ⟨d, hd, heq⟩ := List.mem_map.mp hmem
  have hlt := lt_of_mem_numeral hr (List.mem_of_mem_take hd)
  exact ascii_ne_space (hlt.trans_le hle) heq

/-- The fields of a header, where they are read. -/
theorem field_memberHeader (m : EntryMetadata) (total : ℕ) :
    field (memberHeader m total) fName = putField fName (nameField m.path.raw) ∧
    field (memberHeader m total) fMtime = putField fMtime (radixBytes (mtimeOf m) 10) ∧
    field (memberHeader m total) fUid = putField fUid (radixBytes (m.owner.uid.getD 0).toNat 10) ∧
    field (memberHeader m total) fGid = putField fGid (radixBytes (m.owner.gid.getD 0).toNat 10) ∧
    field (memberHeader m total) fMode = putField fMode
      (radixBytes (0o100000 ||| ((m.mode.getD (defaultMode m.kind)) &&& 0o7777).toNat) 8) ∧
    field (memberHeader m total) fSize = putField fSize (radixBytes total 10) ∧
    field (memberHeader m total) fMagic = [chr '\x60', chr '\n'] := by
  -- every field starts where the one before it ends
  have hself : ∀ {a b : List Byte} {j : ℕ}, a.length = j → window (a ++ b) 0 j = a := by
    intro a b j h
    rw [window, List.drop_zero, Nat.sub_zero, ← h, List.take_left]
  unfold memberHeader field
  simp only [List.append_assoc]
  have hname := length_putField fName (nameField m.path.raw)
  have hmtime := length_putField fMtime (radixBytes (mtimeOf m) 10)
  have huid := length_putField fUid (radixBytes (m.owner.uid.getD 0).toNat 10)
  have hgid := length_putField fGid (radixBytes (m.owner.gid.getD 0).toNat 10)
  have hmode := length_putField fMode
    (radixBytes (0o100000 ||| ((m.mode.getD (defaultMode m.kind)) &&& 0o7777).toNat) 8)
  have hsize := length_putField fSize (radixBytes total 10)
  have hw : width fName = 16 ∧ width fMtime = 12 ∧ width fUid = 6 ∧ width fGid = 6 ∧
      width fMode = 8 ∧ width fSize = 10 := by decide
  simp only [fName, fMtime, fUid, fGid, fMode, fSize, fMagic] at *
  refine ⟨hself (by omega), ?_, ?_, ?_, ?_, ?_, ?_⟩
  · rw [window_append_right (by omega), hname, hw.1]
    exact hself (by omega)
  · rw [window_append_right (by omega), hname, hw.1,
      window_append_right (by omega), hmtime, hw.2.1]
    exact hself (by omega)
  · rw [window_append_right (by omega), hname, hw.1,
      window_append_right (by omega), hmtime, hw.2.1,
      window_append_right (by omega), huid, hw.2.2.1]
    exact hself (by omega)
  · rw [window_append_right (by omega), hname, hw.1,
      window_append_right (by omega), hmtime, hw.2.1,
      window_append_right (by omega), huid, hw.2.2.1,
      window_append_right (by omega), hgid, hw.2.2.2.1]
    exact hself (by omega)
  · rw [window_append_right (by omega), hname, hw.1,
      window_append_right (by omega), hmtime, hw.2.1,
      window_append_right (by omega), huid, hw.2.2.1,
      window_append_right (by omega), hgid, hw.2.2.2.1,
      window_append_right (by omega), hmode, hw.2.2.2.2.1]
    exact hself (by omega)
  · rw [window_append_right (by omega), hname, hw.1,
      window_append_right (by omega), hmtime, hw.2.1,
      window_append_right (by omega), huid, hw.2.2.1,
      window_append_right (by omega), hgid, hw.2.2.2.1,
      window_append_right (by omega), hmode, hw.2.2.2.2.1,
      window_append_right (by omega), hsize, hw.2.2.2.2.2]
    rfl

theorem length_memberHeader (m : EntryMetadata) (total : ℕ) :
    (memberHeader m total).length = headerLen := by
  unfold memberHeader
  simp only [List.length_append, length_putField]
  rfl

/-- The permission bits of a member. -/
def modeOf (m : EntryMetadata) : UInt32 := m.mode.getD (defaultMode m.kind) &&& 0o7777

/-- The regular-file bit does not touch the permission bits. -/
theorem mode_bits (x : UInt32) :
    UInt32.ofNat ((0o100000 ||| (x &&& 0o7777).toNat) &&& 0o7777) = x &&& 0o7777 := by
  have hand : (x &&& 0o7777).toNat = x.toNat &&& 0o7777 := by
    rw [UInt32.toNat_and]
    rfl
  have hbits : (0o100000 ||| (x &&& 0o7777).toNat) &&& 0o7777 = (x &&& 0o7777).toNat := by
    have hfile : 0o100000 &&& 0o7777 = 0 := by decide
    rw [Nat.and_or_distrib_right, hfile, Nat.zero_or, hand, Nat.and_assoc, Nat.and_self]
  rw [hbits, UInt32.ofNat_toNat]

theorem mode_lt (x : UInt32) : 0o100000 ||| (x &&& 0o7777).toNat < 8 ^ 8 := by
  have hlt : (x &&& 0o7777).toNat < 2 ^ 24 := by
    rw [UInt32.toNat_and]
    exact Nat.and_lt_two_pow _ (by decide)
  have h : 0o100000 ||| (x &&& 0o7777).toNat < 2 ^ 24 := Nat.or_lt_two_pow (by decide) hlt
  exact h.trans_le (by decide)

/-- The numbers of a member as they are read back. -/
def fieldsBack (m : EntryMetadata) : ArFields where
  mode := modeOf m
  uid := UInt64.ofNat (leading 10 6 (m.owner.uid.getD 0).toNat)
  gid := UInt64.ofNat (leading 10 6 (m.owner.gid.getD 0).toNat)
  mtime := some (.fromSeconds (Int64.ofInt (leading 10 12 (mtimeOf m))))

theorem fieldsOf_memberHeader (m : EntryMetadata) (total : ℕ) :
    fieldsOf (memberHeader m total) = .ok (fieldsBack m) := by
  obtain ⟨-, hmtime, huid, hgid, hmode, -, hmagic⟩ := field_memberHeader m total
  have hdec : ∀ (r : ℕ × ℕ) (val : ℕ), 0 < width r → width r ≤ 19 →
      parseDecimal (rtrim (putField r (radixBytes val 10)) (chr ' ')) = .ok (leading 10 (width r) val) := by
    intro r val hpos hle
    rw [rtrim_radixBytes r val (by decide) (by decide), parseDecimal_radixBytes hpos hle]
  have hoct := mode_lt (m.mode.getD (defaultMode m.kind))
  have hmodeVal : parseOctal (rtrim (field (memberHeader m total) fMode) (chr ' ')) =
      .ok (0o100000 ||| (m.mode.getD (defaultMode m.kind) &&& 0o7777).toNat) := by
    rw [hmode, rtrim_radixBytes fMode _ (by decide) (by decide)]
    refine parseOctal_radixBytes hoct (by decide) (hoct.le.trans (by decide))
  have hsecs : (i64Of (leading 10 12 (mtimeOf m))).getD i64Max =
      Int64.ofInt (leading 10 12 (mtimeOf m)) := by
    have hlt : leading 10 12 (mtimeOf m) < 10 ^ 12 := leading_lt (by decide)
    rw [i64Of, if_pos (by constructor <;> omega)]
    rfl
  unfold fieldsOf
  rw [if_neg (by rw [hmagic]; exact not_not.mpr rfl), hmodeVal]
  simp only [liftError, mapError_ok, ok_bind]
  rw [hmtime, huid, hgid, hdec fMtime _ (by decide) (by decide), hdec fUid _ (by decide) (by decide),
    hdec fGid _ (by decide) (by decide)]
  simp only [Except.toOption, Option.getD_some, Option.map_some, Option.bind_eq_bind,
    Option.bind_some, Option.pure_def, pure_eq_ok, mode_bits, fieldsBack, modeOf]
  rw [show width fMtime = 12 from rfl, show width fUid = 6 from rfl, show width fGid = 6 from rfl,
    hsecs]

/-- The size of a member as it is read back. -/
theorem size_memberHeader (m : EntryMetadata) (total : ℕ) :
    (parseDecimal (rtrim (field (memberHeader m total) fSize) (chr ' ')) >>= usizeOf) =
      .ok (leading 10 10 total) := by
  have hsize := (field_memberHeader m total).2.2.2.2.2.1
  have hlt : leading 10 10 total < 10 ^ 10 := leading_lt (by decide)
  have hmax : u64Max = 2 ^ 64 - 1 := rfl
  rw [hsize, rtrim_radixBytes fSize _ (by decide) (by decide),
    parseDecimal_radixBytes (by decide) (by decide), ok_bind, usizeOf, show width fSize = 10 from rfl,
    if_pos (by omega)]

/-- A short name comes back with its slash. -/
theorem rawName_short {m : EntryMetadata} (total : ℕ) (h : inlineName m.path.raw = false) :
    rtrim (field (memberHeader m total) fName) (chr ' ') = m.path.raw ++ [chr '/'] := by
  have hlen : m.path.raw.length ≤ 15 := by simpa [inlineName] using h
  have hfull : (m.path.raw ++ [chr '/']).take (width fName) = m.path.raw ++ [chr '/'] := by
    refine List.take_of_length_le ?_
    rw [List.length_append, show width fName = 16 from rfl]
    exact Nat.add_le_add_right hlen 1
  rw [(field_memberHeader m total).1, nameField, h, if_neg (by decide), rtrim_putField, hfull]
  rw [hfull, List.getLast?_concat]
  decide

/-- A long name comes back as its length. -/
theorem rawName_inline {m : EntryMetadata} (total : ℕ) (h : inlineName m.path.raw = true) :
    rtrim (field (memberHeader m total) fName) (chr ' ') =
      bstr "#1/" ++ (radixBytes m.path.raw.length 10).take 13 := by
  have htake : (bstr "#1/" ++ radixBytes m.path.raw.length 10).take (width fName) =
      bstr "#1/" ++ (radixBytes m.path.raw.length 10).take 13 := rfl
  rw [(field_memberHeader m total).1, nameField, h, if_pos rfl, rtrim_putField, htake]
  rw [htake]
  intro hl
  have hne : (radixBytes m.path.raw.length 10).take 13 ≠ [] := by
    rw [take_radixBytes, Ne, List.map_eq_nil_iff, List.take_eq_nil_iff]
    rintro (h0 | h0)
    · omega
    · exact numeral_ne_nil h0
  rw [List.getLast?_append_of_ne_nil _ hne] at hl
  have hmem := List.mem_of_getLast? hl
  rw [take_radixBytes] at hmem
  obtain ⟨d, hd, heq⟩ := List.mem_map.mp hmem
  exact ascii_ne_space (lt_of_mem_numeral (by decide) (List.mem_of_mem_take hd)) heq

end LibarchiveOxide.Ar.HeaderLemmas
