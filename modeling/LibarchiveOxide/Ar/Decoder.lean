import LibarchiveOxide.Core.Failure
import LibarchiveOxide.Core.Metadata
import LibarchiveOxide.Lib.Slice

/-! # The ar decoder

SysV, GNU and BSD member names, the GNU string table and the skipped symbol tables, and thin archives,
whose members have no payload in the archive. -/

namespace LibarchiveOxide.Ar.Decoder

open Core.Failure Core.Budget Core.Metadata Core.Protocol Lib.Slice

def magic : List Byte := bstr "!<arch>\n"
def thinMagic : List Byte := bstr "!<thin>\n"
def headerLen : ℕ := 60
def fName : ℕ × ℕ := (0, 16)
def fMtime : ℕ × ℕ := (16, 28)
def fUid : ℕ × ℕ := (28, 34)
def fGid : ℕ × ℕ := (34, 40)
def fMode : ℕ × ℕ := (40, 48)
def fSize : ℕ × ℕ := (48, 58)
def fMagic : ℕ × ℕ := (58, 60)

/-- An error of the ar decoder or encoder. -/
def arError (kind : ErrorKind) (context : String) : ArchiveError := .inFormat "ar" kind context

/-! ### Header fields -/

/-- A fixed header field. -/
def field (hdr : List Byte) (r : ℕ × ℕ) : List Byte := window hdr r.1 r.2

/-- `rtrim`. -/
def rtrim (s : List Byte) (b : Byte) : List Byte := (s.reverse.dropWhile (· == b)).reverse

/-- The loop of `parse_decimal` and `parse_octal`. -/
def parseDigits (radix : ℕ) (message : String) (val : ℕ) : List Byte → Except Error ℕ
  | [] => .ok val
  | b :: rest =>
    if chr '0' ≤ b ∧ (b - chr '0').toNat < radix then
      match (checkedMul val radix).bind (checkedAdd · (b - chr '0').toNat) with
      | some v => parseDigits radix message v rest
      | none => .error (.malformed "ar: numeric overflow")
    else .error (.malformed message)

/-- `parse_decimal`. -/
def parseDecimal (f : List Byte) : Except Error ℕ :=
  if f.isEmpty then .error (.malformed "ar: empty numeric field")
  else parseDigits 10 "ar: invalid decimal digit" 0 f

/-- `parse_octal`. -/
def parseOctal (f : List Byte) : Except Error ℕ := parseDigits 8 "ar: invalid octal digit" 0 f

/-- `usize_of`. -/
def usizeOf (v : ℕ) : Except Error ℕ :=
  if v ≤ u64Max then .ok v else .error (.limitExceeded "ar: size exceeds usize")

/-- `bytes.strip_suffix(b"/").unwrap_or(bytes)`. -/
def stripSlash (name : List Byte) : List Byte :=
  if name.getLast? = some (chr '/') then name.dropLast else name

/-- `gnu_table_name`. -/
def gnuTableName (table : List Byte) (offset : ℕ) : Except Error (List Byte) :=
  if offset ≤ table.length then .ok (stripSlash ((table.drop offset).takeWhile (· != chr '\n')))
  else .error (.malformed "ar: // offset out of range")

/-- The name of a member: a reference into the string table, or the field itself. -/
def memberName (table rawName : List Byte) : Except Error (List Byte) :=
  match rawName with
  | c :: digit :: rest =>
    if c = chr '/' ∧ chr '0' ≤ digit ∧ digit ≤ chr '9' then
      parseDecimal (digit :: rest) >>= usizeOf >>= gnuTableName table
    else .ok (stripSlash rawName)
  | _ => .ok (stripSlash rawName)

/-- The numbers of a member header. -/
structure ArFields where
  mode : UInt32
  uid : UInt64
  gid : UInt64
  mtime : Option Timestamp
deriving DecidableEq

/-- `ArDecoder::fields`. -/
def fieldsOf (header : List Byte) : Except ArchiveError ArFields := do
  if field header fMagic ≠ [chr '\x60', chr '\n'] then
    throw (arError .malformed "bad member header terminator")
  let mode ← liftError (parseOctal (rtrim (field header fMode) (chr ' ')))
  let decimal (r : ℕ × ℕ) := (parseDecimal (rtrim (field header r) (chr ' '))).toOption
  return {
    mode := UInt32.ofNat (mode &&& 0o7777)
    uid := UInt64.ofNat ((decimal fUid).getD 0)
    gid := UInt64.ofNat ((decimal fGid).getD 0)
    mtime := (decimal fMtime).map fun seconds =>
      .fromSeconds ((i64Of seconds).getD i64Max) }

/-! ### The decoder -/

/-- The decoder state. -/
inductive ArDecoderState where
  | magic
  | header
  | special (remaining padding : ℕ) (stringTable : Bool)
  | bsdName (remaining bodySize padding : ℕ) (fields : ArFields)
  | data (remaining padding : ℕ)
  | endEntry (padding : ℕ)
  | done
deriving DecidableEq

/-- The decoder. -/
structure ArDecoder where
  limits : Limits
  state : ArDecoderState := .magic
  pending : List Byte := []
  stringTable : List Byte := []
  thin : Bool := false
  entries : ℕ := 0
  total : ℕ := 0
deriving DecidableEq

/-- The extension that marks the members of thin archives. -/
def thinExtension : Extension := ⟨"ar-thin", bstr "external-reference", []⟩

namespace ArDecoder

/-- `ArDecoder::new`. -/
def new (limits : Limits) : ArDecoder := { limits }

/-- `ArDecoder::metadata`. -/
def metadata (d : ArDecoder) (name : List Byte) (size : ℕ) (fields : ArFields) :
    Except ArchiveError EntryMetadata := do
  if exceeds name.length d.limits.pathBytes then
    throw (arError .limit "pathname exceeds configured limit")
  if exceeds size d.limits.entryBytes then
    throw (arError .limit "member exceeds configured size limit")
  return {
    kind := .file
    path := .fromBytes name
    size := some (UInt64.ofNat size)
    mode := some fields.mode
    owner := { uid := some fields.uid, gid := some fields.gid }
    times := { modified := fields.mtime }
    extensions := if d.thin then [thinExtension] else [] }

/-- `count_entry`. -/
def countEntry (d : ArDecoder) : Except ArchiveError ArDecoder := do
  let entries ← okOr (checkedAdd d.entries 1) (arError .limit "entry count overflow")
  if exceeds entries d.limits.entries then
    throw (arError .limit "entry count exceeds configured limit")
  return { d with entries }

/-- A member is announced: its entry event and the state after it. -/
def openMember (d : ArDecoder) (consumed : ℕ) (name : List Byte) (size padding : ℕ)
    (fields : ArFields) : Except ArchiveError (DecodeStep × ArDecoder) := do
  let m ← d.metadata name size fields
  let d ← d.countEntry
  return (⟨consumed, 0, .entry m⟩, { d with
    state := if d.thin then .endEntry 0 else .data size padding })

/-- A step that asks for more input, which is a failure at the end of it. -/
def starved (d : ArDecoder) (eoi : EndOfInput) (consumed : ℕ) (what : String) :
    Except ArchiveError (DecodeStep × ArDecoder) :=
  if eoi = .end then .error (arError .malformed what) else .ok (⟨consumed, 0, .needInput⟩, d)

/-- The step after a payload. -/
def stepEndEntry (d : ArDecoder) (input : List Byte) (eoi : EndOfInput) (padding : ℕ) :
    Except ArchiveError (DecodeStep × ArDecoder) :=
  if input.length < padding then
    ({ d with state := .endEntry padding } : ArDecoder).starved eoi 0 "truncated member padding"
  else .ok (⟨padding, 0, .endEntry⟩, { d with state := .header })

/-- The step in a payload; after its last byte it is the step after the payload. -/
def stepData (d : ArDecoder) (input : List Byte) (eoi : EndOfInput) (remaining padding : ℕ) :
    Except ArchiveError (DecodeStep × ArDecoder) :=
  if remaining = 0 then d.stepEndEntry input eoi padding
  else if input.isEmpty then d.starved eoi 0 "truncated member data"
  else do
    let count := min input.length remaining
    let total ← okOr (checkedAdd d.total count) (arError .limit "decoded byte count overflow")
    if exceeds total d.limits.decodedTotal then
      throw (arError .limit "decoded total exceeds configured limit")
    return (⟨count, 0, .data (input.take count)⟩, { d with
      total, state := .data (remaining - count) padding })

/-- The step in a string table or a symbol table. -/
def stepSpecial (d : ArDecoder) (input : List Byte) (eoi : EndOfInput) (remaining padding : ℕ)
    (stringTable : Bool) : Except ArchiveError (DecodeStep × ArDecoder) :=
  let count := min remaining input.length
  let left := remaining - count
  let d := { d with
    stringTable := if stringTable then d.stringTable ++ input.take count else d.stringTable
    state := .special left padding stringTable }
  if left ≠ 0 then d.starved eoi count "truncated special member"
  else if input.length - count < padding then
    d.starved eoi count "truncated special-member padding"
  else .ok (⟨count + padding, 0, .needInput⟩, { d with state := .header })

/-- The step in a BSD name, which precedes the payload. -/
def stepBsdName (d : ArDecoder) (input : List Byte) (eoi : EndOfInput)
    (remaining bodySize padding : ℕ) (fields : ArFields) :
    Except ArchiveError (DecodeStep × ArDecoder) :=
  let count := min remaining input.length
  let left := remaining - count
  let d := { d with pending := d.pending ++ input.take count }
  if left ≠ 0 then
    ({ d with state := .bsdName left bodySize padding fields } : ArDecoder).starved eoi count
      "truncated BSD inline name"
  else ({ d with pending := [] } : ArDecoder).openMember count d.pending bodySize padding fields

/-- A complete member header. -/
def stepMember (d : ArDecoder) (consumed : ℕ) (header : List Byte) :
    Except ArchiveError (DecodeStep × ArDecoder) := do
  let fields ← fieldsOf header
  let size ← liftError (parseDecimal (rtrim (field header fSize) (chr ' ')) >>= usizeOf)
  let padding := size % 2
  let rawName := rtrim (field header fName) (chr ' ')
  if rawName = bstr "//" ∨ rawName = bstr "/" ∨ rawName = bstr "/SYM64/" then
    if rawName = bstr "//" ∧ exceeds size d.limits.metadataBytes then
      throw (arError .limit "GNU string table exceeds metadata budget")
    return (⟨consumed, 0, .needInput⟩, { d with
      stringTable := if rawName = bstr "//" then [] else d.stringTable
      state := .special size padding (rawName == bstr "//") })
  else if (bstr "#1/").isPrefixOf rawName then
    let nameLength ← liftError (parseDecimal (rawName.drop 3) >>= usizeOf)
    if size < nameLength then throw (arError .malformed "BSD name is longer than member")
    if exceeds nameLength d.limits.pathBytes then
      throw (arError .limit "BSD pathname exceeds configured limit")
    return (⟨consumed, 0, .needInput⟩, { d with
      pending := [], state := .bsdName nameLength (size - nameLength) padding fields })
  else
    d.openMember consumed (← liftError (memberName d.stringTable rawName)) size padding fields

/-- The step between members; `consumed` bytes were taken by the global magic. -/
def stepHeader (d : ArDecoder) (input : List Byte) (eoi : EndOfInput) (consumed : ℕ) :
    Except ArchiveError (DecodeStep × ArDecoder) :=
  let rest := input.drop consumed
  if d.pending.isEmpty ∧ rest.isEmpty ∧ eoi = .end then
    .ok (⟨consumed, 0, .done⟩, { d with state := .done })
  else
    let count := min (headerLen - d.pending.length) rest.length
    let pending := d.pending ++ rest.take count
    if pending.length < headerLen then
      ({ d with pending } : ArDecoder).starved eoi (consumed + count) "truncated member header"
    else ({ d with pending := [] } : ArDecoder).stepMember (consumed + count) pending

/-- The step at the global magic. -/
def stepMagic (d : ArDecoder) (input : List Byte) (eoi : EndOfInput) :
    Except ArchiveError (DecodeStep × ArDecoder) :=
  let count := min (magic.length - d.pending.length) input.length
  let pending := d.pending ++ input.take count
  if pending.length < magic.length then
    ({ d with pending } : ArDecoder).starved eoi count "truncated global magic"
  else if pending ≠ magic ∧ pending ≠ thinMagic then
    .error (arError .malformed "bad global magic")
  else
    ({ d with
      thin := pending == thinMagic, pending := [], state := .header } : ArDecoder).stepHeader
      input eoi count

/-- `ArDecoder::step`. The scratch buffer is not used. -/
def step (d : ArDecoder) (input : List Byte) (_outputLen : ℕ) (eoi : EndOfInput) :
    Except ArchiveError (DecodeStep × ArDecoder) :=
  match d.state with
  | .done =>
    if !input.isEmpty then .error (arError .protocol "input supplied after archive completion")
    else .ok (⟨0, 0, .done⟩, d)
  | .data remaining padding => d.stepData input eoi remaining padding
  | .endEntry padding => d.stepEndEntry input eoi padding
  | .special remaining padding stringTable =>
    d.stepSpecial input eoi remaining padding stringTable
  | .bsdName remaining bodySize padding fields =>
    d.stepBsdName input eoi remaining bodySize padding fields
  | .magic => d.stepMagic input eoi
  | .header => d.stepHeader input eoi 0

end ArDecoder

/-- `ArDecoder::probe`. -/
def probe (pre : List Byte) : ProbeResult Unit :=
  if pre.length < magic.length then .needMore magic.length
  else if magic.isPrefixOf pre || thinMagic.isPrefixOf pre then .isMatch ()
  else .noMatch

end LibarchiveOxide.Ar.Decoder
