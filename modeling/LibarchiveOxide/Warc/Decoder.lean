import LibarchiveOxide.Core.Failure
import LibarchiveOxide.Core.Metadata
import LibarchiveOxide.Lib.Radix

/-! # The WARC decoder

Each record is one regular file; its named fields are kept as `warc` extensions. Its path is made of
the record's number and, if the path budget allows it, of its escaped identifier. -/

namespace LibarchiveOxide.Warc.Decoder

open Core.Failure Core.Budget Core.Metadata Core.Protocol Lib.Radix

def signature10 : List Byte := bstr "WARC/1.0\r\n"
def signature11 : List Byte := bstr "WARC/1.1\r\n"
def headerEnd : List Byte := bstr "\r\n\r\n"
def recordEnd : List Byte := bstr "\r\n\r\n"

/-- An error of the WARC decoder. -/
def warcError (kind : ErrorKind) (context : String) : ArchiveError := .inFormat "warc" kind context

/-! ### Named fields -/

/-- A named field of a record header. -/
structure NamedField where
  name : List Byte
  value : List Byte
deriving DecidableEq

/-- The bytes before the first CRLF and those after it. -/
def splitCrLf : List Byte → Option (List Byte × List Byte)
  | [] => none
  | [_] => none
  | a :: b :: rest =>
    if a = chr '\r' ∧ b = chr '\n' then some ([], rest)
    else (splitCrLf (b :: rest)).map fun p => (a :: p.1, p.2)

/-- The lines of `CrLfLines`; the last one may hold no stray CR or LF. A line takes at least its
CRLF, so one round per byte and one for the last line are enough. -/
def crLfLinesFrom : ℕ → List Byte → List (Except ArchiveError (List Byte))
  | 0, _ => []
  | n + 1, bytes =>
    match splitCrLf bytes with
    | some (line, rest) => .ok line :: crLfLinesFrom n rest
    | none =>
      if bytes.any fun b => b == chr '\r' || b == chr '\n' then
        [.error (warcError .malformed "WARC header uses invalid line framing")]
      else [.ok bytes]

/-- `CrLfLines`. -/
def crLfLines (bytes : List Byte) : List (Except ArchiveError (List Byte)) :=
  crLfLinesFrom (bytes.length + 1) bytes

/-- A space or a tab. -/
def isOws (b : Byte) : Bool := b == chr ' ' || b == chr '\t'

/-- `trim_ows`. -/
def trimOws (value : List Byte) : List Byte :=
  ((value.dropWhile isOws).reverse.dropWhile isOws).reverse

/-- `validate_field_name`. -/
def validateFieldName (name : List Byte) : Except ArchiveError Unit :=
  if !validUtf8 name then
    .error (warcError .malformed "WARC named field name is not valid UTF-8")
  else if name.isEmpty || name.any fun b =>
      b ≤ chr ' ' || b == 0x7f || (bstr "()<>@,;:\\\"/[]?=\x7b\x7d").contains b then
    .error (warcError .malformed "invalid WARC named field name")
  else .ok ()

/-- `validate_field_value`. -/
def validateFieldValue (value : List Byte) : Except ArchiveError Unit :=
  if value.any fun b => (b < chr ' ' && b != chr '\t') || b == 0x7f then
    .error (warcError .malformed "invalid control byte in WARC named field value")
  else .ok ()

/-- `u8::to_ascii_lowercase`. -/
def toAsciiLowercase (b : Byte) : Byte := if chr 'A' ≤ b ∧ b ≤ chr 'Z' then b + 32 else b

/-- `eq_ignore_ascii_case`. -/
def eqIgnoreAsciiCase (a b : List Byte) : Bool :=
  a.map toAsciiLowercase == b.map toAsciiLowercase

/-- `find_field`. -/
def findField (fields : List NamedField) (name : List Byte) : Option NamedField :=
  fields.find? fun f => eqIgnoreAsciiCase f.name name

/-- `reject_duplicate_singletons`. -/
def rejectDuplicateSingletons (fields : List NamedField) : Except ArchiveError Unit :=
  if [bstr "content-length", bstr "warc-record-id", bstr "warc-type", bstr "warc-date"].any
      fun singleton => decide (1 < fields.countP fun f => eqIgnoreAsciiCase f.name singleton) then
    .error (warcError .malformed "duplicate singleton WARC named field")
  else .ok ()

/-- The loop of `parse_content_length`. -/
def parseContentLengthFrom (length : ℕ) : List Byte → Except ArchiveError ℕ
  | [] => .ok length
  | b :: rest =>
    if chr '0' ≤ b ∧ b ≤ chr '9' then
      match (checkedMul length 10).bind (checkedAdd · (b - chr '0').toNat) with
      | some v => parseContentLengthFrom v rest
      | none => .error (warcError .malformed "WARC Content-Length overflow")
    else .error (warcError .malformed "invalid WARC Content-Length")

/-- `parse_content_length`. -/
def parseContentLength (value : List Byte) : Except ArchiveError ℕ :=
  if value.isEmpty then .error (warcError .malformed "empty WARC Content-Length")
  else parseContentLengthFrom 0 value

/-- `is_path_byte`. -/
def isPathByte (b : Byte) : Bool :=
  (chr '0' ≤ b && b ≤ chr '9') || (chr 'a' ≤ b && b ≤ chr 'z') || (chr 'A' ≤ b && b ≤ chr 'Z') ||
    b == chr '.' || b == chr '_' || b == chr '-'

/-- The hexadecimal digit of a value below 16. -/
def hexDigit (n : Byte) : Byte := if n < 10 then chr '0' + n else chr 'A' + (n - 10)

/-- A byte of a record identifier in a path. -/
def escapeByte (b : Byte) : List Byte :=
  if isPathByte b then [b] else [chr '%', hexDigit (b >>> 4), hexDigit (b &&& 0x0f)]

/-- A sequence number with twenty digits. -/
def sequenceDigits (sequence : ℕ) : List Byte :=
  (digitsBE 10 20 sequence).map fun d => chr '0' + UInt8.ofNat d

/-! ### The decoder -/

/-- The decoder state. -/
inductive WarcState where
  | header
  | data (remaining : ℕ)
  | trailer (matched : ℕ)
  | done
deriving DecidableEq

/-- The decoder. `extensionSize` is the size of an `Extension` in memory, which the account of
retained metadata uses. -/
structure WarcDecoder where
  limits : Limits
  extensionSize : ℕ
  state : WarcState := .header
  header : List Byte := []
  entries : ℕ := 0
  decoded : ℕ := 0
deriving DecidableEq

namespace WarcDecoder

/-- `WarcDecoder::new`. -/
def new (limits : Limits) (extensionSize : ℕ) : WarcDecoder := { limits, extensionSize }

/-- `append_header_byte`: the check it makes. -/
def headerFits (d : WarcDecoder) (length : ℕ) : Except ArchiveError Unit := do
  let next ← okOr (checkedAdd length 1) (warcError .limit "WARC record header length overflow")
  if exceeds next d.limits.metadataBytes then
    throw (warcError .limit "WARC record header exceeds the metadata budget")

/-- `count_entry`: the number of the record. -/
def countEntry (d : WarcDecoder) : Except ArchiveError ℕ := do
  let sequence ← okOr (checkedAdd d.entries 1) (warcError .limit "WARC record count overflow")
  if exceeds sequence d.limits.entries then
    throw (warcError .limit "WARC record count exceeds the configured limit")
  return sequence

/-- `extension_cost`. -/
def extensionCost (d : WarcDecoder) (name value : List Byte) : Except ArchiveError ℕ :=
  okOr (((checkedAdd d.extensionSize 4).bind (checkedAdd · name.length)).bind
    (checkedAdd · value.length)) (warcError .limit "WARC metadata size overflow")

/-- `account_retained_metadata`. -/
def accountRetainedMetadata (d : WarcDecoder) (current additional : ℕ) : Except ArchiveError ℕ := do
  let total ← okOr (checkedAdd current additional)
    (warcError .limit "WARC metadata size overflow")
  if exceeds total d.limits.metadataBytes then
    throw (warcError .limit "retained WARC metadata exceeds the metadata budget")
  return total

/-- A continuation line joins the value of the last field. -/
def continueField (d : WarcDecoder) (fields : List NamedField) (retained : ℕ) (line : List Byte) :
    Except ArchiveError (List NamedField × ℕ) := do
  let field ← okOr fields.getLast?
    (warcError .malformed "WARC header continuation has no preceding field")
  let continuation := trimOws line
  validateFieldValue continuation
  let separator : List Byte :=
    if !field.value.isEmpty && !continuation.isEmpty then [chr ' '] else []
  let additional ← okOr (checkedAdd separator.length continuation.length)
    (warcError .limit "WARC metadata size overflow")
  let retained ← d.accountRetainedMetadata retained additional
  return (fields.dropLast ++ [{ field with value := field.value ++ separator ++ continuation }],
    retained)

/-- A line with a new field. -/
def newField (d : WarcDecoder) (fields : List NamedField) (retained : ℕ) (line : List Byte) :
    Except ArchiveError (List NamedField × ℕ) := do
  if !line.contains (chr ':') then
    throw (warcError .malformed "WARC named field is missing ':'")
  let name := line.takeWhile (· != chr ':')
  let value := trimOws (line.drop (name.length + 1))
  validateFieldName name
  validateFieldValue value
  let retained ← d.accountRetainedMetadata retained (← d.extensionCost name value)
  return (fields ++ [⟨name, value⟩], retained)

/-- The loop over the lines after the version. -/
def parseFields (d : WarcDecoder) : List (Except ArchiveError (List Byte)) → List NamedField → ℕ →
    Except ArchiveError (List NamedField × ℕ)
  | [], fields, retained => .ok (fields, retained)
  | line :: rest, fields, retained => do
    let line ← line
    let (fields, retained) ←
      if line.head?.any isOws then d.continueField fields retained line
      else d.newField fields retained line
    d.parseFields rest fields retained

/-- The path without the identifier. -/
def fallbackPath (sequence : ℕ) : List Byte :=
  bstr "warc/" ++ sequenceDigits sequence ++ bstr ".record"

/-- The path with the identifier. -/
def candidatePath (sequence : ℕ) (recordId : List Byte) : List Byte :=
  bstr "warc/" ++ sequenceDigits sequence ++ [chr '/'] ++ recordId.flatMap escapeByte ++
    bstr ".record"

/-- `record_path`. A length that overflows falls back like one that exceeds the budget. -/
def recordPath (d : WarcDecoder) (sequence : ℕ) (recordId : Option (List Byte)) :
    Except ArchiveError (List Byte) :=
  if exceeds (fallbackPath sequence).length d.limits.pathBytes then
    .error (warcError .limit "generated WARC entry path exceeds the path budget")
  else match recordId.filter (!·.isEmpty) with
    | none => .ok (fallbackPath sequence)
    | some recordId =>
      if u64Max < (candidatePath sequence recordId).length ∨
          exceeds (candidatePath sequence recordId).length d.limits.pathBytes then
        .ok (fallbackPath sequence)
      else .ok (candidatePath sequence recordId)

/-- The value of the version line, which is the first one. -/
def versionOf : List (Except ArchiveError (List Byte)) → Except ArchiveError (List Byte)
  | [] => .error (warcError .malformed "WARC record is missing a version line")
  | line :: _ => do
    let version ← line
    if version = bstr "WARC/1.0" then return bstr "1.0"
    else if version = bstr "WARC/1.1" then return bstr "1.1"
    else throw (warcError .malformed "unsupported or malformed WARC version line")

/-- The part of `parse_header` after the fields: the metadata and the content length. -/
def describe (d : WarcDecoder) (sequence : ℕ) (versionValue : List Byte) (fields : List NamedField)
    (retained : ℕ) : Except ArchiveError (EntryMetadata × ℕ) := do
  if fields.any fun f => !validUtf8 f.value then
    throw (warcError .malformed "WARC named field value is not valid UTF-8")
  rejectDuplicateSingletons fields
  let lengthField ← okOr (findField fields (bstr "content-length"))
    (warcError .malformed "WARC record is missing Content-Length")
  let contentLength ← parseContentLength lengthField.value
  if exceeds contentLength d.limits.entryBytes then
    throw (warcError .limit "WARC content block exceeds the per-entry limit")
  let path ← d.recordPath sequence ((findField fields (bstr "warc-record-id")).map (·.value))
  let _ ← d.accountRetainedMetadata retained path.length
  let metadata : EntryMetadata :=
    { kind := .file
      path := .fromUtf8 path
      size := some (UInt64.ofNat contentLength)
      mode := some 0o644
      extensions := ⟨"warc", bstr "version", versionValue⟩ ::
        fields.map fun f => ⟨"warc", f.name, f.value⟩ }
  metadata.validate
  return (metadata, contentLength)

/-- `parse_header`: the metadata and the content length of a record. -/
def parseHeader (d : WarcDecoder) (bytes : List Byte) (sequence : ℕ) :
    Except ArchiveError (EntryMetadata × ℕ) := do
  if !headerEnd.isSuffixOf bytes then
    throw (warcError .protocol "WARC header parser called before terminator")
  let lines := crLfLines (bytes.take (bytes.length - headerEnd.length))
  let versionValue ← versionOf lines
  let cost ← d.extensionCost (bstr "version") versionValue
  let (fields, retained) ← d.parseFields lines.tail [] cost
  d.describe sequence versionValue fields retained

/-- A step that asks for more input, which is a failure at the end of it. -/
def starved (d : WarcDecoder) (eoi : EndOfInput) (consumed : ℕ) (what : String) :
    Except ArchiveError (DecodeStep × WarcDecoder) :=
  if eoi = .end then .error (warcError .malformed what) else .ok (⟨consumed, 0, .needInput⟩, d)

/-- The loop over the bytes of a header. -/
def headerLoop (d : WarcDecoder) (eoi : EndOfInput) (consumed : ℕ) :
    List Byte → List Byte → Except ArchiveError (DecodeStep × WarcDecoder)
  | header, [] => ({ d with header } : WarcDecoder).starved eoi consumed
      "truncated WARC record header"
  | header, b :: rest => do
    d.headerFits header.length
    let header := header ++ [b]
    if headerEnd.isSuffixOf header then
      let entries ← d.countEntry
      let d := { d with entries, header := [] }
      let (metadata, contentLength) ← d.parseHeader header entries
      return (⟨consumed + 1, 0, .entry metadata⟩, { d with state := .data contentLength })
    else d.headerLoop eoi (consumed + 1) header rest

/-- The step in a header. -/
def stepHeader (d : WarcDecoder) (input : List Byte) (eoi : EndOfInput) :
    Except ArchiveError (DecodeStep × WarcDecoder) :=
  if input.isEmpty then
    if eoi = .end ∧ d.header.isEmpty ∧ d.entries ≠ 0 then
      .ok (⟨0, 0, .done⟩, { d with state := .done })
    else d.starved eoi 0 "truncated or empty WARC record header"
  else d.headerLoop eoi 0 d.header input

/-- The step in a content block. -/
def stepData (d : WarcDecoder) (input : List Byte) (eoi : EndOfInput) (remaining : ℕ) :
    Except ArchiveError (DecodeStep × WarcDecoder) :=
  if remaining = 0 then .ok (⟨0, 0, .endEntry⟩, { d with state := .trailer 0 })
  else if input.isEmpty then d.starved eoi 0 "truncated WARC content block"
  else do
    let count := min input.length remaining
    let decoded ← okOr (checkedAdd d.decoded count)
      (warcError .limit "WARC decoded byte count overflow")
    if exceeds decoded d.limits.decodedTotal then
      throw (warcError .limit "WARC decoded total exceeds the configured limit")
    return (⟨count, 0, .data (input.take count)⟩, { d with
      decoded, state := .data (remaining - count) })

/-- The step in the trailer of a record. -/
def stepTrailer (d : WarcDecoder) (input : List Byte) (eoi : EndOfInput) (matched : ℕ) :
    Except ArchiveError (DecodeStep × WarcDecoder) :=
  let expected := recordEnd.drop matched
  let count := min expected.length input.length
  if input.take count ≠ expected.take count then
    .error (warcError .malformed "WARC record is missing its CRLF CRLF trailer")
  else if matched + count = recordEnd.length then
    .ok (⟨count, 0, .needInput⟩, { d with state := .header })
  else ({ d with state := .trailer (matched + count) } : WarcDecoder).starved eoi count
    "truncated WARC record trailer"

/-- `WarcDecoder::step`. The scratch buffer is not used. -/
def step (d : WarcDecoder) (input : List Byte) (_outputLen : ℕ) (eoi : EndOfInput) :
    Except ArchiveError (DecodeStep × WarcDecoder) :=
  match d.state with
  | .done =>
    if !input.isEmpty then .error (warcError .protocol "input supplied after WARC completion")
    else .ok (⟨0, 0, .done⟩, d)
  | .data remaining => d.stepData input eoi remaining
  | .trailer matched => d.stepTrailer input eoi matched
  | .header => d.stepHeader input eoi

end WarcDecoder

/-- `WarcDecoder::probe`. -/
def probe (pre : List Byte) : ProbeResult Unit :=
  if signature10.length ≤ pre.length then
    if signature10.isPrefixOf pre || signature11.isPrefixOf pre then .isMatch () else .noMatch
  else if pre.isPrefixOf signature10 || pre.isPrefixOf signature11 then
    .needMore signature10.length
  else .noMatch

end LibarchiveOxide.Warc.Decoder
