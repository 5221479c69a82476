import LibarchiveOxide.Core.Failure
import LibarchiveOxide.Iso.Fields

/-! # Package findings and verification outcomes

The part of the package report that integrity verification fills in: the dimension and the findings
behind it. Of the finding codes the ones of integrity verification are kept; a finding's severity is
a function of its code and left out. -/

namespace LibarchiveOxide.Package.Finding

open Core.Failure

/-- What a verifier says of one dimension of a package. -/
inductive VerificationDimension where
  | verified
  | invalid
  | notPresent
  | notEvaluated
  | unsupported
deriving DecidableEq

/-- The finding codes of integrity verification. -/
inductive PackageFindingCode where
  | integrityMismatch
  | invalidIntegrityMetadata
  | missingIntegrityRecord
  | unsupportedIntegrityAlgorithm
  | unsupportedIntegrityScope
  | integrityReadFailure
  | integrityResourceLimit
deriving DecidableEq

/-- A finding. -/
structure PackageFinding where
  profile : String
  path : Option (List Byte)
  code : PackageFindingCode
  detail : String
deriving DecidableEq

end LibarchiveOxide.Package.Finding

/-! # Wheel integrity

`verify_wheel` compares the entries of a wheel with the rows of its `RECORD`. The rows are CSV lines of
a path, a digest and a size. The two base64 decoders are parameters. -/

namespace LibarchiveOxide.Package.Wheel

open Core.Failure Iso.Names Package.Finding

/-- `EntryDigest`. -/
structure EntryDigest where
  name : List Byte
  size : ℕ
  sha256 : List Byte
  sha384 : List Byte
  sha512 : List Byte
  metadataBody : Option (List Byte)
deriving DecidableEq

/-- `WheelRow`. -/
structure WheelRow where
  hash : List Byte
  size : List Byte
deriving DecidableEq

/-- The decoders `URL_SAFE_NO_PAD` and `URL_SAFE`, with the texts of their errors. -/
structure Base64 where
  urlSafeNoPad : List Byte → Except String (List Byte)
  urlSafe : List Byte → Except String (List Byte)

/-- A line feed. -/
def LF : Byte := 0x0a

/-- A carriage return. -/
def CR : Byte := 0x0d

/-- `integrity_finding` of the profile. -/
def integrityFinding (path : List Byte) (code : PackageFindingCode) (detail : String) : PackageFinding :=
  ⟨"wheel", some path, code, detail⟩

/-- `integrity_outcome`. -/
def integrityOutcome (checked : ℕ) (unsupported : Bool) (findings : List PackageFinding) :
    VerificationDimension × List PackageFinding :=
  let invalid := findings.any fun finding =>
    finding.code == .integrityMismatch || finding.code == .invalidIntegrityMetadata ||
      finding.code == .missingIntegrityRecord || finding.code == .integrityReadFailure
  (if invalid then .invalid else if unsupported then .unsupported
    else if checked = 0 then .notPresent else .verified, findings)

/-! ### Rows -/

/-- The loop of `csv_fields` over the rest of the line. -/
def csvLoop : List Byte → List (List Byte) → List Byte → Bool → Except String (List (List Byte))
  | [], fields, field, quoted =>
    if quoted then .error "unterminated quoted field" else .ok (fields ++ [field])
  | b :: rest, fields, field, quoted =>
    if b = chr '"' then
      if quoted then
        match rest with
        | [] => csvLoop [] fields field false
        | c :: rest =>
          if c = chr '"' then csvLoop rest fields (field ++ [chr '"']) quoted
          else csvLoop (c :: rest) fields field false
      else csvLoop rest fields field true
    else if b = chr ',' ∧ quoted = false then csvLoop rest (fields ++ [field]) [] quoted
    else csvLoop rest fields (field ++ [b]) quoted

/-- `csv_fields`. -/
def csvFields (line : List Byte) : Except String (List (List Byte)) := csvLoop line [] [] false

/-- `strip_suffix` of a carriage return. -/
def stripCr (rawLine : List Byte) : List Byte :=
  if rawLine.getLast? = some CR then rawLine.dropLast else rawLine

/-- The rows so far, the last one first, with the findings. -/
structure Rows where
  rows : List (List Byte × WheelRow) := []
  findings : List PackageFinding := []

/-- `rows.get`. -/
def Rows.get (r : Rows) (name : List Byte) : Option WheelRow := r.rows.lookup name

/-- A line of the file. A path that has a row already loses it. -/
def Rows.line (recordName : List Byte) (r : Rows) (index : ℕ) (rawLine : List Byte) : Rows :=
  let line := stripCr rawLine
  if line = [] then r
  else
    match csvFields line with
    | .ok [path, hash, size] => {
        rows := (path, ⟨hash, size⟩) :: r.rows
        findings := if (r.get path).isSome then
            r.findings ++ [integrityFinding path .invalidIntegrityMetadata
              "wheel RECORD path appears more than once"]
          else r.findings }
    | .ok _ => { r with findings := r.findings ++ [integrityFinding recordName .invalidIntegrityMetadata
        s!"wheel RECORD line {index + 1} does not have three fields"] }
    | .error detail =>
      { r with findings := r.findings ++ [integrityFinding recordName .invalidIntegrityMetadata
        s!"wheel RECORD line {index + 1}: {detail}"] }

/-- The loop over the lines. -/
def rowsLoop (recordName : List Byte) : ℕ → List (List Byte) → Rows → Rows
  | _, [], r => r
  | index, rawLine :: lines, r => rowsLoop recordName (index + 1) lines (r.line recordName index rawLine)

/-- `parse_wheel_rows`. -/
def parseWheelRows (body recordName : List Byte) : Rows := rowsLoop recordName 0 (body.splitOn LF) {}

/-! ### Entries -/

/-- `WheelProgress`, with the findings. -/
structure WheelProgress where
  checked : ℕ := 0
  unsupported : Bool := false
  findings : List PackageFinding := []

/-- A finding more. -/
def WheelProgress.finding (p : WheelProgress) (entry : EntryDigest) (code : PackageFindingCode)
    (detail : String) : WheelProgress :=
  { p with findings := p.findings ++ [integrityFinding entry.name code detail] }

/-- The value of decimal digits. -/
def digitsValue (digits : List Byte) : ℕ := digits.foldl (fun v b => v * 10 + (b.toNat - 48)) 0

/-- `str::parse::<u64>`: decimal digits, with a plus sign if one likes. -/
def parseU64 (text : List Byte) : Option ℕ :=
  let digits := if text.head? = some (chr '+') then text.drop 1 else text
  if digits = [] ∨ ¬ digits.all (fun b => chr '0' ≤ b && b ≤ chr '9') then none
  else if u64Max < digitsValue digits then none
  else some (digitsValue digits)

/-- `verify_wheel_size`. -/
def verifyWheelSize (entry : EntryDigest) (row : WheelRow) (p : WheelProgress) : WheelProgress :=
  match parseU64 row.size with
  | some size =>
    if size = entry.size then p
    else p.finding entry .integrityMismatch s!"RECORD size {size} does not match {entry.size}"
  | none => p.finding entry .invalidIntegrityMetadata "RECORD size is not an unsigned decimal integer"

/-- `u8::to_ascii_lowercase`. -/
def toAsciiLowercase (b : Byte) : Byte := if chr 'A' ≤ b ∧ b ≤ chr 'Z' then b + 32 else b

/-- `eq_ignore_ascii_case`. -/
def eqIgnoreAsciiCase (a b : List Byte) : Bool := a.map toAsciiLowercase == b.map toAsciiLowercase

/-- The digest that an algorithm names. -/
def expectedDigest (algorithm : List Byte) (entry : EntryDigest) : Option (List Byte) :=
  if eqIgnoreAsciiCase algorithm (bstr "sha256") then some entry.sha256
  else if eqIgnoreAsciiCase algorithm (bstr "sha384") then some entry.sha384
  else if eqIgnoreAsciiCase algorithm (bstr "sha512") then some entry.sha512
  else none

/-- The text of bytes. -/
def lossyText (bytes : List Byte) : String := String.ofList ((lossy bytes).map Char.ofNat)

/-- `URL_SAFE_NO_PAD`, and if that fails `URL_SAFE`. -/
def Base64.decode (b : Base64) (encoded : List Byte) : Except String (List Byte) :=
  match b.urlSafeNoPad encoded with
  | .ok bytes => .ok bytes
  | .error _ => b.urlSafe encoded

/-- The digest of a row. -/
def verifyWheelHash (b : Base64) (entry : EntryDigest) (row : WheelRow) (p : WheelProgress) :
    WheelProgress :=
  match row.hash.findIdx? (· == chr '=') with
  | none => p.finding entry .invalidIntegrityMetadata
      "RECORD hash does not use algorithm=urlsafe-base64 syntax"
  | some at_ =>
    let algorithm := row.hash.take at_
    let encoded := row.hash.drop (at_ + 1)
    match expectedDigest algorithm entry with
    | none => { p with unsupported := true }.finding entry .unsupportedIntegrityAlgorithm
        s!"wheel RECORD requests unsupported digest {lossyText algorithm}"
    | some expected =>
      let p := { p with checked := p.checked + 1 }
      match b.decode encoded with
      | .ok actual =>
        if actual = expected then p
        else p.finding entry .integrityMismatch
          "wheel RECORD digest does not match the entry bytes"
      | .error error => p.finding entry .invalidIntegrityMetadata
          s!"wheel RECORD digest is not URL-safe base64: {error}"

/-- `verify_wheel_row`. -/
def verifyWheelRow (b : Base64) (recordName : List Byte) (entry : EntryDigest) (row : WheelRow)
    (p : WheelProgress) : WheelProgress :=
  if entry.name = recordName then
    if row.hash ≠ [] ∨ row.size ≠ [] then p.finding entry .invalidIntegrityMetadata
      "the RECORD row for RECORD must have empty hash and size fields"
    else p
  else if row.hash = [] ∨ row.size = [] then p.finding entry .missingIntegrityRecord
    "wheel entry has an empty hash or size in RECORD"
  else verifyWheelHash b entry row (verifyWheelSize entry row p)

/-- The name of a directory. -/
def isDirectory (name : List Byte) : Bool := (bstr "/").isSuffixOf name

/-- The name of a `RECORD`. -/
def isRecord (name : List Byte) : Bool := (bstr ".dist-info/RECORD").isSuffixOf name

/-- The name of a signature file. -/
def isSignature (name : List Byte) : Bool :=
  (bstr ".dist-info/RECORD.jws").isSuffixOf name || (bstr ".dist-info/RECORD.p7s").isSuffixOf name

local instance lawful_path : LawfulBEq (List Byte) := inferInstance

/-- A round over the entries. -/
def verifyEntry (b : Base64) (recordName : List Byte) (rows : Rows) (signaturePaths : List (List Byte))
    (p : WheelProgress) (entry : EntryDigest) : WheelProgress :=
  if isDirectory entry.name ∨ entry.name ∈ signaturePaths then p
  else
    match rows.get entry.name with
    | none => p.finding entry .missingIntegrityRecord "wheel entry has no RECORD row"
    | some row => verifyWheelRow b recordName entry row p

/-- `verify_wheel`. -/
def verifyWheel (b : Base64) (entries : List EntryDigest) :
    VerificationDimension × List PackageFinding :=
  match entries.find? fun entry => isRecord entry.name with
  | none => (.notEvaluated, [])
  | some record =>
    match record.metadataBody with
    | none => (.invalid, [integrityFinding record.name .invalidIntegrityMetadata
        "wheel RECORD body was not retained"])
    | some body =>
      let rows := parseWheelRows body record.name
      let signaturePaths := (entries.filter fun entry => isSignature entry.name).map EntryDigest.name
      let progress := entries.foldl (verifyEntry b record.name rows signaturePaths)
        { findings := rows.findings }
      integrityOutcome progress.checked progress.unsupported progress.findings

end LibarchiveOxide.Package.Wheel
