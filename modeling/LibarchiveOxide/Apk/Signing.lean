import LibarchiveOxide.Apk.Cursor
import LibarchiveOxide.Core.Failure
import LibarchiveOxide.Lib.SortedMap

/-! # APK signers

What `android_signature.rs` reads of a signer in a v2, v3 or v3.1 block: the signature and digest
records, the first certificate and the attributes with the proof of rotation. Certificates and the
check of signatures are parameters (`Certificates`). -/

namespace LibarchiveOxide.Apk.Signing

open Core.Failure Core.Budget Lib Lib.LittleEndian Apk.Cursor

/-! ### Algorithms -/

def APK_V2_BLOCK_ID : ℕ := 0x7109871a
def APK_V3_BLOCK_ID : ℕ := 0xf05368c0
def APK_V31_BLOCK_ID : ℕ := 0x1b93ad61
def V2_STRIPPING_PROTECTION_ATTR_ID : ℕ := 0xbeeff00d
def V3_PROOF_OF_ROTATION_ATTR_ID : ℕ := 0x3ba06f8c
def V3_ROTATION_MIN_SDK_ATTR_ID : ℕ := 0x559f8b02
def V3_ROTATION_DEV_RELEASE_ATTR_ID : ℕ := 0xc2a6b3ba
def PROOF_OF_ROTATION_VERSION : ℕ := 1
def ANDROID_N_API : ℕ := 24
def ANDROID_P_API : ℕ := 28
def MAX_SIGNERS : ℕ := 10
def MAX_CERTIFICATES : ℕ := 64
def MAX_LINEAGE_LEVELS : ℕ := 64
def MAX_RECORDS : ℕ := 64

/-- `i32::MAX`. -/
def i32Max : ℕ := 2 ^ 31 - 1

/-- `ContentDigestKind`, in its order. -/
inductive ContentDigestKind where
  | chunkedSha256
  | veritySha256
  | chunkedSha512
deriving DecidableEq

/-- `ContentDigestKind::expected_length`. -/
def ContentDigestKind.expectedLength : ContentDigestKind → ℕ
  | .chunkedSha256 => 32
  | .veritySha256 => 40
  | .chunkedSha512 => 64

/-- The derived order. -/
def ContentDigestKind.rank : ContentDigestKind → ℕ
  | .chunkedSha256 => 0
  | .veritySha256 => 1
  | .chunkedSha512 => 2

/-- Its name, as `{:?}` shows it. -/
def ContentDigestKind.name : ContentDigestKind → String
  | .chunkedSha256 => "ChunkedSha256"
  | .veritySha256 => "VeritySha256"
  | .chunkedSha512 => "ChunkedSha512"

/-- `Scheme`. -/
inductive Scheme where
  | v2
  | v3
  | v31
deriving DecidableEq

/-- `Scheme::label`. -/
def Scheme.label : Scheme → String
  | .v2 => "v2"
  | .v3 => "v3"
  | .v31 => "v3.1"

/-- `Scheme::has_sdk_range`. -/
def Scheme.hasSdkRange : Scheme → Bool
  | .v2 => false
  | .v3 | .v31 => true

/-- `SignatureAlgorithm`. -/
inductive SignatureAlgorithm where
  | rsaPssSha256
  | rsaPssSha512
  | rsaPkcs1Sha256
  | rsaPkcs1Sha512
  | ecdsaSha256
  | ecdsaSha512
  | dsaSha256
  | verityRsaSha256
  | verityEcdsaSha256
  | verityDsaSha256
deriving DecidableEq

namespace SignatureAlgorithm

/-- `from_id`. -/
def fromId : ℕ → Option SignatureAlgorithm
  | 0x0101 => some .rsaPssSha256
  | 0x0102 => some .rsaPssSha512
  | 0x0103 => some .rsaPkcs1Sha256
  | 0x0104 => some .rsaPkcs1Sha512
  | 0x0201 => some .ecdsaSha256
  | 0x0202 => some .ecdsaSha512
  | 0x0301 => some .dsaSha256
  | 0x0421 => some .verityRsaSha256
  | 0x0423 => some .verityEcdsaSha256
  | 0x0425 => some .verityDsaSha256
  | _ => none

/-- `content_digest`. -/
def contentDigest : SignatureAlgorithm → ContentDigestKind
  | .rsaPssSha256 | .rsaPkcs1Sha256 | .ecdsaSha256 | .dsaSha256 => .chunkedSha256
  | .rsaPssSha512 | .rsaPkcs1Sha512 | .ecdsaSha512 => .chunkedSha512
  | .verityRsaSha256 | .verityEcdsaSha256 | .verityDsaSha256 => .veritySha256

/-- `minimum_sdk`. -/
def minimumSdk : SignatureAlgorithm → ℕ
  | .verityRsaSha256 | .verityEcdsaSha256 | .verityDsaSha256 => ANDROID_P_API
  | _ => ANDROID_N_API

/-- `uses_rsa`. -/
def usesRsa : SignatureAlgorithm → Bool
  | .rsaPssSha256 | .rsaPssSha512 | .rsaPkcs1Sha256 | .rsaPkcs1Sha512 | .verityRsaSha256 => true
  | _ => false

end SignatureAlgorithm

/-- `KeyAlgorithm` of the certificate package. -/
inductive KeyAlgorithm where
  | rsa
  | ecdsaP256
  | ecdsaP384
  | ed25519
deriving DecidableEq

/-- The algorithms of the signature package. -/
inductive VerificationAlgorithm where
  | rsaPssSha256
  | rsaPssSha512
  | rsaPkcs1Sha256
  | rsaPkcs1Sha512
  | ecdsaP256Sha256
  | ecdsaP384Sha256
deriving DecidableEq

/-- What is taken from the packages for certificates, signatures and hashes. -/
structure Certificates (Cert : Type) where
  /-- `parse_certificate`, with the preflight under the budgets. -/
  parse : Limits → List Byte → Except Failure Cert
  /-- `to_public_key_der`, or the error's text. -/
  publicKeyDer : Cert → Except String (List Byte)
  keyAlgorithm : Cert → Option KeyAlgorithm
  /-- The modulus of `rsa_public_key_data`, or the error's text. -/
  rsaModulus : Cert → Except String (List Byte)
  /-- `verify_signed_data_with_algorithm`. -/
  verifies : Cert → List Byte → List Byte → VerificationAlgorithm → Bool
  /-- How `KeyAlgorithm` is displayed. -/
  keyName : KeyAlgorithm → String
  sha256 : List Byte → List Byte

variable {Cert : Type}

/-- `SignatureAlgorithm::verifier`. -/
def verifier (x : Certificates Cert) (a : SignatureAlgorithm) (key : Option KeyAlgorithm) :
    Except Failure VerificationAlgorithm :=
  match a, key with
  | .rsaPssSha256, some .rsa => .ok .rsaPssSha256
  | .rsaPssSha512, some .rsa => .ok .rsaPssSha512
  | .rsaPkcs1Sha256, some .rsa | .verityRsaSha256, some .rsa => .ok .rsaPkcs1Sha256
  | .rsaPkcs1Sha512, some .rsa => .ok .rsaPkcs1Sha512
  | .ecdsaSha256, some .ecdsaP256 | .verityEcdsaSha256, some .ecdsaP256 => .ok .ecdsaP256Sha256
  | .ecdsaSha256, some .ecdsaP384 | .verityEcdsaSha256, some .ecdsaP384 => .ok .ecdsaP384Sha256
  | .ecdsaSha512, some .ecdsaP256 | .ecdsaSha512, some .ecdsaP384 =>
    .error (.unsupported "APK ECDSA-with-SHA-512 signatures are not supported by this build")
  | .dsaSha256, _ | .verityDsaSha256, _ =>
    .error (.unsupported "APK DSA signatures are not supported by this build")
  | _, none =>
    .error (.unsupported "APK signer certificate uses an unsupported public-key algorithm")
  | _, some actual =>
    .error (.invalid
      s!"APK signature algorithm does not match signer public-key type {x.keyName actual}")

/-- `validate_key_support`. -/
def validateKeySupport (x : Certificates Cert) (a : SignatureAlgorithm) (certificate : Cert) :
    Except Failure Unit :=
  if !a.usesRsa || x.keyAlgorithm certificate != some .rsa then .ok ()
  else do
    let modulus ← (x.rsaModulus certificate).mapError fun e =>
      .invalid s!"cannot parse APK signer RSA public key: {e}"
    let modulus := if modulus.head? = some 0 then modulus.tail else modulus
    if modulus.length < 256 ∨ 1024 < modulus.length then
      throw (.unsupported s!"APK RSA keys outside 2048..=8192 bits are not supported by this build ({modulus.length} bytes)")

/-- The check of a signature with a certificate, by the algorithm with this id. -/
def checkSignature (x : Certificates Cert) (a : SignatureAlgorithm) (certificate : Cert)
    (signedData signature : List Byte) (mismatch : String) : Except Failure Unit := do
  validateKeySupport x a certificate
  let v ← verifier x a (x.keyAlgorithm certificate)
  if x.verifies certificate signedData signature v then return ()
  else throw (.mismatch mismatch)

/-! ### Records -/

/-- `SignatureRecord` and `DigestRecord`. -/
structure Record where
  id : ℕ
  bytes : List Byte
deriving DecidableEq

/-- The words in which the two sequences of records differ. -/
structure RecordWords where
  record : String
  id : String
  bytes : String
  tooMany : String
  repeats : String
  empty : String

/-- A sequence of records with distinct ids. -/
def parseRecords (w : RecordWords) (bytes : List Byte) : Except Failure (List Record) := do
  let records ← readAll (items (.resource w.tooMany) (fun records => do
    let recordBytes ← lengthPrefixed w.record
    let r ← (readAll (do
      let id ← u32 w.id
      let value ← lengthPrefixed w.bytes
      finish w.record
      return (⟨id, value⟩ : Record)) recordBytes : Except Failure Record)
    if (records.map (·.id)).contains r.id then throw (.invalid s!"{w.repeats} {hex r.id}")
    return records ++ [r]) MAX_RECORDS []) bytes
  if records = [] then throw (.invalid w.empty)
  return records

/-- `parse_signature_records`. -/
def parseSignatureRecords : List Byte → Except Failure (List Record) :=
  parseRecords
    { record := "APK signature record"
      id := "APK signature algorithm id"
      bytes := "APK signature bytes"
      tooMany := "APK signer exceeds the 64-signature limit"
      repeats := "APK signer repeats signature algorithm"
      empty := "APK signer provides no signatures" }

/-- `parse_digest_records`. -/
def parseDigestRecords : List Byte → Except Failure (List Record) :=
  parseRecords
    { record := "APK digest record"
      id := "APK digest algorithm id"
      bytes := "APK content digest"
      tooMany := "APK signer exceeds the 64-digest limit"
      repeats := "APK signer repeats digest algorithm"
      empty := "APK signer provides no content digests" }

/-- A candidate of `select_signatures`, kept if it is stronger than the one at its introduction. -/
def offer (maximumSdk : ℕ) (selected : List (ℕ × Record)) (r : Record) : List (ℕ × Record) :=
  match SignatureAlgorithm.fromId r.id with
  | none => selected
  | some a =>
    if maximumSdk < a.minimumSdk then selected
    else
      let replace := match SortedMap.find a.minimumSdk selected with
        | none => true
        | some current =>
          match SignatureAlgorithm.fromId current.id with
          | none => true
          | some c => c.contentDigest.rank < a.contentDigest.rank
      if replace then SortedMap.insert (fun m n => decide (m < n)) a.minimumSdk r selected
      else selected

/-- The earliest introduction among the known algorithms up to the maximum. -/
def earliest (maximumSdk : ℕ) (records : List Record) : Option ℕ :=
  records.foldl (fun m r =>
    match SignatureAlgorithm.fromId r.id with
    | none => m
    | some a =>
      if maximumSdk < a.minimumSdk then m
      else some ((m.map fun current => min current a.minimumSdk).getD a.minimumSdk)) none

/-- `select_signatures`. -/
def selectSignatures (records : List Record) (minimumSdk maximumSdk : ℕ) :
    Except Failure (List Record) :=
  match earliest maximumSdk records with
  | none =>
    let ids := String.intercalate ", " (records.map fun r => hex r.id)
    .error (.unsupported s!"APK signer provides only unknown signature algorithms: {ids}")
  | some provided =>
    if minimumSdk < provided then
      .error (.unsupported
        s!"APK signer SDK range starts at {minimumSdk}, but its earliest supported signature algorithm starts at SDK {provided}")
    else
      let selected := (records.foldl (offer maximumSdk) []).map Prod.snd
      .ok (selected.insertionSort fun a b => a.id ≤ b.id)

/-- `collect_content_digests`. -/
def collectContentDigests (kinds : List ContentDigestKind) :
    List Record → List (ContentDigestKind × List Byte) →
      Except Failure (List (ContentDigestKind × List Byte))
  | [], digests => .ok digests
  | r :: records, digests =>
    match SignatureAlgorithm.fromId r.id with
    | none => collectContentDigests kinds records digests
    | some a =>
      let kind := a.contentDigest
      if kind ∉ kinds then collectContentDigests kinds records digests
      else if r.bytes.length ≠ kind.expectedLength then
        .error (.invalid
          s!"APK digest for algorithm {hex r.id} is {r.bytes.length} bytes; expected {kind.expectedLength}")
      else
        match SortedMap.find kind digests with
        | some previous =>
          if previous ≠ r.bytes then
            .error (.invalid
              s!"APK signer provides conflicting authenticated digests for {kind.name}")
          else collectContentDigests kinds records digests
        | none =>
          collectContentDigests kinds records
            (SortedMap.insert (fun k l => decide (k.rank < l.rank)) kind r.bytes digests)

/-- `parse_first_certificate`. -/
def parseFirstCertificate (x : Certificates Cert) (limits : Limits) (bytes : List Byte) :
    Except Failure (Cert × List Byte) := do
  let first ← readAll (items (.resource "APK signer exceeds the 64-certificate limit")
    (fun first => do
      let encoded ← lengthPrefixed "APK signer certificate"
      let parsed ← (x.parse limits encoded : Except Failure Cert)
      return first.or (some (parsed, encoded))) MAX_CERTIFICATES none) bytes
  match first with
  | none => throw (.invalid "APK signer has no certificate")
  | some c => return c

/-- `validate_sdk_range`. -/
def validateSdkRange (minimum maximum : ℕ) (location : String) : Except Failure Unit := do
  if i32Max < minimum ∨ i32Max < maximum then
    throw (.invalid s!"APK v3 {location} SDK range exceeds signed 32-bit Android API values: {minimum}..={maximum}")
  if maximum < minimum ∨ maximum < 28 then
    throw (.invalid s!"APK v3 {location} has invalid SDK range {minimum}..={maximum}")

/-- The SDK range of a scheme that has one. -/
def sdkRange (scheme : Scheme) (what location : String) : CursorM (Option (ℕ × ℕ)) :=
  if scheme.hasSdkRange then do
    let minimum ← u32 s!"APK {scheme.label} {what} minimum SDK"
    let maximum ← u32 s!"APK {scheme.label} {what} maximum SDK"
    let _ ← (validateSdkRange minimum maximum location : Except Failure Unit)
    return some (minimum, maximum)
  else return none

/-! ### The proof of rotation -/

/-- `ParsedLineageLevel`. -/
structure ParsedLineageLevel where
  signedData : List Byte
  certificateDer : List Byte
  flags : ℕ
  signedSignatureAlgorithmId : ℕ
  nextSignatureAlgorithmId : ℕ
  signature : List Byte
deriving DecidableEq

/-- `VerifiedLineageLevel`. -/
structure VerifiedLineageLevel where
  certificateDer : List Byte
  fingerprint : List Byte
  flags : ℕ
  signedSignatureAlgorithmId : ℕ
  nextSignatureAlgorithmId : ℕ
deriving DecidableEq

/-- `parse_lineage_level`. -/
def parseLineageLevel (level : List Byte) (index : ℕ) : Except Failure ParsedLineageLevel := do
  let (signedData, flags, next, signature) ← readAll (do
    let signedData ← lengthPrefixed s!"APK proof-of-rotation level {index} signed-data"
    let flags ← u32 "APK proof-of-rotation flags"
    let next ← u32 "APK proof-of-rotation next signature algorithm"
    let signature ← lengthPrefixed "APK proof-of-rotation level signature"
    finish "APK proof-of-rotation level"
    return (signedData, flags, next, signature)) level
  let (certificateDer, signed) ← readAll (do
    let certificateDer ← lengthPrefixed "APK proof-of-rotation certificate"
    let signed ← u32 "APK proof-of-rotation signed signature algorithm"
    finish "APK proof-of-rotation signed-data"
    return (certificateDer, signed)) signedData
  return ⟨signedData, certificateDer, flags, signed, next, signature⟩

/-- The levels read so far, and the certificate and algorithm of the last one. -/
structure LineageAcc (Cert : Type) where
  levels : List VerifiedLineageLevel := []
  previous : Option (Cert × ℕ) := none

/-- The check of a level under the level before it. -/
def checkLevel (x : Certificates Cert) (previous : Option (Cert × ℕ)) (parsed : ParsedLineageLevel)
    (index : ℕ) : Except Failure Unit :=
  match previous with
  | none => .ok ()
  | some (certificate, id) =>
    if id ≠ parsed.signedSignatureAlgorithmId then
      .error (.mismatch s!"APK proof-of-rotation level {index} signature algorithm {hex parsed.signedSignatureAlgorithmId} differs from its predecessor's {hex id}")
    else
      match SignatureAlgorithm.fromId id with
      | none =>
        .error (.unsupported s!"APK proof-of-rotation uses unsupported signature algorithm {hex id}")
      | some a =>
        checkSignature x a certificate parsed.signedData parsed.signature
          s!"APK proof-of-rotation signature for level {index} did not verify"

/-- One level of the loop of `verify_proof_of_rotation`. -/
def lineageLevel (x : Certificates Cert) (limits : Limits) (acc : LineageAcc Cert) :
    CursorM (LineageAcc Cert) := do
  let index := acc.levels.length
  let level ← lengthPrefixed s!"APK proof-of-rotation level {index}"
  let parsed ← (parseLineageLevel level index : Except Failure ParsedLineageLevel)
  let certificate ← (x.parse limits parsed.certificateDer : Except Failure Cert)
  if (acc.levels.map (·.certificateDer)).contains parsed.certificateDer then
    throw (.invalid s!"APK proof-of-rotation repeats a certificate at level {index}")
  let _ ← (checkLevel x acc.previous parsed index : Except Failure Unit)
  if parsed.nextSignatureAlgorithmId ≠ 0 ∧
      SignatureAlgorithm.fromId parsed.nextSignatureAlgorithmId = none then
    throw (.unsupported s!"APK proof-of-rotation level {index} names unsupported next signature algorithm {hex parsed.nextSignatureAlgorithmId}")
  return {
    levels := acc.levels ++ [⟨parsed.certificateDer, x.sha256 parsed.certificateDer, parsed.flags,
      parsed.signedSignatureAlgorithmId, parsed.nextSignatureAlgorithmId⟩]
    previous := some (certificate, parsed.nextSignatureAlgorithmId) }

/-- `preflight_length_prefixed_count`. -/
def preflightLengthPrefixedCount (bytes : List Byte) (maximum : ℕ) (what : String) :
    Except Failure Unit :=
  readAll (items (.resource s!"{what} exceed the {maximum}-item limit")
    (fun _ => do let _ ← lengthPrefixed what; return ()) maximum ()) bytes

/-- `verify_proof_of_rotation`. -/
def verifyProofOfRotation (x : Certificates Cert) (limits : Limits) (bytes signerDer : List Byte) :
    Except Failure (List VerifiedLineageLevel) := do
  let levels ← readAll (do
    let version ← u32 "APK proof-of-rotation version"
    if version ≠ PROOF_OF_ROTATION_VERSION then
      throw (.invalid s!"APK proof-of-rotation version {version} is unsupported")
    let _ ← (preflightLengthPrefixedCount (← get) MAX_LINEAGE_LEVELS "APK proof-of-rotation levels" :
      Except Failure Unit)
    let acc ← items (.resource "APK proof-of-rotation exceeds the 64-level limit")
      (lineageLevel x limits) MAX_LINEAGE_LEVELS {}
    return acc.levels) bytes
  match levels.getLast? with
  | none => throw (.invalid "APK proof-of-rotation contains no certificate levels")
  | some last =>
    if last.certificateDer ≠ signerDer then
      throw (.mismatch
        "APK signer certificate differs from the terminal proof-of-rotation certificate")
    return levels

end LibarchiveOxide.Apk.Signing

/-! # APK signing schemes

`verify_signing_schemes`: the signers of the v3.1, v3 and v2 blocks, each block checked by itself, and
then the targeted rotation from v3 to v3.1. -/

namespace LibarchiveOxide.Apk.Schemes

open Core.Failure Core.Budget Lib Lib.LittleEndian Apk.Cursor Apk.Signing

/-- `SignerAttributes`. -/
structure SignerAttributes where
  lineage : Option (List VerifiedLineageLevel) := none
  rotationMinSdk : Option ℕ := none
  targetsDevRelease : Bool := false
deriving DecidableEq

/-- `SignerEvidence`. -/
structure SignerEvidence where
  fingerprint : List Byte
  sdkRange : Option (ℕ × ℕ)
  certificateDer : List Byte
  contentDigests : List (ContentDigestKind × List Byte)
  scheme : Scheme
  attributes : SignerAttributes
deriving DecidableEq

/-- The scheme values of the signing block (`ApkLayout::schemes`). -/
abbrev Present := List (ℕ × List Byte)

/-! ### Attributes -/

/-- The stripping protection of a v2 signer. -/
def strippingProtection (present : Present) (payload : List Byte) : Except Failure Unit :=
  if payload.length ≠ 4 then
    .error (.invalid "APK v2 stripping-protection attribute is not four bytes")
  else
    let referenced := leValue payload
    let isPresent := match referenced with
      | 2 => (SortedMap.find APK_V2_BLOCK_ID present).isSome
      | 3 => (SortedMap.find APK_V3_BLOCK_ID present).isSome
      | 31 => (SortedMap.find APK_V31_BLOCK_ID present).isSome
      | _ => true
    if isPresent then .ok ()
    else .error (.mismatch s!"APK v2 stripping protection references absent scheme v{referenced}")

/-- The smallest SDK of the rotation, as a v3 signer states it. -/
def rotationMinSdk (payload : List Byte) : Except Failure ℕ :=
  if payload.length ≠ 4 then
    .error (.invalid "APK v3 rotation-min-sdk attribute is not four bytes")
  else if i32Max < leValue payload then
    .error (.invalid
      s!"APK v3 rotation-min-sdk value {leValue payload} exceeds signed Android API values")
  else .ok (leValue payload)

variable {Cert : Type}

/-- What an attribute adds. -/
def applyAttribute (x : Certificates Cert) (limits : Limits) (scheme : Scheme) (present : Present)
    (signerDer : List Byte) (id : ℕ) (payload : List Byte) (result : SignerAttributes) :
    Except Failure SignerAttributes :=
  if scheme = .v2 then
    if id = V2_STRIPPING_PROTECTION_ATTR_ID then do
      strippingProtection present payload
      return result
    else .ok result
  else if id = V3_PROOF_OF_ROTATION_ATTR_ID then do
    let lineage ← verifyProofOfRotation x limits payload signerDer
    return { result with lineage := some lineage }
  else if id = V3_ROTATION_MIN_SDK_ATTR_ID then
    if scheme = .v3 then do
      let minimum ← rotationMinSdk payload
      return { result with rotationMinSdk := some minimum }
    else
      .error (.invalid "APK v3.1 signer carries the v3-only rotation-min-sdk attribute")
  else if id = V3_ROTATION_DEV_RELEASE_ATTR_ID then
    if payload ≠ [] then
      .error (.invalid "APK targeted-rotation dev-release attribute is not empty")
    else .ok { result with targetsDevRelease := true }
  else .ok result

/-- One attribute of the loop of `check_attributes`, with the ids seen so far. -/
def nextAttribute (x : Certificates Cert) (limits : Limits) (scheme : Scheme) (present : Present)
    (signerDer : List Byte) (acc : List ℕ × SignerAttributes) :
    CursorM (List ℕ × SignerAttributes) := do
  let bytes ← lengthPrefixed "APK signer attribute"
  let (id, payload) ← readAll (do
    let id ← u32 "APK signer attribute id"
    let payload ← take (← get).length "APK signer attribute value"
    return (id, payload)) bytes
  if acc.1.contains id then throw (.invalid s!"APK signer repeats attribute id {hex id}")
  let result ← (applyAttribute x limits scheme present signerDer id payload acc.2 :
    Except Failure SignerAttributes)
  return (acc.1 ++ [id], result)

/-- `check_attributes`. -/
def checkAttributes (x : Certificates Cert) (limits : Limits) (scheme : Scheme) (present : Present)
    (signerDer bytes : List Byte) : Except Failure SignerAttributes := do
  let acc ← readAll (items (.resource "APK signer exceeds the 64-attribute limit")
    (nextAttribute x limits scheme present signerDer) MAX_RECORDS ([], {})) bytes
  return acc.2

/-! ### Signers -/

/-- `parse_signed_data`. -/
def parseSignedData (scheme : Scheme) (signedData : List Byte) :
    Except Failure (List Record × List Byte × Option (ℕ × ℕ) × List Byte) := do
  let (digests, certificates, range, attributes) ← readAll (do
    let digests ← lengthPrefixed "APK signed digest sequence"
    let certificates ← lengthPrefixed "APK signer certificate sequence"
    let range ← sdkRange scheme "signed" "signed-data"
    let attributes ← lengthPrefixed "APK signer attributes"
    if scheme = .v2 ∧ (← get).length = 4 then
      let reserved ← u32 "APK v2 signed-data reserved field"
      if reserved ≠ 0 then throw (.invalid "APK v2 signed-data reserved field is nonzero")
    finish "APK signer signed-data"
    return (digests, certificates, range, attributes)) signedData
  return (← parseDigestRecords digests, certificates, range, attributes)

/-- The signatures that were selected, each checked over the signed data. -/
def checkSelected (x : Certificates Cert) (scheme : Scheme) (range : ℕ × ℕ) (certificate : Cert)
    (signedData : List Byte) : List Record → Except Failure Unit
  | [] => .ok ()
  | r :: records => do
    let a ← okOr (SignatureAlgorithm.fromId r.id)
      (.unsupported s!"APK signer selected unknown signature algorithm {hex r.id}")
    checkSignature x a certificate signedData r.bytes
      s!"APK {scheme.label} signature {hex r.id} over signed-data did not verify for the authenticated SDK range {range.1}..={range.2}"
    checkSelected x scheme range certificate signedData records

/-- `verify_signer`. -/
def verifySigner (x : Certificates Cert) (limits : Limits) (scheme : Scheme) (present : Present)
    (signer : List Byte) : Except Failure SignerEvidence := do
  let (signedData, outerSdk, signatures, publicKey) ← readAll (do
    let signedData ← lengthPrefixed "APK signer signed-data"
    let outerSdk ← sdkRange scheme "signer" "signer"
    let signatures ← lengthPrefixed "APK signer signatures"
    let publicKey ← lengthPrefixed "APK signer public key"
    finish "APK signer"
    return (signedData, outerSdk, signatures, publicKey)) signer
  let signatureRecords ← parseSignatureRecords signatures
  let (digestRecords, certificateValues, signedSdk, attributes) ← parseSignedData scheme signedData
  if outerSdk ≠ signedSdk then
    throw (.invalid "APK v3 signer SDK range differs between signer and signed-data")
  if signatureRecords.map (·.id) ≠ digestRecords.map (·.id) then
    throw (.invalid "APK signature and digest algorithm lists differ")
  let range := outerSdk.getD (ANDROID_N_API, i32Max)
  let selected ← selectSignatures signatureRecords range.1 range.2
  let kinds := (selected.filterMap fun r => SignatureAlgorithm.fromId r.id).map (·.contentDigest)
  let (certificate, certificateDer) ← parseFirstCertificate x limits certificateValues
  let canonical ← (x.publicKeyDer certificate).mapError fun e =>
    .invalid s!"cannot encode APK signer SPKI: {e}"
  if canonical ≠ publicKey then
    throw (.invalid "APK signer public key differs from the first certificate's SPKI")
  checkSelected x scheme range certificate signedData selected
  let attributes ← checkAttributes x limits scheme present certificateDer attributes
  let contentDigests ← collectContentDigests kinds digestRecords []
  return ⟨x.sha256 certificateDer, outerSdk, certificateDer, contentDigests, scheme, attributes⟩

/-! ### Ranges and lineages -/

/-- `effective_lineage`. -/
def effectiveLineage (s : SignerEvidence) : List (List Byte) :=
  match s.attributes.lineage with
  | none => [s.certificateDer]
  | some levels => levels.map (·.certificateDer)

/-- `validate_lineage_extension`. -/
def validateLineageExtension (previous current : SignerEvidence) : Except Failure Unit :=
  let p := effectiveLineage previous
  let c := effectiveLineage current
  if c.length < p.length ∨ !(p.zip c).all (fun pair => pair.1 == pair.2) then
    .error (.mismatch "APK targeted signers carry inconsistent proof-of-rotation lineages")
  else .ok ()

/-- The order of the ranges. -/
def RangeLe (a b : ℕ × ℕ) : Prop := a.1 < b.1 ∨ (a.1 = b.1 ∧ a.2 ≤ b.2)

instance : DecidableRel RangeLe := fun a b => by unfold RangeLe; infer_instance

/-- The range of a signer that has one. -/
def rangeOf (s : SignerEvidence) : ℕ × ℕ := s.sdkRange.getD (0, 0)

/-- The signers in the order of their ranges, `sort_by_key`. -/
def sorted (signers : List SignerEvidence) : List SignerEvidence :=
  signers.insertionSort fun a b => RangeLe (rangeOf a) (rangeOf b)

/-- The loop over the neighbours in `validate_v3_ranges`. -/
def validateNeighbours (scheme : Scheme) : List SignerEvidence → Except Failure Unit
  | previous :: current :: rest => do
    let p := rangeOf previous
    let c := rangeOf current
    let contiguous := p.2 + 1 = c.1
    let developmentOverlap := current.attributes.targetsDevRelease = true ∧ p.2 = c.1
    if ¬ contiguous ∧ ¬ developmentOverlap then
      throw (.invalid s!"APK {scheme.label} signer SDK ranges overlap or leave a hole: {p.1}..={p.2} then {c.1}..={c.2}")
    validateLineageExtension previous current
    validateNeighbours scheme (current :: rest)
  | _ => .ok ()

/-- `validate_v3_ranges`. -/
def validateV3Ranges (scheme : Scheme) (evidence : List SignerEvidence) : Except Failure Unit :=
  validateNeighbours scheme (sorted (evidence.filter (·.sdkRange.isSome)))

/-- `verify_scheme`. -/
def verifyScheme (x : Certificates Cert) (limits : Limits) (scheme : Scheme) (present : Present)
    (value : List Byte) : Except Failure (List SignerEvidence) := do
  let signers ← readAll (do
    let signers ← lengthPrefixed s!"APK {scheme.label} signers"
    finish s!"APK {scheme.label} scheme value"
    return signers) value
  if signers = [] then throw (.invalid s!"APK {scheme.label} scheme has no signers")
  let evidence ← readAll (items
    (.resource s!"APK {scheme.label} scheme exceeds the {MAX_SIGNERS}-signer limit")
    (fun evidence => do
      let signer ← lengthPrefixed s!"APK {scheme.label} signer {evidence.length}"
      let e ← (verifySigner x limits scheme present signer : Except Failure SignerEvidence)
      return evidence ++ [e]) MAX_SIGNERS ([] : List SignerEvidence)) signers
  if scheme.hasSdkRange then validateV3Ranges scheme evidence
  return evidence

/-- `verify_optional_scheme`. -/
def verifyOptionalScheme (x : Certificates Cert) (limits : Limits) (id : ℕ) (scheme : Scheme)
    (present : Present) : Except Failure (List SignerEvidence) :=
  match SortedMap.find id present with
  | none => .ok []
  | some value => verifyScheme x limits scheme present value

/-- Where the v3.1 block begins: the smallest minimum, and the checks of its first signer. -/
def rotationStart (first : SignerEvidence) : Except Failure ℕ := do
  let range ← okOr first.sdkRange (.invalid "APK v3.1 signer omits its SDK range")
  if range.1 < 33 ∧ ¬ (first.attributes.targetsDevRelease = true ∧ 33 ≤ range.1 + 1) then
    throw (.invalid
      s!"APK v3.1 signer targets SDK {range.1} without the dev-release marker")
  return range.1

/-- The boundary between the last v3 signer and the first v3.1 signer. -/
def validateBoundary (last first : SignerEvidence) (start : ℕ) : Except Failure Unit := do
  let range ← okOr last.sdkRange (.invalid "APK v3 signer omits its SDK range")
  let boundaryMatches :=
    if first.attributes.targetsDevRelease then range.2 = start else range.2 + 1 = start
  if ¬ boundaryMatches then
    throw (.mismatch s!"APK v3/v3.1 targeted-rotation SDK boundary is inconsistent: v3 ends at {range.2}, v3.1 starts at {start}")
  validateLineageExtension last first
  if (effectiveLineage first).length < 2 then
    throw (.mismatch "APK v3.1 targeted signer has no verifiable certificate rotation")

/-- `validate_targeted_rotation`. -/
def validateTargetedRotation (v3 v31 : List SignerEvidence) : Except Failure Unit :=
  if v31 = [] then
    if v3.any (·.attributes.rotationMinSdk.isSome) then
      .error (.mismatch
        "APK v3 rotation-min-sdk stripping protection references an absent v3.1 block")
    else .ok ()
  else if v3 = [] then
    .error (.mismatch "APK v3.1 block is present without the required v3 block")
  else do
    let first ← okOr (sorted v31).head? (.invalid "APK v3.1 block contains no targeted signer")
    let start ← rotationStart first
    if ¬ v3.all (fun s => s.attributes.rotationMinSdk = some start) then
      throw (.mismatch
        s!"APK v3 rotation-min-sdk stripping protection does not match v3.1 minimum SDK {start}")
    let last ← okOr (sorted v3).getLast? (.invalid "APK v3 block contains no targeted signer")
    validateBoundary last first start

/-- `verify_signing_schemes`. -/
def verifySigningSchemes (x : Certificates Cert) (limits : Limits) (schemes : Present) :
    Except Failure (List SignerEvidence × List SignerEvidence × List SignerEvidence) := do
  let v31 ← verifyOptionalScheme x limits APK_V31_BLOCK_ID .v31 schemes
  let v3 ← verifyOptionalScheme x limits APK_V3_BLOCK_ID .v3 schemes
  let v2 ← verifyOptionalScheme x limits APK_V2_BLOCK_ID .v2 schemes
  if v2 = [] ∧ v3 = [] ∧ v31 = [] then
    throw (.unsupported
      "APK Signing Block contains no supported Signature Scheme v2 or v3 value")
  validateTargetedRotation v3 v31
  return (v2, v3, v31)

end LibarchiveOxide.Apk.Schemes
