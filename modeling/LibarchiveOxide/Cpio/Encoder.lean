import LibarchiveOxide.Core.Encode
import LibarchiveOxide.Cpio.Decoder
import LibarchiveOxide.Lib.Radix

/-! # The cpio encoder

Five dialects of the header, each of which rejects the numbers that do not fit its fields. A hardlink
is written as an empty file with the device, the inode and the link count of its target. -/

namespace LibarchiveOxide.Cpio.Encoder

open Core.Failure Core.Budget Core.Metadata Core.Protocol Core.Encode Cpio.Header Cpio.Decoder
open Lib.Radix

/-- Output dialect selected for a cpio encoder. -/
inductive CpioDialect where
  | newc
  | crc
  | odc
  | binaryLittleEndian
  | binaryBigEndian
deriving DecidableEq

/-- `mode_bits`. -/
def modeBits : EntryKind → ℕ
  | .dir => sIfdir
  | .symlink => sIflnk
  | .char => sIfchr
  | .block => sIfblk
  | .fifo => sIfifo
  | .socket => sIfsock
  | .file | .hardlink => sIfreg

/-! ### Numbers -/

/-- A digit in upper case. -/
def hexDigit (d : ℕ) : Byte :=
  if d < 10 then chr '0' + UInt8.ofNat d else chr 'A' + UInt8.ofNat (d - 10)

/-- `put_hex8`. -/
def putHex8 (val : ℕ) : List Byte := (digitsBE 16 8 val).map hexDigit

/-- `put_octal`: the digits written, and whether nothing is left of the number. -/
def putOctal (width val : ℕ) : List Byte × Bool :=
  ((digitsBE 8 width val).map fun d => chr '0' + UInt8.ofNat d, decide (val / 8 ^ width = 0))

/-- A number that fits in some bits. -/
def cpioBits (bits val : ℕ) (context : String) : Except ArchiveError ℕ :=
  if val < 2 ^ bits then .ok val else .error (cpioError .unsupported context)

/-- `cpio_u32`. -/
def cpioU32 : ℕ → String → Except ArchiveError ℕ := cpioBits 32

/-- `cpio_u16`. -/
def cpioU16 : ℕ → String → Except ArchiveError ℕ := cpioBits 16

/-- `write_binary_word`. -/
def writeBinaryWord (little : Bool) (val : ℕ) : List Byte :=
  if little then [UInt8.ofNat (val % 256), UInt8.ofNat (val / 256)]
  else [UInt8.ofNat (val / 256), UInt8.ofNat (val % 256)]

/-! ### Headers -/

/-- The values that a header is written from. -/
structure HeaderValues where
  size : UInt64
  namesize : ℕ
  mode : ℕ
  uid : UInt64
  gid : UInt64
  links : UInt64
  mtime : ℕ
  device : Device
  referenced : Device
  inode : UInt64
  checksum : Option UInt32
deriving DecidableEq

/-- The checksum of a header in the `crc` dialect. -/
def declaredChecksum (size : UInt64) (checksum : Option Checksum) : Except ArchiveError UInt32 :=
  let missing := cpioError .unsupported
    "crc output requires a four-byte big-endian payload byte sum"
  match checksum with
  | some c =>
    if c.algorithm = .cpioSum32 then
      okOr (ofBeBytes32 c.value) (cpioError .protocol "CRC checksum conversion failed")
    else .error missing
  | none => if size = 0 then .ok 0 else .error missing

/-- The values of the header of an entry, or of the trailer, which has no metadata. -/
def valuesOf (nextInode : UInt32) (namesize : ℕ) (m : Option EntryMetadata)
    (checksum : Option UInt32) : HeaderValues where
  size := (m.bind (·.size)).getD 0
  namesize := namesize
  mode := (m.map fun m =>
    modeBits m.kind ||| (m.mode.getD (defaultMode m.kind) &&& 0o7777).toNat).getD 0
  uid := (m.bind (·.owner.uid)).getD 0
  gid := (m.bind (·.owner.gid)).getD 0
  links := (m.bind (·.links)).getD 1
  mtime := ((m.bind (·.times.modified)).map (·.secs.toInt.toNat)).getD 0
  device := (m.bind (·.device)).getD {}
  referenced := (m.bind (·.referencedDevice)).getD {}
  inode := (m.bind (·.inode)).getD nextInode.toUInt64
  checksum := checksum

/-- These values, where the size of the name and the checksum can be told. -/
def headerValues (dialect : CpioDialect) (nextInode : UInt32) (name : List Byte)
    (m : Option EntryMetadata) : Except ArchiveError HeaderValues := do
  let namesize ← okOr (checkedAdd name.length 1) (cpioError .limit "pathname size overflow")
  if dialect = .crc then
    let checksum ← declaredChecksum ((m.bind (·.size)).getD 0) (m.bind (·.checksum))
    return valuesOf nextInode namesize m (some checksum)
  else return valuesOf nextInode namesize m none

/-- The 32-bit fields of a `newc` header, in their order. -/
def newcValues (v : HeaderValues) : List (ℕ × String) :=
  [(v.inode.toNat, "newc inode exceeds 32-bit field"),
    (v.mode, "newc mode exceeds 32-bit field"),
    (v.uid.toNat, "newc uid exceeds 32-bit field"),
    (v.gid.toNat, "newc gid exceeds 32-bit field"),
    (v.links.toNat, "newc nlink exceeds 32-bit field"),
    (v.mtime, "newc mtime exceeds 32-bit field"),
    (v.size.toNat, "newc entry size exceeds 32-bit field"),
    (v.device.major.toNat, "newc device major exceeds 32-bit field"),
    (v.device.minor.toNat, "newc device minor exceeds 32-bit field"),
    (v.referenced.major.toNat, "newc referenced device major exceeds 32-bit field"),
    (v.referenced.minor.toNat, "newc referenced device minor exceeds 32-bit field"),
    (v.namesize, "newc pathname exceeds 32-bit field")]

def newcOut (magic : List Byte) (v : HeaderValues) : Except ArchiveError (List Byte) := do
  let fields ← (newcValues v).mapM fun f => cpioU32 f.1 f.2
  return magic ++ (fields ++ [(v.checksum.getD 0).toNat]).flatMap putHex8

/-- The fields of an `odc` header, in their order, with their widths. -/
def odcValues (v : HeaderValues) : List (ℕ × ℕ) :=
  [(6, v.device.minor.toNat), (6, v.inode.toNat), (6, v.mode), (6, v.uid.toNat), (6, v.gid.toNat),
    (6, v.links.toNat), (6, v.referenced.minor.toNat), (11, v.mtime), (6, v.namesize),
    (11, v.size.toNat)]

/-- The loop over these fields. The fields behind one that does not fit stay zero. -/
def putOctals : List (ℕ × ℕ) → List Byte × Bool
  | [] => ([], true)
  | f :: rest =>
    let (digits, fits) := putOctal f.1 f.2
    if fits then
      let (out, ok) := putOctals rest
      (digits ++ out, ok)
    else (digits ++ List.replicate (rest.map Prod.fst).sum (chr '0'), false)

def binaryOut (little : Bool) (v : HeaderValues) : Except ArchiveError (List Byte) := do
  if v.device.major ≠ 0 ∨ v.referenced.major ≠ 0 then
    throw (cpioError .unsupported "binary cpio cannot preserve split device major numbers")
  let mtime ← cpioU32 v.mtime "binary cpio mtime exceeds 32 bits"
  let size ← cpioU32 v.size.toNat "binary cpio size exceeds 32 bits"
  let device ← cpioU16 v.device.minor.toNat "binary cpio device exceeds 16 bits"
  let inode ← cpioU16 v.inode.toNat "binary cpio inode exceeds 16 bits"
  let mode ← cpioU16 v.mode "binary cpio mode exceeds 16 bits"
  let uid ← cpioU16 v.uid.toNat "binary cpio uid exceeds 16 bits"
  let gid ← cpioU16 v.gid.toNat "binary cpio gid exceeds 16 bits"
  let links ← cpioU16 v.links.toNat "binary cpio nlink exceeds 16 bits"
  let referenced ← cpioU16 v.referenced.minor.toNat "binary cpio referenced device exceeds 16 bits"
  let namesize ← cpioU16 v.namesize "binary cpio pathname exceeds 16 bits"
  return [0o070707, device, inode, mode, uid, gid, links, referenced, mtime / 65536, mtime % 65536,
    namesize, size / 65536, size % 65536].flatMap (writeBinaryWord little)

/-- The fixed part of a header: the bytes that are staged, which stay there on a failure. Only the
`odc` dialect fails with some of them staged. -/
def writeHeader (dialect : CpioDialect) (v : HeaderValues) : List Byte × Except ArchiveError Unit :=
  let checked (r : Except ArchiveError (List Byte)) : List Byte × Except ArchiveError Unit :=
    match r with
    | .ok bytes => (bytes, .ok ())
    | .error e => ([], .error e)
  match dialect with
  | .newc => checked (newcOut newcMagic v)
  | .crc => checked (newcOut newcCrcMagic v)
  | .odc =>
    if v.device.major ≠ 0 ∨ v.referenced.major ≠ 0 then
      ([], .error (cpioError .unsupported "odc cannot preserve split device major numbers"))
    else
      let (out, fits) := putOctals (odcValues v)
      (odcMagic ++ out,
        if fits then .ok ()
        else .error (cpioError .unsupported "odc numeric value exceeds its field"))
  | .binaryLittleEndian => checked (binaryOut true v)
  | .binaryBigEndian => checked (binaryOut false v)

/-- The alignment of headers and payloads. -/
def alignmentOf : CpioDialect → ℕ
  | .newc | .crc => 4
  | .odc => 1
  | .binaryLittleEndian | .binaryBigEndian => 2

/-! ### The encoder -/

/-- Identity shared by the records in one cpio hardlink group. -/
structure LinkIdentity where
  inode : UInt64
  links : UInt64
  device : Device
deriving DecidableEq

/-- What is kept of a staged header. -/
structure StagedHeader where
  size : UInt64
  identity : LinkIdentity
  alignment : ℕ
  checksum : Option UInt32
deriving DecidableEq

/-- The encoder. The last binding of a path in `linkTargets` is its first one. -/
structure CpioEncoder where
  limits : Limits
  dialect : CpioDialect
  pending : List Byte := []
  pendingPos : ℕ := 0
  inode : UInt32 := 0
  isOpen : Bool := false
  entrySize : UInt64 := 0
  entryAlignment : ℕ := 4
  remaining : ℕ := 0
  expectedChecksum : Option UInt32 := none
  checksumActual : UInt32 := 0
  finishing : Bool := false
  done : Bool := false
  entries : ℕ := 0
  linkTargets : List (List Byte × LinkIdentity) := []
deriving DecidableEq

namespace CpioEncoder

/-- `CpioEncoder::with_dialect`. -/
def withDialect (limits : Limits) (dialect : CpioDialect) : CpioEncoder := { limits, dialect }

/-- `drain_pending`. -/
def drainPending (e : CpioEncoder) (outputLen : ℕ) : List Byte × CpioEncoder :=
  let (out, pending, pendingPos) := drain e.pending e.pendingPos outputLen
  (out, { e with pending, pendingPos })

/-- A command answered out of the staging buffer. -/
def drained (e : CpioEncoder) (consumed outputLen : ℕ) :
    CpioEncoder × Except ArchiveError EncodeStep :=
  let (produced, e) := e.drainPending outputLen
  (e, .ok ⟨consumed, produced, if e.pending.isEmpty then .needCommand else .needOutput⟩)

/-- `stage_header`, on an empty staging buffer. -/
def stageHeader (e : CpioEncoder) (name : List Byte) (m : Option EntryMetadata) :
    CpioEncoder × Except ArchiveError StagedHeader :=
  match headerValues e.dialect e.inode name m with
  | .error err => (e, .error err)
  | .ok v =>
    match writeHeader e.dialect v with
    | (pending, .error err) => ({ e with pending }, .error err)
    | (fixed, .ok ()) =>
      let pending := fixed ++ name ++ [0]
      match aligned pending.length (alignmentOf e.dialect) with
      | none => ({ e with pending }, .error (cpioError .limit "header size overflow"))
      | some len =>
        ({ e with
          pending := pending ++ List.replicate (len - pending.length) 0
          inode := e.inode + 1 },
          .ok ⟨v.size, ⟨v.inode, v.links, v.device⟩, alignmentOf e.dialect, v.checksum⟩)

/-- The metadata that a hardlink is written with. -/
def linkMetadata (m : EntryMetadata) (identity : LinkIdentity) : EntryMetadata :=
  { m with
    kind := .file, size := some 0, inode := some identity.inode, links := some identity.links
    device := some identity.device }

/-- The metadata that an entry is written with. -/
def effective (e : CpioEncoder) (m : EntryMetadata) (size : UInt64) :
    Except ArchiveError EntryMetadata :=
  if m.kind = .hardlink then do
    if size ≠ 0 then throw (cpioError .protocol "cpio hardlink entries must have zero size")
    let target ← okOr m.linkTarget (cpioError .protocol "cpio hardlink is missing its target")
    let identity ← okOr (e.linkTargets.lookup target.raw)
      (cpioError .protocol "cpio hardlink target must precede the link entry")
    if identity.links ≤ 1 then
      throw (cpioError .protocol "cpio hardlink target must declare nlink greater than one")
    return linkMetadata m identity
  else .ok m

/-- The checks of `BeginEntry`: the number of entries with the new one, and the metadata that it is
written with. -/
def beginChecks (e : CpioEncoder) (m : EntryMetadata) : Except ArchiveError (ℕ × EntryMetadata) := do
  if e.isOpen then throw (cpioError .protocol "previous entry is still open")
  let size ← okOr m.size (cpioError .sizeRequired "cpio requires a declared entry size")
  if exceeds m.path.raw.length e.limits.pathBytes || exceeds size.toNat e.limits.entryBytes then
    throw (cpioError .limit "entry exceeds configured limits")
  let nextEntries ← okOr (checkedAdd e.entries 1) (cpioError .limit "entry count overflow")
  if exceeds nextEntries e.limits.entries then
    throw (cpioError .limit "entry count exceeds configured limit")
  return (nextEntries, ← e.effective m size)

/-- The encoder with an entry open. -/
def opened (e : CpioEncoder) (entries : ℕ) (m : EntryMetadata) (staged : StagedHeader) :
    CpioEncoder :=
  { e with
    linkTargets := if m.kind = .file ∧ 1 < staged.identity.links then
      (m.path.raw, staged.identity) :: e.linkTargets else e.linkTargets
    entries
    entrySize := staged.size
    entryAlignment := staged.alignment
    remaining := staged.size.toNat
    expectedChecksum := staged.checksum
    checksumActual := 0
    isOpen := true }

/-- `BeginEntry`. -/
def beginEntry (e : CpioEncoder) (m : EntryMetadata) (outputLen : ℕ) :
    CpioEncoder × Except ArchiveError EncodeStep :=
  match e.beginChecks m with
  | .error err => (e, .error err)
  | .ok (nextEntries, m) =>
    match e.stageHeader m.path.raw (some m) with
    | (e, .error err) => (e, .error err)
    | (e, .ok staged) => (e.opened nextEntries m staged).drained 1 outputLen

/-- `Data`. -/
def data (e : CpioEncoder) (input : List Byte) (outputLen : ℕ) :
    CpioEncoder × Except ArchiveError EncodeStep :=
  if !e.isOpen then (e, .error (cpioError .protocol "entry data supplied without an open entry"))
  else if e.remaining < input.length then
    (e, .error (cpioError .protocol "entry data exceeds declared size"))
  else
    let count := min input.length outputLen
    ({ e with
      checksumActual := CpioDecoder.byteSum e.checksumActual (input.take count)
      remaining := e.remaining - count },
      .ok ⟨count, input.take count, if count = input.length then .needCommand else .needOutput⟩)

/-- The bytes between the payload and the next header. -/
def endPadding (e : CpioEncoder) : ℕ :=
  let remainder := e.entrySize.toNat % e.entryAlignment
  if remainder = 0 then 0 else e.entryAlignment - remainder

/-- `EndEntry`. The staging buffer is empty here, so resizing it leaves the padding only. A `u64` fits
in a `usize`. -/
def endEntry (e : CpioEncoder) (outputLen : ℕ) : CpioEncoder × Except ArchiveError EncodeStep :=
  if !e.isOpen || e.remaining != 0 then
    (e, .error (cpioError .protocol "entry ended before its declared size"))
  else if e.expectedChecksum.any (· ≠ e.checksumActual) then
    (e, .error (cpioError .integrity "written payload does not match declared crc byte sum"))
  else
    ({ e with pending := List.replicate e.endPadding 0, isOpen := false } :
      CpioEncoder).drained 1 outputLen

/-- `Finish`. -/
def finish (e : CpioEncoder) (outputLen : ℕ) : CpioEncoder × Except ArchiveError EncodeStep :=
  if e.isOpen then (e, .error (cpioError .protocol "cannot finish with an open entry"))
  else
    match e.stageHeader trailerName none with
    | (e, .error err) => (e, .error err)
    | (e, .ok _) =>
      let (produced, e) := ({ e with finishing := true } : CpioEncoder).drainPending outputLen
      let e := if e.pending.isEmpty then { e with done := true } else e
      (e, .ok ⟨1, produced, if e.done then .done else .needOutput⟩)

/-- Staged bytes go first, and those of the trailer go last. -/
def flush (e : CpioEncoder) (outputLen : ℕ) : CpioEncoder × Except ArchiveError EncodeStep :=
  let (produced, e) := e.drainPending outputLen
  if e.pending.isEmpty && e.finishing then ({ e with done := true }, .ok ⟨0, produced, .done⟩)
  else (e, .ok ⟨0, produced, if e.pending.isEmpty then .needCommand else .needOutput⟩)

/-- `CpioEncoder::step`. -/
def step (e : CpioEncoder) (command : EncodeCommand) (outputLen : ℕ) :
    CpioEncoder × Except ArchiveError EncodeStep :=
  if e.done then
    match command with
    | .finish => (e, .ok ⟨0, [], .done⟩)
    | _ => (e, .error (cpioError .protocol "command supplied after finish"))
  else if !e.pending.isEmpty then e.flush outputLen
  else
    match command with
    | .beginEntry m => e.beginEntry m outputLen
    | .data input => e.data input outputLen
    | .endEntry => e.endEntry outputLen
    | .finish => e.finish outputLen

end CpioEncoder

end LibarchiveOxide.Cpio.Encoder
