import LibarchiveOxide.Core.Metadata
import LibarchiveOxide.Lib.Pieces
import LibarchiveOxide.Stream.Event

/-! # Destinations

A relative host path is the list of its components. `sanitize` turns an archive path into one, and a
`DestinationKey` is a path all of whose components are normal, with the identity by which the host
resolves it. `DestinationClaims` is the topology the planners keep: the destinations in use, the
directories their ancestors imply and the destinations that are no directories. -/

namespace LibarchiveOxide.Extract.Path

open Core.Failure Core.Metadata Lib.Pieces

/-! ### Hosts -/

/-- One component of a host path. -/
abbrev Component := List Byte

/-- What the host's conventions decide: which bytes separate components, which byte strings are text,
by which name a component is resolved (none if it is not allowed) and whether special files can be
restored. A Windows host separates at both slashes, wants UTF-8 and resolves a component by
`windows_component_identity`. -/
structure Host where
  isSeparator : Byte → Bool
  isText : List Byte → Bool
  identity : Component → Option Component
  restoresSpecial : Bool

/-- A Unix host. -/
def Host.unix (restoresSpecial : Bool) : Host where
  isSeparator b := b == chr '/'
  isText _ := true
  identity := some
  restoresSpecial := restoresSpecial

def dot : Component := bstr "."
def dotDot : Component := bstr ".."

/-! ### Sanitizing -/

/-- The loop of `sanitize` over the components. -/
def collect (host : Host) : List Component → Option (List Component)
  | [] => some []
  | c :: rest =>
    if c = [] ∨ c = dot then collect host rest
    else if c = dotDot then none
    else if (host.identity c).isNone then none
    else (collect host rest).map (c :: ·)

/-- `sanitize` (and `sanitize_text`). -/
def sanitize (host : Host) (raw : List Byte) : Option (List Component) :=
  if raw.head?.any host.isSeparator || raw.contains 0 || !host.isText raw then none
  else (collect host (pieces host.isSeparator raw)).filter (· ≠ [])

/-- The UTF-8 bytes of a code point. -/
def utf8Bytes (c : ℕ) : List Byte :=
  if c < 0x80 then [UInt8.ofNat c]
  else if c < 0x800 then [UInt8.ofNat (0xC0 + c / 64), UInt8.ofNat (0x80 + c % 64)]
  else if c < 0x10000 then
    [UInt8.ofNat (0xE0 + c / 4096), UInt8.ofNat (0x80 + c / 64 % 64), UInt8.ofNat (0x80 + c % 64)]
  else
    [UInt8.ofNat (0xF0 + c / 262144), UInt8.ofNat (0x80 + c / 4096 % 64),
      UInt8.ofNat (0x80 + c / 64 % 64), UInt8.ofNat (0x80 + c % 64)]

/-- `String::from_utf16`, as UTF-8. -/
def fromUtf16 : List UInt16 → Option (List Byte)
  | [] => some []
  | u :: rest =>
    if 0xD800 ≤ u && u ≤ 0xDBFF then
      match rest with
      | v :: rest' =>
        if 0xDC00 ≤ v && v ≤ 0xDFFF then
          (fromUtf16 rest').map
            (utf8Bytes (0x10000 + (u.toNat - 0xD800) * 1024 + (v.toNat - 0xDC00)) ++ ·)
        else none
      | [] => none
    else if 0xDC00 ≤ u && u ≤ 0xDFFF then none
    else (fromUtf16 rest).map (utf8Bytes u.toNat ++ ·)

/-- `sanitize_archive_path`. -/
def sanitizeArchivePath (host : Host) (path : ArchivePath) : Option (List Component) :=
  match path.encoding with
  | .bytes | .utf8 => sanitize host path.raw
  | .utf16Le => (utf16Units path.raw).bind fromUtf16 |>.bind (sanitize host)

/-! ### Destination keys -/

/-- A normal component: neither empty nor a dot component, and without separators. -/
def Normal (host : Host) (c : Component) : Prop :=
  c ≠ [] ∧ c ≠ dot ∧ c ≠ dotDot ∧ ∀ b ∈ c, host.isSeparator b = false

instance (host : Host) (c : Component) : Decidable (Normal host c) := by
  unfold Normal
  have := List.decidableBAll (fun b => host.isSeparator b = false) c
  infer_instance

/-- A validated relative destination and the names by which the host resolves it. -/
structure DestinationKey (host : Host) where
  path : List Component
  identity : List Component
  path_ne : path ≠ []
  normal : ∀ c ∈ path, Normal host c
  identity_eq : path.mapM host.identity = some identity

namespace DestinationKey

variable {host : Host}

/-- `from_relative_path`. -/
def fromRelativePath (host : Host) (path : List Component) : Option (DestinationKey host) :=
  if h : path ≠ [] ∧ ∀ c ∈ path, Normal host c then
    match hi : path.mapM host.identity with
    | some identity => some ⟨path, identity, h.1, h.2, hi⟩
    | none => none
  else none

/-- `from_archive_path`. -/
def fromArchivePath (host : Host) (path : ArchivePath) : Option (DestinationKey host) :=
  (sanitizeArchivePath host path).bind (fromRelativePath host)

/-- The proper ancestors of a path but the root, the longest first. -/
def properAncestors (path : List Component) : List (List Component) :=
  (path.inits.filter fun q => q ≠ path && q ≠ []).reverse

/-- `ancestors`. -/
def ancestors (key : DestinationKey host) : List (DestinationKey host) :=
  (properAncestors key.path).filterMap (fromRelativePath host)

end DestinationKey

/-! ### Sets of keys -/

section
variable {host : Host}

/-- `BTreeSet::contains`: keys are compared by their identity. -/
def contains (s : List (DestinationKey host)) (k : DestinationKey host) : Bool :=
  s.any fun x => x.identity == k.identity

/-- `BTreeSet::get`: the stored key of the same identity. -/
def get (s : List (DestinationKey host)) (k : DestinationKey host) : Option (DestinationKey host) :=
  s.find? fun x => x.identity == k.identity

/-- `BTreeSet::insert`. -/
def insert (s : List (DestinationKey host)) (k : DestinationKey host) : List (DestinationKey host) :=
  if contains s k then s else k :: s

end

/-! ### Claims -/

/-- The destination topology of a plan. -/
structure DestinationClaims (host : Host) where
  claimed : List (DestinationKey host) := []
  directoryPrefixes : List (DestinationKey host) := []
  nonDirectories : List (DestinationKey host) := []

/-- `DestinationClaims::claim`; none is the refusal. -/
def DestinationClaims.claim {host : Host} (c : DestinationClaims host)
    (destination : DestinationKey host) (kind : EntryKind) : Option (DestinationClaims host) :=
  let ancestors := destination.ancestors
  if contains c.claimed destination || ancestors.any (contains c.nonDirectories ·) ||
      (kind != .dir && contains c.directoryPrefixes destination) then none
  else some {
    claimed := insert c.claimed destination
    directoryPrefixes := ancestors.foldl insert c.directoryPrefixes
    nonDirectories := if kind != .dir then insert c.nonDirectories destination
      else c.nonDirectories }

end LibarchiveOxide.Extract.Path

/-! # The extraction plan of a session

`planEntry` decides about one entry: it may claim the destination and commit it as a file that later
hard links can name. `plan` makes the decisions in archive order. -/

namespace LibarchiveOxide.Extract.Plan

open Core.Failure Core.Metadata Extract.Path

/-- The extraction policy. -/
structure Policy where
  overwrite : Bool := false
  symlinks : Bool := false
  hardlinks : Bool := false
  specialFiles : Bool := false
deriving DecidableEq

/-- Why an entry is not materialized. -/
inductive RejectionReason where
  | unsafePath
  | destinationCollision
  | destinationExists
  | entryKind
  | unsafeLinkTarget
  | externalReference
  | unsupportedRestore
  | filesystemError
deriving DecidableEq

/-- The planned handling of an entry. -/
inductive PlanDisposition where
  | materialize
  | skip
  | reject (reason : RejectionReason)
deriving DecidableEq

/-- An entry of the plan. -/
structure PlannedEntry (host : Host) where
  metadata : EntryMetadata
  disposition : PlanDisposition
  destination : Option (DestinationKey host)
  linkTarget : Option (DestinationKey host)

/-- The entry refers to data outside the archive. -/
def isExternalReference (m : EntryMetadata) : Bool :=
  m.extensions.any fun e => e.namespace_ == "ar-thin" && e.key == bstr "external-reference"

/-- The root of the archive, which exists implicitly. -/
def isArchiveRoot (m : EntryMetadata) : Bool :=
  m.kind == .dir && (m.path.raw == bstr "." || m.path.raw == bstr "./")

/-- The destinations in use and the files that can be linked to. -/
structure Planning (host : Host) where
  claimed : DestinationClaims host := {}
  committed : List (DestinationKey host) := []

section
variable {host : Host}

/-- The decision about an entry whose destination is claimed: its handling, its link target and
whether it is committed as a file. -/
def decideKind (policy : Policy) (committed : List (DestinationKey host)) (m : EntryMetadata) :
    PlanDisposition × Option (DestinationKey host) × Bool :=
  match m.kind with
  | .file => (.materialize, none, true)
  | .dir => (.materialize, none, false)
  | .symlink =>
    if policy.symlinks then
      match m.linkTarget.bind (DestinationKey.fromArchivePath host) with
      | some target => (.materialize, some target, false)
      | none => (.reject .unsafeLinkTarget, none, false)
    else (.reject .entryKind, none, false)
  | .hardlink =>
    if policy.hardlinks then
      match m.linkTarget.bind (DestinationKey.fromArchivePath host) with
      | none => (.reject .unsafeLinkTarget, none, false)
      | some target =>
        match get committed target with
        | some committedTarget => (.materialize, some committedTarget, true)
        | none => (.reject .unsafeLinkTarget, none, false)
    else (.reject .entryKind, none, false)
  | .char | .block | .fifo | .socket =>
    if policy.specialFiles then
      if host.restoresSpecial then (.materialize, none, false)
      else (.reject .unsupportedRestore, none, false)
    else (.reject .entryKind, none, false)

/-- `plan_entry`. -/
def planEntry (policy : Policy) (s : Planning host) (m : EntryMetadata) :
    PlannedEntry host × Planning host :=
  if isExternalReference m then (⟨m, .reject .externalReference, none, none⟩, s)
  else if isArchiveRoot m then (⟨m, .skip, none, none⟩, s)
  else match DestinationKey.fromArchivePath host m.path with
    | none => (⟨m, .reject .unsafePath, none, none⟩, s)
    | some destination =>
      match s.claimed.claim destination m.kind with
      | none => (⟨m, .reject .destinationCollision, some destination, none⟩, s)
      | some claimed =>
        let (disposition, linkTarget, commits) := decideKind policy s.committed m
        (⟨m, disposition, some destination, linkTarget⟩,
          ⟨claimed, if commits then insert s.committed destination else s.committed⟩)

/-- The decisions about some entries in archive order. -/
def planFrom (policy : Policy) (s : Planning host) : List EntryMetadata → List (PlannedEntry host)
  | [] => []
  | m :: rest => (planEntry policy s m).1 :: planFrom policy (planEntry policy s m).2 rest

/-- `ArchiveSession::plan`. -/
def plan (host : Host) (policy : Policy) (entries : List EntryMetadata) :
    List (PlannedEntry host) :=
  planFrom policy {} entries

end

end LibarchiveOxide.Extract.Plan

/-! # Filesystem adapters

An adapter answers each call depending on the calls made before, which is all it can depend on. The
drivers therefore carry the list of calls made so far. -/

namespace LibarchiveOxide.Extract.Filesystem

open Core.Failure Core.Metadata Extract.Path Stream.Event

/-- The operations whose outcome is tracked. -/
inductive FilesystemOperation where
  | entry
  | atomicCommit
  | mode
  | ownership
  | accessTime
  | modificationTime
  | changeTime
  | creationTime
  | sparse
  | extendedAttribute (name : List Byte)
  | acl (index : ℕ)
  | fileFlags
  | removePath
  | clearDirectory
deriving DecidableEq

/-- The outcome of an operation. -/
inductive FilesystemFindingKind where
  | applied
  | unsupported
  | refused
  | partly
  | osError
deriving DecidableEq

/-- Evidence for one operation. -/
structure FilesystemFinding where
  path : ArchivePath
  operation : FilesystemOperation
  kind : FilesystemFindingKind
  detail : String
deriving DecidableEq

/-- `FilesystemFinding::applied`. -/
def FilesystemFinding.applied (path : ArchivePath) (operation : FilesystemOperation) :
    FilesystemFinding := ⟨path, operation, .applied, "filesystem operation applied"⟩

/-- What an adapter can restore. -/
structure FilesystemCapabilities where
  atomicCommit : Bool := false
  mode : Bool := false
  ownership : Bool := false
  accessTime : Bool := false
  modificationTime : Bool := false
  changeTime : Bool := false
  creationTime : Bool := false
  symlinks : Bool := false
  hardlinks : Bool := false
  xattrs : Bool := false
  acls : Bool := false
  sparse : Bool := false
  specialFiles : Bool := false
  fileFlags : Bool := false
  removals : Bool := false
deriving DecidableEq

/-- `supports`. -/
def FilesystemCapabilities.supports (c : FilesystemCapabilities) : FilesystemOperation → Bool
  | .entry => true
  | .atomicCommit => c.atomicCommit
  | .mode => c.mode
  | .ownership => c.ownership
  | .accessTime => c.accessTime
  | .modificationTime => c.modificationTime
  | .changeTime => c.changeTime
  | .creationTime => c.creationTime
  | .sparse => c.sparse
  | .extendedAttribute _ => c.xattrs
  | .acl _ => c.acls
  | .fileFlags => c.fileFlags
  | .removePath | .clearDirectory => c.removals

/-- `supports_entry`. -/
def FilesystemCapabilities.supportsEntry (c : FilesystemCapabilities) : EntryKind → Bool
  | .file | .dir => true
  | .symlink => c.symlinks
  | .hardlink => c.hardlinks
  | .char | .block | .fifo | .socket => c.specialFiles

/-- An entry passed to an adapter. -/
structure FilesystemEntry where
  metadata : EntryMetadata
  destination : List Component
  linkTarget : Option (List Component)
  overwrite : Bool
deriving DecidableEq

/-- A removal passed to an adapter. -/
structure FilesystemRemoval where
  path : ArchivePath
  destination : List Component
deriving DecidableEq

/-- What became of an entry. -/
inductive FilesystemMaterialization where
  | file
  | directory
  | symlink
  | hardlink
  | special
  | destinationExists
  | failed
deriving DecidableEq

/-- The report on a finished entry. -/
structure FilesystemEntryReport where
  materialization : FilesystemMaterialization
  findings : List FilesystemFinding
deriving DecidableEq

/-- A fatal adapter failure. -/
structure FilesystemAdapterError where
  operation : String
  source : IoError
deriving DecidableEq

/-- The calls that change an adapter's state. -/
inductive Call where
  | beginSession
  | beginEntry (e : FilesystemEntry)
  | writeData (bytes : List Byte)
  | finishEntry
  | abortEntry
  | finishSession
  | removePath (r : FilesystemRemoval)
  | clearDirectory (r : FilesystemRemoval)
deriving DecidableEq

/-- How an adapter answers after the calls made before. -/
structure FilesystemAdapter where
  capabilities : List Call → FilesystemCapabilities
  beginSession : List Call → Except FilesystemAdapterError Unit
  beginEntry : List Call → FilesystemEntry → Except FilesystemAdapterError Unit
  writeData : List Call → List Byte → Except FilesystemAdapterError Unit
  finishEntry : List Call → Except FilesystemAdapterError FilesystemEntryReport
  finishSession : List Call → Except FilesystemAdapterError (List FilesystemFinding)
  removePath : List Call → FilesystemRemoval → Except FilesystemAdapterError FilesystemFinding
  clearDirectory : List Call → FilesystemRemoval → Except FilesystemAdapterError FilesystemFinding

/-- Every call of the adapter succeeds. -/
structure FilesystemAdapter.Obliging (a : FilesystemAdapter) : Prop where
  beginSession : ∀ log, ∃ r, a.beginSession log = .ok r
  beginEntry : ∀ log e, ∃ r, a.beginEntry log e = .ok r
  writeData : ∀ log bytes, ∃ r, a.writeData log bytes = .ok r
  finishEntry : ∀ log, ∃ r, a.finishEntry log = .ok r
  finishSession : ∀ log, ∃ r, a.finishSession log = .ok r
  removePath : ∀ log r, ∃ f, a.removePath log r = .ok f
  clearDirectory : ∀ log r, ∃ f, a.clearDirectory log r = .ok f

end LibarchiveOxide.Extract.Filesystem
