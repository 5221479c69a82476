import LibarchiveOxide.Core.Failure
import LibarchiveOxide.Extract.Filesystem

/-! # The adapter driver of a session

`AdapterDriver` replays the events of an archive against its plan and calls the adapter. Both
`apply_registered_plan` and `apply_seek_plan` are `applyPlan`: they differ in the reader only. A
failure is returned with the calls made until then, and says whether an answer of the adapter was the
reason. -/

namespace LibarchiveOxide.Extract.Driver

open Core.Failure Core.Metadata Core.Budget Extract.Path Extract.Plan Extract.Filesystem
open Stream.Event Lib.Pieces

/-! ### Reports -/

/-- What became of an entry. -/
inductive EntryOutcomeKind where
  | file
  | directory
  | symlink
  | hardlink
  | special
  | rejected (reason : RejectionReason)
  | skipped
deriving DecidableEq

/-- The result for an entry. -/
structure EntryOutcome where
  path : ArchivePath
  outcome : EntryOutcomeKind
deriving DecidableEq

/-- The result of an apply session. -/
structure AdapterExtraction where
  extraction : List EntryOutcome
  findings : List FilesystemFinding
deriving DecidableEq

/-- Why a session fails: an adapter call failed, or anything else. -/
inductive Fault where
  | adapter (e : FilesystemAdapterError)
  | stream (e : StreamError)
deriving DecidableEq

/-- The error the caller gets; `adapter_error` for a failed adapter call. -/
def Fault.toStreamError : Fault → StreamError
  | .adapter e => .io ⟨e.source.kind, e.operation ++ ": " ++ e.source.message⟩
  | .stream e => e

/-- A result, or a failure with the calls made until then. -/
abbrev Driven (α : Type) := Except (Fault × List Call) α

/-- `protocol_error`. -/
def protocolError (context : String) : Fault :=
  .stream (.archive (({ kind := .protocol } : ArchiveError).withContext context))

/-- `limit_error`. -/
def limitError (index : ℕ) (path : ArchivePath) (context : String) : Fault :=
  .stream (.archive ((({ kind := .limit } : ArchiveError).withEntry index path.raw).withContext
    context))

/-- `archive_path_nesting`. -/
def archivePathNesting (path : List Byte) : ℕ :=
  ((pieces (fun b => b == chr '/' || b == chr '\\') path).filter
    fun c => !c.isEmpty && c ≠ bstr ".").length

/-- `rejection_detail`. -/
def rejectionDetail : RejectionReason → String
  | .unsafePath => "archive path is unsafe or cannot be represented"
  | .destinationCollision => "another archive entry already claims this host destination"
  | .destinationExists => "destination already exists"
  | .entryKind => "entry kind is disabled by extraction policy"
  | .unsafeLinkTarget => "link target is absent, unsafe, or uncommitted"
  | .externalReference => "external archive references are never materialized"
  | .unsupportedRestore => "requested entry restoration is unsupported on this platform"
  | .filesystemError => "filesystem adapter refused the entry"

/-- `requested_operations`. -/
def requestedOperations (m : EntryMetadata) : List FilesystemOperation :=
  [FilesystemOperation.entry] ++ (if m.kind = .file then [FilesystemOperation.atomicCommit] else []) ++
    (if m.mode.isSome then [FilesystemOperation.mode] else []) ++
    (if m.owner.uid.isSome || m.owner.gid.isSome || m.owner.user.isSome || m.owner.group.isSome
      then [FilesystemOperation.ownership] else []) ++
    (if m.times.accessed.isSome then [FilesystemOperation.accessTime] else []) ++
    (if m.times.modified.isSome then [FilesystemOperation.modificationTime] else []) ++
    (if m.times.changed.isSome then [FilesystemOperation.changeTime] else []) ++
    (if m.times.created.isSome then [FilesystemOperation.creationTime] else []) ++
    (if !m.sparse.isEmpty then [FilesystemOperation.sparse] else []) ++
    m.xattrs.map (fun x => FilesystemOperation.extendedAttribute x.1) ++
    (List.range m.acl.length).map FilesystemOperation.acl ++
    (if m.fileFlags ≠ 0 then [FilesystemOperation.fileFlags] else [])

/-- `fill_missing_findings` for refusals. -/
def fillMissingFindings (path : ArchivePath) (operations : List FilesystemOperation)
    (findings : List FilesystemFinding) (detail : String) : List FilesystemFinding :=
  operations.foldl (fun findings operation =>
    if findings.any (fun f => f.operation == operation) then findings
    else findings ++ [⟨path, operation, .refused, detail⟩]) findings

/-! ### The driver -/

/-- The entry that is being replayed. -/
structure CurrentEntry (host : Host) where
  path : ArchivePath
  kind : EntryKind
  destination : Option (DestinationKey host)
  materializing : Bool
  directOutcome : Option EntryOutcomeKind
  requests : List FilesystemOperation

/-- The driver, with the calls it has made. -/
structure AdapterDriver (host : Host) where
  planned : List (PlannedEntry host)
  policy : Policy
  limits : Limits
  capabilities : FilesystemCapabilities
  extraction : List EntryOutcome := []
  findings : List FilesystemFinding := []
  expected : List (ArchivePath × FilesystemOperation) := []
  committedFiles : List (DestinationKey host) := []
  current : Option (CurrentEntry host) := none
  entriesSeen : ℕ := 0
  log : List Call

namespace AdapterDriver

variable {host : Host}

/-- `AdapterDriver::new`. -/
def new (a : FilesystemAdapter) (policy : Policy) (limits : Limits)
    (planned : List (PlannedEntry host)) : Driven (AdapterDriver host) :=
  let capabilities := a.capabilities []
  match a.beginSession [] with
  | .error e => .error (.adapter e, [.beginSession])
  | .ok () => .ok { planned, policy, limits, capabilities, log := [.beginSession] }

/-- `observe_entry`. -/
def observeEntry (d : AdapterDriver host) (m : EntryMetadata) : Driven (AdapterDriver host) := do
  let index := d.entriesSeen
  let entriesSeen ← okOr (checkedAdd d.entriesSeen 1)
    (limitError index m.path "filesystem driver entry count overflowed", d.log)
  if exceeds entriesSeen d.limits.entries then
    throw (limitError index m.path "filesystem driver entry count exceeds configured limit", d.log)
  if exceeds m.path.raw.length d.limits.pathBytes then
    throw (limitError index m.path "filesystem driver path length exceeds configured limit", d.log)
  if exceeds (archivePathNesting m.path.raw) d.limits.nesting then
    throw (limitError index m.path "filesystem driver path nesting exceeds configured limit", d.log)
  return { d with entriesSeen }

/-- `reject`. -/
def reject (d : AdapterDriver host) (m : EntryMetadata) (requests : List FilesystemOperation)
    (reason : RejectionReason) (detail : String) : AdapterDriver host :=
  { d with
    findings := d.findings ++ requests.map fun operation => ⟨m.path, operation, .refused, detail⟩
    current := some {
      path := m.path
      kind := m.kind
      destination := none
      materializing := false
      directOutcome := some (.rejected reason)
      requests } }

/-- The rejection that `entry_kind_allowed` decides on. -/
def kindRejection (c : FilesystemCapabilities) (kind : EntryKind) : Option (RejectionReason × String) :=
  if kind = .file ∧ c.atomicCommit = false then
    some (.unsupportedRestore, "filesystem adapter cannot atomically publish regular files")
  else if (kind = .char ∨ kind = .block ∨ kind = .fifo ∨ kind = .socket) ∧ c.specialFiles = false then
    some (.unsupportedRestore, "filesystem adapter does not support special files")
  else if c.supportsEntry kind = false then
    some (.entryKind, "entry kind is not supported by the filesystem adapter")
  else none

/-- The end of `start_entry`: the entry is passed to the adapter. -/
def beginMaterializing (a : FilesystemAdapter) (d : AdapterDriver host) (m : EntryMetadata)
    (requests : List FilesystemOperation) (destination : DestinationKey host)
    (linkTarget : Option (DestinationKey host)) : Driven (AdapterDriver host) :=
  let findings := d.findings ++ (requests.filter fun operation =>
      !d.capabilities.supports operation).map fun operation =>
    ⟨m.path, operation, .unsupported,
      "filesystem adapter does not advertise this metadata capability"⟩
  let entry : FilesystemEntry :=
    ⟨m, destination.path, linkTarget.map DestinationKey.path, d.policy.overwrite⟩
  match a.beginEntry d.log entry with
  | .error e => .error (.adapter e, d.log ++ [.beginEntry entry])
  | .ok () => .ok { d with
      findings
      current := some {
        path := m.path
        kind := m.kind
        destination := some destination
        materializing := true
        directOutcome := none
        requests }
      log := d.log ++ [.beginEntry entry] }

/-- The middle of `start_entry`: an entry whose plan is to materialize it. -/
def startMaterialize (a : FilesystemAdapter) (d : AdapterDriver host) (m : EntryMetadata)
    (requests : List FilesystemOperation) (p : PlannedEntry host) : Driven (AdapterDriver host) :=
  match p.destination with
  | none => .error (protocolError "materializing plan entry has no destination", d.log)
  | some destination =>
    if m.kind = .hardlink ∧ p.linkTarget.any (contains d.committedFiles ·) = false then
      .ok (d.reject m requests .unsafeLinkTarget
        "hard-link target was not committed earlier in this apply session")
    else match kindRejection d.capabilities m.kind with
      | some (reason, detail) => .ok (d.reject m requests reason detail)
      | none => d.beginMaterializing a m requests destination p.linkTarget

/-- `start_entry`. -/
def startEntry (a : FilesystemAdapter) (d : AdapterDriver host) (m : EntryMetadata) :
    Driven (AdapterDriver host) :=
  if d.current.isSome then
    .error (protocolError "entry began before the preceding entry ended", d.log)
  else do
    let plannedIndex := d.entriesSeen
    let d ← d.observeEntry m
    let p ← okOr (d.planned[plannedIndex]?)
      (protocolError "archive contains an entry absent from its plan", d.log)
    if p.metadata ≠ m then
      throw (protocolError "archive entry metadata differs from the preflighted plan", d.log)
    let requests := requestedOperations m
    let d := { d with expected := d.expected ++ requests.map (m.path, ·) }
    match p.disposition with
    | .skip => return { d with
        findings := d.findings ++ [.applied m.path .entry]
        current := some {
          path := m.path
          kind := m.kind
          destination := none
          materializing := false
          directOutcome := some .skipped
          requests } }
    | .reject reason => return d.reject m requests reason (rejectionDetail reason)
    | .materialize => d.startMaterialize a m requests p

/-- `write_data`. -/
def writeData (a : FilesystemAdapter) (d : AdapterDriver host) (bytes : List Byte) :
    Driven (AdapterDriver host) :=
  match d.current with
  | none => .error (protocolError "archive data appeared outside an entry", d.log)
  | some current =>
    if current.materializing then
      match a.writeData d.log bytes with
      | .error e => .error (.adapter e, d.log ++ [.writeData bytes])
      | .ok () => .ok { d with log := d.log ++ [.writeData bytes] }
    else .ok d

/-- The outcome of a finished entry with the files and findings after it; `none` if the adapter's
answer disagrees with the kind. -/
def outcomeOf (d : AdapterDriver host) (current : CurrentEntry host) (report : FilesystemEntryReport) :
    Option (Except Fault (EntryOutcomeKind × List (DestinationKey host) × List FilesystemFinding)) :=
  match report.materialization with
  | .file =>
    if current.kind = .file then
      some ((okOr current.destination (protocolError
        "adapter completed a file without a validated destination")).map fun destination =>
          (.file, insert d.committedFiles destination, report.findings))
    else none
  | .directory =>
    if current.kind = .dir then some (.ok (.directory, d.committedFiles, report.findings)) else none
  | .symlink =>
    if current.kind = .symlink then some (.ok (.symlink, d.committedFiles, report.findings)) else none
  | .hardlink =>
    if current.kind = .hardlink then
      some ((okOr current.destination (protocolError
        "adapter completed a hard link without a validated destination")).map fun destination =>
          (.hardlink, insert d.committedFiles destination, report.findings))
    else none
  | .special =>
    if current.kind = .char ∨ current.kind = .block ∨ current.kind = .fifo ∨ current.kind = .socket
    then some (.ok (.special, d.committedFiles, report.findings)) else none
  | .destinationExists => some (.ok (.rejected .destinationExists, d.committedFiles,
      fillMissingFindings current.path current.requests report.findings
        "destination conflict prevented metadata restoration"))
  | .failed => some (.ok (.rejected .filesystemError, d.committedFiles,
      fillMissingFindings current.path current.requests report.findings
        "entry-level filesystem failure prevented metadata restoration"))

/-- The end of `end_entry`, after the adapter's report. -/
def settleEntry (d : AdapterDriver host) (current : CurrentEntry host)
    (report : FilesystemEntryReport) : Driven (AdapterDriver host) :=
  match d.outcomeOf current report with
  | none => .error (protocolError
      "filesystem adapter returned a materialization kind that disagrees with the entry",
      d.log ++ [.abortEntry])
  | some (.error e) => .error (e, d.log)
  | some (.ok (outcome, committedFiles, findings)) => .ok { d with
      committedFiles
      findings := d.findings ++ findings
      extraction := d.extraction ++ [⟨current.path, outcome⟩] }

/-- `end_entry`. -/
def endEntry (a : FilesystemAdapter) (d : AdapterDriver host) : Driven (AdapterDriver host) :=
  match d.current with
  | none => .error (protocolError "archive ended an entry that was not open", d.log)
  | some current =>
    let d := { d with current := none }
    if !current.materializing then
      match current.directOutcome with
      | none => .error (protocolError "non-materializing entry lost its outcome", d.log)
      | some outcome => .ok { d with extraction := d.extraction ++ [⟨current.path, outcome⟩] }
    else match a.finishEntry d.log with
      | .error e => .error (.adapter e, d.log ++ [.finishEntry])
      | .ok report =>
        settleEntry { d with log := d.log ++ [.finishEntry] } current report

/-- The requests that no finding answers. -/
def missingFindings (expected : List (ArchivePath × FilesystemOperation))
    (findings : List FilesystemFinding) : List FilesystemFinding :=
  expected.foldl (fun findings x =>
    if findings.any (fun f => f.path == x.1 && f.operation == x.2) then findings
    else findings ++ [⟨x.1, x.2, .partly,
      "adapter declared support but did not report the requested operation"⟩]) findings

/-- `finish`. -/
def finish (a : FilesystemAdapter) (d : AdapterDriver host) :
    Driven (AdapterExtraction × List Call) :=
  if d.current.isSome then
    .error (.stream (.io ⟨"UnexpectedEof", "archive ended with an incomplete entry"⟩),
      d.log ++ [.abortEntry])
  else if a.capabilities d.log ≠ d.capabilities then
    .error (protocolError "filesystem adapter capabilities changed during an apply session", d.log)
  else if d.entriesSeen ≠ d.planned.length then
    .error (protocolError "archive ended before every preflighted plan entry was observed", d.log)
  else match a.finishSession d.log with
    | .error e => .error (.adapter e, d.log ++ [.finishSession])
    | .ok deferred => .ok (⟨d.extraction, missingFindings d.expected (d.findings ++ deferred)⟩,
        d.log ++ [.finishSession])

/-- One round of the loop of `apply_registered_plan` and `apply_seek_plan`. -/
def applyEvent (a : FilesystemAdapter) (d : AdapterDriver host) :
    ReaderEvent → Driven (AdapterDriver host)
  | .archiveMetadata _ => .ok d
  | .entry m => d.startEntry a m
  | .data bytes => d.writeData a bytes
  | .endEntry => d.endEntry a

/-- The loop up to the end of the events. -/
def applyEvents (a : FilesystemAdapter) (d : AdapterDriver host) :
    List ReaderEvent → Driven (AdapterDriver host)
  | [] => .ok d
  | event :: rest => do
    let d ← d.applyEvent a event
    d.applyEvents a rest

/-- The end of the loop, after `Done` or a failure of the reader. -/
def conclude (a : FilesystemAdapter) (d : AdapterDriver host) (ending : Except StreamError Unit) :
    Driven (AdapterExtraction × List Call) :=
  match ending with
  | .error e => .error (.stream e, d.log ++ [.abortEntry])
  | .ok () => d.finish a

end AdapterDriver

/-- `apply_registered_plan` and `apply_seek_plan`. -/
def applyPlan {host : Host} (a : FilesystemAdapter) (policy : Policy) (limits : Limits)
    (planned : List (PlannedEntry host)) (archive : Events) :
    Driven (AdapterExtraction × List Call) := do
  let d ← AdapterDriver.new a policy limits planned
  let d ← d.applyEvents a archive.events
  d.conclude a archive.ending

end LibarchiveOxide.Extract.Driver
