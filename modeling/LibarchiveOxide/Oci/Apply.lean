import LibarchiveOxide.Extract.Filesystem

/-! # The plan for one OCI layer

A `.wh.<name>` entry deletes `<name>` and a `.wh..wh..opq` entry clears its directory; every other
entry is materialized. `observe` adds at most one operation for an entry. -/

namespace LibarchiveOxide.Oci.Plan

open Core.Failure Core.Metadata Extract.Path Extract.Plan Lib.Pieces

def whiteoutPrefix : List Byte := bstr ".wh."
def opaqueMarker : List Byte := bstr ".wh..wh..opq"

/-- Why the planner refuses an entry. -/
inductive OciRejection where
  | unsafePath
  | duplicate
  | unsafeLinkTarget
  | unsupportedKind
  | symlinkEscape
deriving DecidableEq

/-- A short human-readable label. -/
def OciRejection.label : OciRejection → String
  | .unsafePath => "unsafe or unrepresentable path"
  | .duplicate => "duplicate path within the layer"
  | .unsafeLinkTarget => "unsafe or uncommitted link target"
  | .unsupportedKind => "entry kind disabled by policy or unsupported"
  | .symlinkEscape => "destination escapes through a layer symlink"

/-- A materialization with its destination. -/
structure OciMaterialize where
  metadata : EntryMetadata
  destination : List Component
  linkTarget : Option (List Component)
  originalOwner : Option Owner
deriving DecidableEq

/-- A removal with its destination; the empty destination is the extraction root. -/
structure OciRemoval where
  path : ArchivePath
  destination : List Component
deriving DecidableEq

/-- A refused entry. -/
structure OciReject where
  path : ArchivePath
  reason : OciRejection
deriving DecidableEq

/-- A planned operation. -/
inductive OciPlanOperation where
  | materialize (m : OciMaterialize)
  | mapOwnership (m : OciMaterialize)
  | whiteout (r : OciRemoval)
  | opaqueDir (r : OciRemoval)
  | reject (r : OciReject)
deriving DecidableEq

/-- `is_structural_skip`. -/
def isStructuralSkip (m : EntryMetadata) : Bool := isArchiveRoot m

/-- `path.strip_suffix(b"/").unwrap_or(path)`. -/
def trimSlash (path : List Byte) : List Byte :=
  if path.getLast? = some (chr '/') then path.dropLast else path

/-- `split_last`. -/
def splitLast (path : List Byte) : List Byte × List Byte :=
  (breakLast (· == chr '/') (trimSlash path)).getD ([], trimSlash path)

/-- `join`. -/
def join (parent child : List Byte) : List Byte :=
  if parent.isEmpty then child else parent ++ chr '/' :: child

/-- The overlay marker of a path. -/
inductive Marker where
  | regular
  | whiteout (target : List Byte)
  | opaqueDirectory (directory : List Byte)
  | unsafePath
deriving DecidableEq

/-- `classify`. -/
def classify (path : List Byte) : Marker :=
  let (parent, name) := splitLast path
  if name = opaqueMarker then .opaqueDirectory parent
  else if whiteoutPrefix.isPrefixOf name then
    let targetName := name.drop whiteoutPrefix.length
    if targetName.isEmpty then .unsafePath else .whiteout (join parent targetName)
  else .regular

/-- The planner. -/
structure OciLayerPlanner (host : Host) where
  policy : Policy
  mapOwner : Owner → Owner
  operations : List OciPlanOperation := []
  claimed : DestinationClaims host := {}
  committedFiles : List (DestinationKey host) := []
  symlinks : List (DestinationKey host) := []

namespace OciLayerPlanner

variable {host : Host}

/-- `OciLayerPlanner::new`. -/
def new (host : Host) (policy : Policy) (mapOwner : Owner → Owner) : OciLayerPlanner host :=
  { policy, mapOwner }

/-- `reject`. -/
def reject (path : ArchivePath) (reason : OciRejection) : OciPlanOperation :=
  .reject ⟨path, reason⟩

/-- `escapes_symlink`: a proper ancestor of the destination is a symbolic link of the layer. -/
def escapesSymlink (p : OciLayerPlanner host) (destination : List Component) : Bool :=
  destination.inits.any fun ancestor => ancestor ≠ destination &&
    (DestinationKey.fromRelativePath host ancestor).any (contains p.symlinks ·)

/-- `plan_removal`. -/
def planRemoval (p : OciLayerPlanner host) (path : ArchivePath) (raw : List Byte) (isOpaque : Bool) :
    OciPlanOperation :=
  match if raw.isEmpty then some [] else sanitize host raw with
  | none => reject path .unsafePath
  | some destination =>
    if p.escapesSymlink destination then reject path .symlinkEscape
    else if isOpaque then .opaqueDir ⟨path, destination⟩
    else .whiteout ⟨path, destination⟩

/-- `link_target`. -/
def linkTarget (p : OciLayerPlanner host) (m : EntryMetadata) :
    Except OciRejection (Option (List Component)) :=
  match m.kind with
  | .symlink =>
    if !p.policy.symlinks then .error .unsupportedKind
    else (okOr (m.linkTarget.bind (sanitizeArchivePath host)) .unsafeLinkTarget).map some
  | .hardlink =>
    if !p.policy.hardlinks then .error .unsupportedKind
    else do
      let target ← okOr (m.linkTarget.bind (DestinationKey.fromArchivePath host)) .unsafeLinkTarget
      match get p.committedFiles target with
      | some committedTarget => return some committedTarget.path
      | none => throw .unsafeLinkTarget
  | _ => .ok none

/-- `kind_allowed`. -/
def kindAllowed (p : OciLayerPlanner host) (m : EntryMetadata) : Bool :=
  match m.kind with
  | .file | .dir | .symlink | .hardlink => true
  | .char | .block | .fifo | .socket => p.policy.specialFiles && host.restoresSpecial

/-- The operation that materializes an entry. -/
def materializeAs (p : OciLayerPlanner host) (m : EntryMetadata) (destination : List Component)
    (linkTarget : Option (List Component)) : OciPlanOperation :=
  let original := m.owner
  let mapped := p.mapOwner original
  let metadata := { m with owner := mapped }
  if mapped ≠ original then .mapOwnership ⟨metadata, destination, linkTarget, some original⟩
  else .materialize ⟨metadata, destination, linkTarget, none⟩

/-- The planner after a materialization is accepted. -/
def accept (p : OciLayerPlanner host) (kind : EntryKind) (key : DestinationKey host) :
    OciLayerPlanner host :=
  match kind with
  | .file | .hardlink => { p with committedFiles := insert p.committedFiles key }
  | .symlink => { p with symlinks := insert p.symlinks key }
  | _ => p

/-- `plan_materialize`. -/
def planMaterialize (p : OciLayerPlanner host) (m : EntryMetadata) :
    OciPlanOperation × OciLayerPlanner host :=
  if isExternalReference m then (reject m.path .unsupportedKind, p)
  else match DestinationKey.fromArchivePath host m.path with
    | none => (reject m.path .unsafePath, p)
    | some key =>
      if p.escapesSymlink key.path then (reject m.path .symlinkEscape, p)
      else match p.claimed.claim key m.kind with
        | none => (reject m.path .duplicate, p)
        | some claimed =>
          let p := { p with claimed }
          match p.linkTarget m with
          | .error reason => (reject m.path reason, p)
          | .ok linkTarget =>
            if !p.kindAllowed m then (reject m.path .unsupportedKind, p)
            else (p.materializeAs m key.path linkTarget, p.accept m.kind key)

/-- The operation for an entry that is not skipped. -/
def planOperation (p : OciLayerPlanner host) (m : EntryMetadata) :
    OciPlanOperation × OciLayerPlanner host :=
  match classify m.path.raw with
  | .unsafePath => (reject m.path .unsafePath, p)
  | .whiteout target => (p.planRemoval m.path target false, p)
  | .opaqueDirectory directory => (p.planRemoval m.path directory true, p)
  | .regular => p.planMaterialize m

/-- `observe`. -/
def observe (p : OciLayerPlanner host) (m : EntryMetadata) : OciLayerPlanner host :=
  if isStructuralSkip m then p
  else
    let (operation, p) := p.planOperation m
    { p with operations := p.operations ++ [operation] }

/-- The planner after some entries. -/
def observeAll (p : OciLayerPlanner host) (entries : List EntryMetadata) : OciLayerPlanner host :=
  entries.foldl observe p

end OciLayerPlanner

end LibarchiveOxide.Oci.Plan

/-! # Applying the plan of a layer

`driveApply` replays the events of the layer and the operations of the plan side by side and calls
the adapter. It returns the calls it made together with its result. -/

namespace LibarchiveOxide.Oci.Apply

open Core.Failure Core.Metadata Stream.Event Extract.Path Extract.Plan Extract.Filesystem Oci.Plan

/-- A failure of the apply pass. -/
inductive OciLayerError where
  | stream (e : StreamError)
  | adapter (e : FilesystemAdapterError)
  | session (context : String)
deriving DecidableEq

/-- Running tallies. -/
structure Counts where
  materialized : ℕ := 0
  removed : ℕ := 0
  cleared : ℕ := 0
  rejected : ℕ := 0
deriving DecidableEq

/-- `n.saturating_add(1)` of a `usize`. -/
def saturatingSucc (n : ℕ) : ℕ := min (n + 1) u64Max

/-- The operation of the entry that is being streamed. -/
inductive Active where
  | materialize (m : OciMaterialize)
  | whiteout (r : OciRemoval)
  | opaqueDir (r : OciRemoval)
  | reject (r : OciReject)
  | skip
deriving DecidableEq

/-- The outcome of applying a layer. -/
structure OciApplyReport where
  findings : List FilesystemFinding
  counts : Counts
deriving DecidableEq

/-- The variables of `drive_apply`, with the calls made so far. -/
structure ApplyState where
  operations : List OciPlanOperation
  active : Option Active := none
  findings : List FilesystemFinding := []
  counts : Counts := {}
  log : List Call
deriving DecidableEq

/-- A result, or a failure with the calls made until then. -/
abbrev Applied (α : Type) := Except (OciLayerError × List Call) α

/-- `begin_operation`. -/
def beginOperation (a : FilesystemAdapter) (overwrite : Bool) (log : List Call) :
    OciPlanOperation → Applied (Active × List Call)
  | .materialize m | .mapOwnership m =>
    let entry : FilesystemEntry := ⟨m.metadata, m.destination, m.linkTarget, overwrite⟩
    match a.beginEntry log entry with
    | .error e => .error (.adapter e, log ++ [.beginEntry entry])
    | .ok () => .ok (.materialize m, log ++ [.beginEntry entry])
  | .whiteout r => .ok (.whiteout r, log)
  | .opaqueDir r => .ok (.opaqueDir r, log)
  | .reject r => .ok (.reject r, log)

/-- The tallies after an entry is finished. -/
def Counts.finished (c : Counts) : FilesystemMaterialization → Counts
  | .file | .hardlink | .directory | .symlink | .special =>
    { c with materialized := saturatingSucc c.materialized }
  | .destinationExists | .failed => { c with rejected := saturatingSucc c.rejected }

/-- `finish_operation`. -/
def finishOperation (a : FilesystemAdapter) (s : ApplyState) : Active → Applied ApplyState
  | .skip => .ok s
  | .materialize _ =>
    match a.finishEntry s.log with
    | .error e => .error (.adapter e, s.log ++ [.finishEntry])
    | .ok report => .ok { s with
        findings := s.findings ++ report.findings
        counts := s.counts.finished report.materialization
        log := s.log ++ [.finishEntry] }
  | .whiteout r =>
    match a.removePath s.log ⟨r.path, r.destination⟩ with
    | .error e => .error (.adapter e, s.log ++ [.removePath ⟨r.path, r.destination⟩])
    | .ok finding => .ok { s with
        findings := s.findings ++ [finding]
        counts := { s.counts with removed := saturatingSucc s.counts.removed }
        log := s.log ++ [.removePath ⟨r.path, r.destination⟩] }
  | .opaqueDir r =>
    match a.clearDirectory s.log ⟨r.path, r.destination⟩ with
    | .error e => .error (.adapter e, s.log ++ [.clearDirectory ⟨r.path, r.destination⟩])
    | .ok finding => .ok { s with
        findings := s.findings ++ [finding]
        counts := { s.counts with cleared := saturatingSucc s.counts.cleared }
        log := s.log ++ [.clearDirectory ⟨r.path, r.destination⟩] }
  | .reject r => .ok { s with
      findings := s.findings ++ [⟨r.path, .entry, .refused, r.reason.label⟩]
      counts := { s.counts with rejected := saturatingSucc s.counts.rejected } }

/-- One round of the loop of `drive_apply`. -/
def applyEvent (a : FilesystemAdapter) (overwrite : Bool) (s : ApplyState) :
    ReaderEvent → Applied ApplyState
  | .archiveMetadata _ => .ok s
  | .entry m =>
    if s.active.isSome then
      .error (.session "layer entry began before the previous entry ended", s.log ++ [.abortEntry])
    else if isStructuralSkip m then .ok { s with active := some .skip }
    else match s.operations with
      | [] => .error (.session "layer stream produced more entries than the plan", s.log)
      | operation :: rest => do
        let (active, log) ← beginOperation a overwrite s.log operation
        return { s with operations := rest, active := some active, log }
  | .data bytes =>
    match s.active with
    | some (.materialize _) =>
      match a.writeData s.log bytes with
      | .error e => .error (.adapter e, s.log ++ [.writeData bytes])
      | .ok () => .ok { s with log := s.log ++ [.writeData bytes] }
    | _ => .ok s
  | .endEntry =>
    match s.active with
    | none => .error (.session "layer ended an entry that was not open", s.log)
    | some current => finishOperation a { s with active := none } current

/-- The loop of `drive_apply` up to the end of the events. -/
def applyEvents (a : FilesystemAdapter) (overwrite : Bool) (s : ApplyState) :
    List ReaderEvent → Applied ApplyState
  | [] => .ok s
  | event :: rest => do
    let s ← applyEvent a overwrite s event
    applyEvents a overwrite s rest

/-- The end of `drive_apply`, after `Done` or a failure of the reader. -/
def finishApply (a : FilesystemAdapter) (s : ApplyState) (ending : Except StreamError Unit) :
    Applied (OciApplyReport × List Call) :=
  match ending with
  | .error e => .error (.stream e, s.log)
  | .ok () =>
    if !s.operations.isEmpty then
      .error (.session "plan has more operations than the layer stream", s.log)
    else match a.finishSession s.log with
      | .error e => .error (.adapter e, s.log ++ [.finishSession])
      | .ok deferred => .ok (⟨s.findings ++ deferred, s.counts⟩, s.log ++ [.finishSession])

/-- `drive_apply`. -/
def driveApply (a : FilesystemAdapter) (policy : Policy) (operations : List OciPlanOperation)
    (layer : Events) : Applied (OciApplyReport × List Call) :=
  match a.beginSession [] with
  | .error e => .error (.adapter e, [.beginSession])
  | .ok () => do
    let s ← applyEvents a policy.overwrite { operations, log := [.beginSession] } layer.events
    finishApply a s layer.ending

end LibarchiveOxide.Oci.Apply
