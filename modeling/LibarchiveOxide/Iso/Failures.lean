import LibarchiveOxide.Iso.Writer
import LibarchiveOxide.Lib.Result

/-! # The errors of finishing an image

`finish` has two errors that say that its passes do not agree; every function but `emitRegions` fails
with other errors only (`Other`). -/

namespace LibarchiveOxide.Iso.Failures

open Core.Failure Core.Budget Core.Metadata Lib.Errors Stream.Event Stream.Seekable Iso.Fields
open Iso.Names Iso.Records Iso.Writer Iso.Finish

/-- The passes agree, as far as this error says. -/
def Other (e : StreamError) : Prop := e ≠ layoutChanged ∧ e ≠ cursorDisagrees

variable {nodes : List IsoNode} {area : Option SuspContinuationArea} {α : Type}

theorem other_of_kind {kind : ErrorKind} {context : String} (h : kind ≠ .protocol) :
    Other (isoError kind context) := by
  refine ⟨fun he => h ?_, fun he => h ?_⟩
  · exact congrArg (fun | .archive e => e.kind | _ => .protocol) he
  · exact congrArg (fun | .archive e => e.kind | _ => .protocol) he

theorem other_of_context {kind : ErrorKind} {context : String}
    (h : context ≠ "ISO continuation layout changed between planning and emission")
    (h' : context ≠ "ISO layout cursor disagrees with calculated volume size") :
    Other (isoError kind context) := by
  refine ⟨fun he => h ?_, fun he => h' ?_⟩
  · exact List.head_eq_of_cons_eq (congrArg (fun | .archive e => e.context | _ => []) he)
  · exact List.head_eq_of_cons_eq (congrArg (fun | .archive e => e.context | _ => []) he)

theorem limit (context : String) : Other (isoError .limit context) := other_of_kind nofun

theorem unsupported (context : String) : Other (isoError .unsupported context) := other_of_kind nofun

theorem malformed (context : String) : Other (isoError .malformed context) := other_of_kind nofun

theorem raises_okOr {o : Option α} {e : StreamError} (h : Other e) : Raises Other (okOr o e) :=
  fun _ he => (okOr_eq_error.mp he).2 ▸ h

/-! ### Records -/

theorem suspField_raises (signature value : List Byte) : Raises Other (suspField signature value) :=
  raises_ite (fun _ => raises_error (unsupported _)) fun _ => raises_ok _

theorem continuedFields_raises (signature : List Byte) :
    ∀ values : List (List Byte), Raises Other (continuedFields signature values)
  | [] => raises_ok _
  | [_] => suspField_raises _ _
  | _ :: v :: values => raises_bind (suspField_raises _ _) fun _ _ =>
      raises_bind (continuedFields_raises signature (v :: values)) fun _ _ => raises_pure _

theorem nmFields_raises (name : List Byte) : Raises Other (nmFields name) :=
  raises_ite (fun _ => suspField_raises _ _) fun _ => continuedFields_raises _ _

theorem rawSystemUse_raises (extension : Extension) : Raises Other (rawSystemUse extension) := by
  refine raises_ite (fun _ => raises_ok _) fun _ => ?_
  refine raises_ite (fun _ => raises_error (malformed _)) fun _ => ?_
  exact raises_ite (fun _ => raises_ok _) fun _ => suspField_raises _ _

theorem linkComponent_raises (component : List Byte) : Raises Other (linkComponent component) := by
  refine raises_ite (fun _ => raises_ok _) fun _ => ?_
  refine raises_ite (fun _ => raises_ok _) fun _ => ?_
  refine raises_ite (fun _ => raises_error (unsupported _)) fun _ => ?_
  exact raises_ite (fun _ => raises_error (unsupported _)) fun _ => raises_ok _

theorem symbolicLinkFields_raises (target : List Byte) : Raises Other (symbolicLinkFields target) :=
  raises_bind (raises_mapM linkComponent_raises _) fun _ _ => continuedFields_raises _ _

theorem u32Value_raises (value : UInt64) (context : String) : Raises Other (u32Value value context) :=
  raises_ite (fun _ => raises_ok _) fun _ => raises_error (unsupported _)

theorem append_raises (a : SuspContinuationArea) (bytes : List Byte) : Raises Other (a.append bytes) := by
  refine raises_guard (fun _ => limit _) fun _ => ?_
  refine raises_guard (fun _ => limit _) fun _ => ?_
  refine raises_guard (fun _ => limit _) fun _ => ?_
  exact raises_bind (suspField_raises _ _) fun _ _ => raises_pure _

theorem prefixLoop_raises (systemUse : List Byte) (maximum : ℕ) :
    ∀ rounds cursor : ℕ, Raises Other (prefixLoop systemUse maximum rounds cursor)
  | 0, _ => raises_ok _
  | rounds + 1, cursor => by
    refine raises_ite (fun _ => ?_) fun _ => raises_ok _
    cases systemUse[cursor + 2]? with
    | none => exact raises_error (malformed _)
    | some length =>
      refine raises_ite (fun _ => raises_error (malformed _)) fun _ => ?_
      refine raises_ite (fun _ => raises_error (malformed _)) fun _ => ?_
      exact raises_ite (fun _ => raises_ok _) fun _ => prefixLoop_raises systemUse maximum rounds _

theorem recordSystemUse_raises (systemUse : List Byte) (available : ℕ) :
    Raises Other (recordSystemUse systemUse available area) := by
  refine raises_ite (fun _ => raises_ok _) fun _ => ?_
  refine raises_ite (fun _ => raises_error (unsupported _)) fun _ => ?_
  have hloop := prefixLoop_raises systemUse (available - 28) systemUse.length 0
  change Raises Other (suspFieldPrefix systemUse (available - 28)) at hloop
  cases h : suspFieldPrefix systemUse (available - 28) with
  | error e => exact raises_error (hloop e h)
  | ok inline =>
    refine raises_ite (fun _ => raises_error (malformed _)) fun _ => ?_
    cases area with
    | some a => exact raises_map _ (append_raises a _)
    | none =>
      exact raises_ite (fun _ => raises_error (limit _)) fun _ => raises_map _ (suspField_raises _ _)

theorem continuedDirectoryRecord_raises (identifier : List Byte) (lba size : ℕ) (directory : Bool)
    (time systemUse : List Byte) : Raises Other
      (continuedDirectoryRecord identifier lba size directory time systemUse area) := by
  refine raises_guard (fun _ => unsupported _) fun _ => ?_
  refine raises_bind (recordSystemUse_raises _ _) fun _ _ => ?_
  refine raises_guard (fun _ => limit _) fun _ => ?_
  exact raises_guard (fun _ => unsupported _) fun _ => raises_pure _

theorem directoryRecord_raises (identifier : List Byte) (lba size : ℕ) (directory : Bool)
    (time systemUse : List Byte) :
    Raises Other (directoryRecord identifier lba size directory time systemUse) :=
  raises_map _ (continuedDirectoryRecord_raises _ _ _ _ _ _)

/-! ### Directories -/

theorem attributesField_raises (n : IsoNode) (index : ℕ) : Raises Other (attributesField n index) := by
  refine raises_bind (u32Value_raises _ _) fun _ _ => ?_
  refine raises_bind (u32Value_raises _ _) fun _ _ => ?_
  refine raises_bind (u32Value_raises _ _) fun _ _ => ?_
  exact raises_bind (u32Value_raises _ _) fun _ _ => suspField_raises _ _

theorem deviceField_raises (n : IsoNode) : Raises Other (deviceField n) := by
  unfold deviceField
  cases n.metadata.bind EntryMetadata.referencedDevice with
  | none => exact raises_ok _
  | some device =>
    refine raises_bind (u32Value_raises _ _) fun _ _ => ?_
    exact raises_bind (u32Value_raises _ _) fun _ _ => suspField_raises _ _

theorem missingTarget : Other (isoError .protocol "ISO symlink target is missing") :=
  other_of_context (by simp) (by simp)

theorem linkFields_raises (n : IsoNode) : Raises Other (linkFields n) :=
  raises_ite (fun _ => raises_bind (raises_okOr missingTarget) fun _ _ => symbolicLinkFields_raises _)
    fun _ => raises_ok _

theorem keptFields_raises (n : IsoNode) : Raises Other (keptFields n) := by
  unfold keptFields
  cases n.metadata with
  | none => exact raises_ok _
  | some m =>
    refine raises_bind ?_ fun _ _ =>
      raises_bind (raises_mapM rawSystemUse_raises _) fun _ _ => raises_pure _
    cases timestampField m.times with
    | none => exact raises_ok _
    | some tf => exact suspField_raises _ _

theorem rockRidgeSystemUse_raises (n : IsoNode) (index : ℕ) (root dotRecord : Bool) :
    Raises Other (rockRidgeSystemUse n index root dotRecord) := by
  refine raises_bind (suspField_raises _ _) fun _ _ => ?_
  refine raises_bind (raises_ite (fun _ => raises_ok _) fun _ => nmFields_raises _) fun _ _ => ?_
  refine raises_bind (attributesField_raises n index) fun _ _ => ?_
  refine raises_bind (deviceField_raises n) fun _ _ => ?_
  refine raises_bind (linkFields_raises n) fun _ _ => ?_
  exact raises_bind (keptFields_raises n) fun _ _ => raises_pure _

theorem directoryRecordForChild_raises (child : ℕ) (joliet : Bool) :
    Raises Other (directoryRecordForChild nodes child joliet area) := by
  refine raises_bind ?_ fun _ _ => continuedDirectoryRecord_raises _ _ _ _ _ _
  exact raises_ite (fun _ => raises_ok _) fun _ => rockRidgeSystemUse_raises _ _ _ _

theorem childRecords_raises (joliet : Bool) : ∀ (children : List ℕ)
    (area : Option SuspContinuationArea), Raises Other (childRecords nodes joliet children area)
  | [], _ => raises_ok _
  | child :: children, area => by
    rw [childRecords]
    cases h : directoryRecordForChild nodes child joliet area with
    | error e => exact raises_error (directoryRecordForChild_raises child joliet e h)
    | ok x =>
      dsimp only
      cases h' : childRecords nodes joliet children x.2 with
      | error e => exact raises_error (childRecords_raises joliet children x.2 e h')
      | ok y => exact raises_ok _

theorem buildDirectoryRecords_raises (directory : ℕ) (joliet : Bool)
    (area : Option SuspContinuationArea) :
    Raises Other (buildDirectoryRecords nodes directory joliet area) := by
  refine raises_bind ?_ fun _ _ => ?_
  · exact raises_ite (fun _ => raises_ok _) fun _ => rockRidgeSystemUse_raises _ _ _ _
  · refine raises_bind (continuedDirectoryRecord_raises _ _ _ _ _ _) fun _ _ => ?_
    refine raises_bind (directoryRecord_raises _ _ _ _ _ _) fun _ _ => ?_
    exact raises_bind (childRecords_raises _ _ _) fun _ _ => raises_pure _

/-! ### The plan -/

theorem numberChildren_raises (parentNumber : ℕ) : ∀ (children : List ℕ) (nodes : List IsoNode)
    (number : ℕ), Raises Other (numberChildren parentNumber children nodes number)
  | [], _, _ => raises_ok _
  | _ :: children, _, _ => raises_ite (fun _ => raises_error (limit _)) fun _ =>
      numberChildren_raises parentNumber children _ _

theorem orderLoop_raises : ∀ {rounds number : ℕ} {queue order : List ℕ} {nodes : List IsoNode}
    {r : Except StreamError (List ℕ × List IsoNode)},
    orderLoop rounds queue number order nodes = some r → Raises Other r
  | _, _, [], _, _, r, h => by
    rw [orderLoop, Option.some.injEq] at h
    exact h ▸ raises_ok _
  | rounds + 1, number, directory :: queue, order, nodes, r, h => by
    rw [orderLoop] at h
    split at h
    · next e he =>
      rw [Option.some.injEq] at h
      exact h ▸ raises_error (numberChildren_raises _ _ _ _ e he)
    · exact orderLoop_raises h

theorem validateIdentifier_raises (identifier : List Byte) :
    Raises Other (validateIdentifier identifier) :=
  raises_ite (fun _ => raises_error (unsupported _)) fun _ => raises_ok _

theorem validateDirectory_raises (directory : ℕ) (joliet : Bool) :
    Raises Other (validateDirectory nodes directory joliet) := by
  refine raises_bind (validateIdentifier_raises _) fun _ _ => raises_forM (fun child => ?_) _
  refine raises_bind (validateIdentifier_raises _) fun _ _ => ?_
  exact raises_bind (directoryRecordForChild_raises _ _) fun _ _ => raises_pure _

theorem validateIdentifiers_raises (order : List ℕ) :
    Raises Other (validateIdentifiers nodes order) :=
  raises_forM (fun directory => raises_bind (validateDirectory_raises directory false) fun _ _ =>
    validateDirectory_raises directory true) _

theorem sizeDirectories_raises : ∀ (order : List ℕ) (nodes : List IsoNode),
    Raises Other (sizeDirectories order nodes)
  | [], _ => raises_ok _
  | directory :: order, nodes => by
    refine raises_bind (buildDirectoryRecords_raises _ _ _) fun _ _ => ?_
    refine raises_bind (buildDirectoryRecords_raises _ _ _) fun _ _ => ?_
    refine raises_guard (fun _ => limit _) fun _ => ?_
    exact raises_guard (fun _ => limit _) fun _ => sizeDirectories_raises order _

theorem probeContinuations_raises : ∀ (order : List ℕ) (area : Option SuspContinuationArea),
    Raises Other (probeContinuations nodes order area)
  | [], _ => raises_ok _
  | directory :: order, area => by
    rw [probeContinuations]
    cases h : buildDirectoryRecords nodes directory false area with
    | error e => exact raises_error (buildDirectoryRecords_raises _ _ _ e h)
    | ok x => exact probeContinuations_raises order x.2

theorem checkFinalMetadataSize_raises {limits : Limits} {order : List ℕ}
    {primaryPath jolietPath continuationSize : ℕ} : Raises Other
      (checkFinalMetadataSize nodes limits order primaryPath jolietPath continuationSize) := by
  refine raises_bind ?_ fun _ _ => raises_bind (raises_okOr (limit _)) fun _ _ =>
    raises_check fun _ => limit _
  exact raises_ite (fun _ => raises_ok _) fun _ => raises_okOr (limit _)

theorem advanceLba_raises (lba bytes : ℕ) : Raises Other (advanceLba lba bytes) := by
  refine raises_ite (fun _ => raises_error (limit _)) fun _ => ?_
  exact raises_ite (fun _ => raises_error (limit _)) fun _ => raises_ok _

theorem placeDirectories_raises (joliet : Bool) : ∀ (order : List ℕ) (nodes : List IsoNode)
    (lba : ℕ), Raises Other (placeDirectories joliet order nodes lba)
  | [], _, _ => raises_ok _
  | _ :: order, _, _ => raises_bind (advanceLba_raises _ _) fun _ _ =>
      placeDirectories_raises joliet order _ _

theorem planLayout_raises (order : List ℕ) (primaryPath jolietPath continuationSize lba : ℕ) :
    Raises Other (planLayout nodes order primaryPath jolietPath continuationSize lba) := by
  refine raises_bind (advanceLba_raises _ _) fun _ _ => ?_
  refine raises_bind (advanceLba_raises _ _) fun _ _ => ?_
  refine raises_bind (advanceLba_raises _ _) fun _ _ => ?_
  refine raises_bind (advanceLba_raises _ _) fun _ _ => ?_
  refine raises_bind (placeDirectories_raises _ _ _ _) fun _ _ => ?_
  refine raises_bind (advanceLba_raises _ _) fun _ _ => ?_
  exact raises_bind (placeDirectories_raises _ _ _ _) fun _ _ => raises_pure _

theorem notAligned : Other (isoError .protocol "ISO output cursor is not sector aligned") :=
  other_of_context (by simp) (by simp)

/-- **The errors of the plan.** -/
theorem plan_raises (w : IsoSeekWriter) (order : List ℕ) (nodes : List IsoNode) :
    Raises Other (plan w order nodes) := by
  refine raises_bind (validateIdentifiers_raises _) fun _ _ => ?_
  refine raises_bind (sizeDirectories_raises _ _) fun _ _ => ?_
  refine raises_bind (probeContinuations_raises _ _) fun _ _ => ?_
  refine raises_bind checkFinalMetadataSize_raises fun _ _ => ?_
  refine raises_bind ?_ fun _ _ => raises_bind (planLayout_raises _ _ _ _ _) fun _ _ => raises_pure _
  refine raises_ite (fun _ => raises_error notAligned) fun _ => ?_
  exact raises_ite (fun _ => raises_error (limit _)) fun _ => raises_ok _

/-! ### Writing -/

theorem buildPathTable_raises (order : List ℕ) (joliet bigEndian : Bool) :
    Raises Other (buildPathTable nodes order joliet bigEndian) :=
  raises_map _ (raises_mapM (fun _ => raises_ite (fun _ => raises_error (unsupported _))
    fun _ => raises_ok _) _)

theorem emitPathTables_raises (order : List ℕ) (output : Output) :
    Raises Other (emitPathTables nodes order output) := by
  refine raises_bind (buildPathTable_raises _ _ _) fun _ _ => ?_
  refine raises_bind (buildPathTable_raises _ _ _) fun _ _ => ?_
  refine raises_bind (buildPathTable_raises _ _ _) fun _ _ => ?_
  exact raises_bind (buildPathTable_raises _ _ _) fun _ _ => raises_pure _

theorem emitDirectories_raises (joliet : Bool) : ∀ (order : List ℕ) (output : Output)
    (area : Option SuspContinuationArea), Raises Other (emitDirectories nodes joliet order output area)
  | [], _, _ => raises_ok _
  | directory :: order, output, area => by
    rw [emitDirectories]
    cases h : buildDirectoryRecords nodes directory joliet area with
    | error e => exact raises_error (buildDirectoryRecords_raises _ _ _ e h)
    | ok x => exact emitDirectories_raises joliet order _ x.2

theorem volumeDescriptor_raises (layout : VolumeDescriptor) (metadata : ArchiveMetadata) :
    Raises Other (volumeDescriptor layout metadata) :=
  raises_guard (fun _ => limit _) fun _ =>
    raises_bind (directoryRecord_raises _ _ _ _ _ _) fun _ _ => raises_pure _

theorem emitDescriptors_raises (layout : Layout) (metadata : ArchiveMetadata)
    (primaryPath jolietPath : ℕ) (output : Output) :
    Raises Other (emitDescriptors layout metadata primaryPath jolietPath output) := by
  refine raises_bind (volumeDescriptor_raises _ _) fun _ _ => ?_
  exact raises_bind (volumeDescriptor_raises _ _) fun _ _ => raises_pure _

end LibarchiveOxide.Iso.Failures
