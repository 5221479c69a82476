import LibarchiveOxide.Lib.Result
import LibarchiveOxide.Oci.Apply
import LibarchiveOxide.Oci.Soundness

/-! # The plan and its application run in step

The planner makes one operation for each entry that is not structural, and the driver takes one for
each such entry. So with an adapter that never fails the calls are those of the operations, each with
the data of its own entry (`driveApply_aligned`). -/

namespace LibarchiveOxide.Oci.Alignment

open Core.Failure Core.Metadata Stream.Event Extract.Path Extract.Plan Extract.Filesystem Oci.Plan
open Oci.Plan.OciLayerPlanner Oci.Apply Lib.Result

/-! ### The operations of a plan -/

/-- The archive path an operation is about. -/
def pathOf : OciPlanOperation → ArchivePath
  | .materialize m | .mapOwnership m => m.metadata.path
  | .whiteout r | .opaqueDir r => r.path
  | .reject r => r.path

variable {host : Host}

/-- The operations for some entries. -/
def planned (p : OciLayerPlanner host) : List EntryMetadata → List OciPlanOperation
  | [] => []
  | m :: rest =>
    if isStructuralSkip m then planned p rest
    else (p.planOperation m).1 :: planned (p.observe m) rest

theorem operations_observeAll (entries : List EntryMetadata) : ∀ p : OciLayerPlanner host,
    (p.observeAll entries).operations = p.operations ++ planned p entries := by
  induction entries with
  | nil =>
    intro p
    exact (List.append_nil _).symm
  | cons m rest ih =>
    intro p
    show ((p.observe m).observeAll rest).operations = _
    rw [ih, planned]
    split_ifs with hskip
    · rw [observe, if_pos hskip]
    · rw [observe_eq p (by simpa using hskip)]
      simp only [(operations_of_decided (decided_planOperation p m)).1, List.append_assoc,
        List.singleton_append]

theorem pathOf_of_decided {p p' : OciLayerPlanner host} {m : EntryMetadata} {op : OciPlanOperation}
    (h : Decided p m op p') : pathOf op = m.path := by
  cases h with
  | placed =>
    unfold materializeAs
    dsimp only
    split_ifs
    · rfl
    · rfl
  | _ => rfl

/-! ### Layers -/

/-- An entry of a layer with the archive metadata before it and its data windows. -/
structure Member where
  notes : List ArchiveMetadata
  metadata : EntryMetadata
  windows : List (List Byte)

def Member.events (x : Member) : List ReaderEvent :=
  x.notes.map .archiveMetadata ++ .entry x.metadata :: (x.windows.map .data ++ [.endEntry])

/-- The events of a well-formed layer. -/
def layerOf (members : List Member) (notes : List ArchiveMetadata) : Events :=
  ⟨members.flatMap Member.events ++ notes.map .archiveMetadata, .ok ()⟩

/-- The entries that are not structural. -/
def substantial (members : List Member) : List Member :=
  members.filter fun x => !isStructuralSkip x.metadata

/-- The operations for the entries of a layer, each about the path of its entry. -/
theorem planned_aligned (members : List Member) : ∀ p : OciLayerPlanner host,
    List.Forall₂ (fun op x => pathOf op = x.metadata.path)
      (planned p (members.map Member.metadata)) (substantial members) := by
  induction members with
  | nil =>
    intro p
    exact .nil
  | cons x rest ih =>
    intro p
    rw [List.map_cons, planned, substantial, List.filter_cons]
    split_ifs with h1 h2 h2
    · simp [h1] at h2
    · exact ih p
    · exact .cons (pathOf_of_decided (decided_planOperation p x.metadata)) (ih _)
    · simp [h1] at h2

/-! ### The calls -/

/-- The calls of an operation, with the data of its entry. -/
def callsOf (overwrite : Bool) : OciPlanOperation → List (List Byte) → List Call
  | .materialize m, windows | .mapOwnership m, windows =>
    .beginEntry ⟨m.metadata, m.destination, m.linkTarget, overwrite⟩ ::
      (windows.map .writeData ++ [.finishEntry])
  | .whiteout r, _ => [.removePath ⟨r.path, r.destination⟩]
  | .opaqueDir r, _ => [.clearDirectory ⟨r.path, r.destination⟩]
  | .reject _, _ => []

/-- The sum of the tallies. -/
def Counts.total (c : Counts) : ℕ := c.materialized + c.removed + c.cleared + c.rejected

theorem saturatingSucc_of_lt {n : ℕ} (h : n < u64Max) : saturatingSucc n = n + 1 := by
  unfold saturatingSucc
  omega

section
variable {a : FilesystemAdapter} {overwrite : Bool} {s : ApplyState}

theorem applyEvents_append (l l' : List ReaderEvent) : ∀ s : ApplyState,
    applyEvents a overwrite s (l ++ l') =
      applyEvents a overwrite s l >>= fun s => applyEvents a overwrite s l' := by
  induction l with
  | nil =>
    intro s
    rfl
  | cons e l ih =>
    intro s
    rw [List.cons_append, applyEvents, applyEvents, bind_assoc]
    congr 1
    funext s'
    exact ih s'

theorem applyEvents_notes (notes : List ArchiveMetadata) :
    applyEvents a overwrite s (notes.map .archiveMetadata) = .ok s := by
  induction notes with
  | nil => rfl
  | cons m notes ih => exact ih

/-- Data of an entry that is not materialized is passed over. -/
theorem applyEvents_data_ignored (h : ∀ m, s.active ≠ some (.materialize m))
    (windows : List (List Byte)) :
    applyEvents a overwrite s (windows.map .data) = .ok s := by
  induction windows with
  | nil => rfl
  | cons w windows ih =>
    rw [List.map_cons, applyEvents]
    have hstep : applyEvent a overwrite s (.data w) = .ok s := by
      rw [applyEvent]
      split
      · next m hm => exact absurd hm (h m)
      · rfl
    rw [hstep]
    exact ih

theorem applyEvents_data_written (ha : a.Obliging) {m : OciMaterialize}
    (windows : List (List Byte)) : ∀ {s : ApplyState}, s.active = some (.materialize m) →
    applyEvents a overwrite s (windows.map .data) =
      .ok { s with log := s.log ++ windows.map .writeData } := by
  induction windows with
  | nil =>
    intro s _
    simp only [List.map_nil, List.append_nil]
    rfl
  | cons w windows ih =>
    intro s h
    obtain ⟨⟨⟩, hw⟩ := ha.writeData s.log w
    have hstep : applyEvent a overwrite s (.data w) = .ok { s with log := s.log ++ [.writeData w] } := by
      rw [applyEvent, h]
      dsimp only
      rw [hw]
    have hrest := ih (s := { s with log := s.log ++ [.writeData w] }) h
    rw [List.map_cons, applyEvents, hstep, ok_bind, hrest]
    simp

/-- What an operation leaves behind: its calls are made and it is counted. -/
structure Advanced (overwrite : Bool) (s s' : ApplyState) (op : OciPlanOperation)
    (windows : List (List Byte)) : Prop where
  active : s'.active = none
  operations : s'.operations = s.operations
  log : s'.log = s.log ++ callsOf overwrite op windows
  counted : Counts.total s.counts < u64Max → Counts.total s'.counts = Counts.total s.counts + 1

theorem total_finished {c : Counts} (h : Counts.total c < u64Max) (m : FilesystemMaterialization) :
    Counts.total (c.finished m) = Counts.total c + 1 := by
  unfold Counts.total at h ⊢
  cases m with
  | destinationExists | failed =>
    simp only [Counts.finished]
    rw [saturatingSucc_of_lt (by omega)]
    omega
  | _ =>
    simp only [Counts.finished]
    rw [saturatingSucc_of_lt (by omega)]
    omega

/-- The body and the end of an entry whose operation has begun. -/
theorem applyEvents_body (overwrite : Bool) (s : ApplyState) (ha : a.Obliging) (op : OciPlanOperation) (windows : List (List Byte)) :
    ∃ active log, beginOperation a overwrite s.log op = .ok (active, log) ∧
      ∃ s', applyEvents a overwrite { s with active := some active, log }
          (windows.map .data ++ [.endEntry]) = .ok s' ∧ Advanced overwrite s s' op windows := by
  have hmat : ∀ m : OciMaterialize, op.placed? = some m →
      ∃ active log, beginOperation a overwrite s.log op = .ok (active, log) ∧
      ∃ s', applyEvents a overwrite { s with active := some active, log }
          (windows.map .data ++ [.endEntry]) = .ok s' ∧ Advanced overwrite s s' op windows := by
    intro m hm
    let entry : FilesystemEntry := ⟨m.metadata, m.destination, m.linkTarget, overwrite⟩
    obtain ⟨⟨⟩, hb⟩ := ha.beginEntry s.log entry
    obtain ⟨report, hf⟩ := ha.finishEntry (s.log ++ [.beginEntry entry] ++ windows.map .writeData)
    have hbegin : beginOperation a overwrite s.log op =
        .ok (.materialize m, s.log ++ [.beginEntry entry]) := by
      cases op with
      | materialize m' | mapOwnership m' =>
        cases hm
        rw [beginOperation, hb]
      | _ => cases hm
    have hcalls : callsOf overwrite op windows =
        .beginEntry entry :: (windows.map .writeData ++ [.finishEntry]) := by
      cases op with
      | materialize m' | mapOwnership m' =>
        cases hm
        rfl
      | _ => cases hm
    refine ⟨_, _, hbegin, ?_⟩
    rw [applyEvents_append, applyEvents_data_written ha windows rfl, ok_bind]
    simp only [applyEvents, applyEvent, finishOperation, hf, ok_bind]
    refine ⟨_, rfl, rfl, rfl, ?_, fun h => total_finished h _⟩
    rw [hcalls]
    simp
  have hskip : ∀ active : Active, (∀ m, active ≠ .materialize m) →
      applyEvents a overwrite { s with active := some active } (windows.map .data ++ [.endEntry]) =
        finishOperation a { s with active := none } active >>= fun s => .ok s := by
    intro active hne
    rw [applyEvents_append, applyEvents_data_ignored (by simpa using hne), ok_bind]
    rfl
  cases op with
  | materialize m => exact hmat m rfl
  | mapOwnership m => exact hmat m rfl
  | whiteout r =>
    obtain ⟨finding, hr⟩ := ha.removePath s.log ⟨r.path, r.destination⟩
    refine ⟨.whiteout r, s.log, rfl, ?_⟩
    rw [hskip _ (by simp)]
    simp only [finishOperation, hr, ok_bind]
    refine ⟨_, rfl, rfl, rfl, rfl, ?_⟩
    intro h
    unfold Counts.total at h ⊢
    simp only
    rw [saturatingSucc_of_lt (by omega)]
    omega
  | opaqueDir r =>
    obtain ⟨finding, hr⟩ := ha.clearDirectory s.log ⟨r.path, r.destination⟩
    refine ⟨.opaqueDir r, s.log, rfl, ?_⟩
    rw [hskip _ (by simp)]
    simp only [finishOperation, hr, ok_bind]
    refine ⟨_, rfl, rfl, rfl, rfl, ?_⟩
    intro h
    unfold Counts.total at h ⊢
    simp only
    rw [saturatingSucc_of_lt (by omega)]
    omega
  | reject r =>
    refine ⟨.reject r, s.log, rfl, ?_⟩
    rw [hskip _ (by simp)]
    refine ⟨_, rfl, rfl, rfl, (List.append_nil _).symm, ?_⟩
    intro h
    unfold Counts.total at h ⊢
    simp only
    rw [saturatingSucc_of_lt (by omega)]
    omega

/-- **One entry of a layer**: a structural one changes nothing, any other one takes an operation. -/
theorem applyEvents_member (overwrite : Bool) (ha : a.Obliging) (x : Member) (hs : s.active = none) :
    (isStructuralSkip x.metadata = true → applyEvents a overwrite s x.events = .ok s) ∧
    (isStructuralSkip x.metadata = false → ∀ op rest, s.operations = op :: rest →
      ∃ s', applyEvents a overwrite s x.events = .ok s' ∧
        Advanced overwrite { s with operations := rest } s' op x.windows) := by
  have hev : applyEvents a overwrite s x.events =
      applyEvent a overwrite s (.entry x.metadata) >>= fun s =>
        applyEvents a overwrite s (x.windows.map .data ++ [.endEntry]) := by
    rw [Member.events, applyEvents_append, applyEvents_notes]
    rfl
  constructor
  · intro hskip
    have hentry : applyEvent a overwrite s (.entry x.metadata) = .ok { s with active := some .skip } := by
      rw [applyEvent, hs, if_neg (by simp), if_pos hskip]
    rw [hev, hentry, ok_bind, applyEvents_append, applyEvents_data_ignored (by simp), ok_bind]
    simp only [applyEvents, applyEvent, finishOperation, ok_bind]
    rw [← hs]
  · intro hskip op rest hops
    obtain ⟨active, log, hbegin, s', hbody, hadv⟩ :=
      applyEvents_body overwrite { s with operations := rest } ha op x.windows
    have hentry : applyEvent a overwrite s (.entry x.metadata) =
        .ok { s with operations := rest, active := some active, log } := by
      rw [applyEvent, hs, if_neg (by simp), if_neg (by simp [hskip]), hops]
      dsimp only
      simp only at hbegin
      rw [hbegin, ok_bind]
      rfl
    rw [hev, hentry, ok_bind]
    exact ⟨s', hbody, hadv⟩

/-- All entries of a layer, with exactly the operations they take. -/
theorem applyEvents_members (overwrite : Bool) (ha : a.Obliging) : ∀ (members : List Member)
    {s : ApplyState} {ops : List OciPlanOperation}, s.active = none → s.operations = ops →
    ops.length = (substantial members).length →
    ∃ s', applyEvents a overwrite s (members.flatMap Member.events) = .ok s' ∧ s'.active = none ∧
      s'.operations = [] ∧
      s'.log = s.log ++ ((ops.zip (substantial members)).flatMap fun x =>
        callsOf overwrite x.1 x.2.windows) ∧
      (Counts.total s.counts + ops.length ≤ u64Max →
        Counts.total s'.counts = Counts.total s.counts + ops.length)
  | [], s, ops, hs, hops, hlen => by
    have hnil : ops = [] := List.length_eq_zero_iff.mp hlen
    subst hnil
    exact ⟨s, rfl, hs, hops, (List.append_nil _).symm, fun _ => rfl⟩
  | x :: members, s, ops, hs, hops, hlen => by
    rw [List.flatMap_cons, applyEvents_append]
    obtain ⟨hskip, htake⟩ := applyEvents_member overwrite ha x hs
    by_cases hx : isStructuralSkip x.metadata = true
    · have hsub : substantial (x :: members) = substantial members := by
        rw [substantial, List.filter_cons_of_neg (by simp [hx]), ← substantial]
      rw [hskip hx, ok_bind, hsub]
      rw [hsub] at hlen
      exact applyEvents_members overwrite ha members hs hops hlen
    · have hx' : isStructuralSkip x.metadata = false := by simpa using hx
      have hsub : substantial (x :: members) = x :: substantial members := by
        rw [substantial, List.filter_cons_of_pos (by simp [hx']), ← substantial]
      rw [hsub] at hlen ⊢
      obtain ⟨op, rest, rfl⟩ : ∃ op rest, ops = op :: rest := by
        cases ops with
        | nil => simp at hlen
        | cons op rest => exact ⟨op, rest, rfl⟩
      obtain ⟨s1, hs1, hadv⟩ := htake hx' op rest hops
      have hlen' : rest.length = (substantial members).length := by simpa using hlen
      obtain ⟨s', hs', hact, hnone, hlog, hcount⟩ :=
        applyEvents_members overwrite ha members hadv.active hadv.operations hlen'
      rw [hs1, ok_bind]
      refine ⟨s', hs', hact, hnone, ?_, ?_⟩
      · rw [hlog, hadv.log, List.zip_cons_cons, List.flatMap_cons]
        simp
      · intro hb
        rw [List.length_cons] at hb ⊢
        have h1 := hadv.counted (by simp only; omega)
        simp only at h1 hcount
        rw [hcount (by omega)]
        omega

end

/-- The calls for a layer whose entries the planner has seen. -/
theorem driveApply_calls (host : Host) (policy : Policy) (mapOwner : Owner → Owner)
    (members : List Member) (notes : List ArchiveMetadata) (a : FilesystemAdapter) (ha : a.Obliging) :
    let operations := ((OciLayerPlanner.new host policy mapOwner).observeAll
      (members.map Member.metadata)).operations
    List.Forall₂ (fun op x => pathOf op = x.metadata.path) operations (substantial members) ∧
      ∃ report, driveApply a policy operations (layerOf members notes) = .ok (report,
          .beginSession :: (((operations.zip (substantial members)).flatMap fun x =>
            callsOf policy.overwrite x.1 x.2.windows) ++ [.finishSession])) ∧
        (operations.length ≤ u64Max → Counts.total report.counts = operations.length) := by
  intro operations
  have hops : operations = planned (OciLayerPlanner.new host policy mapOwner)
      (members.map Member.metadata) := operations_observeAll _ _
  have haligned : List.Forall₂ (fun op x => pathOf op = x.metadata.path) operations
      (substantial members) := hops ▸ planned_aligned members _
  refine ⟨haligned, ?_⟩
  obtain ⟨⟨⟩, hbegin⟩ := ha.beginSession []
  obtain ⟨s', hs', -, hnone, hlog, hcount⟩ := applyEvents_members policy.overwrite ha
    members (s := { operations, log := [.beginSession] }) rfl rfl haligned.length_eq
  obtain ⟨deferred, hfinish⟩ := ha.finishSession s'.log
  refine ⟨⟨s'.findings ++ deferred, s'.counts⟩, ?_, ?_⟩
  · rw [driveApply, hbegin]
    simp only [layerOf]
    rw [applyEvents_append, hs', ok_bind, applyEvents_notes, ok_bind, finishApply]
    simp only [hnone, hfinish]
    rw [hlog]
    simp
  · intro hle
    have hzero : Counts.total ({} : Counts) = 0 := rfl
    have h := hcount (by rw [hzero, Nat.zero_add]; exact hle)
    rw [hzero, Nat.zero_add] at h
    exact h

/-- **The plan and its application run in step.** If the planner has seen the entries of a well-formed
layer in order and no call of the adapter fails, the driver succeeds, the calls are those of the
operations in order, operation `i` with the data of the `i`-th entry that is not structural, and the
tallies add up to the number of operations. The number of entries is a `usize`. -/
theorem driveApply_aligned (host : Host) (policy : Policy) (mapOwner : Owner → Owner)
    (members : List Member) (notes : List ArchiveMetadata) (a : FilesystemAdapter) (ha : a.Obliging)
    (hlen : members.length ≤ u64Max) :
    let operations := ((OciLayerPlanner.new host policy mapOwner).observeAll
      (members.map Member.metadata)).operations
    List.Forall₂ (fun op x => pathOf op = x.metadata.path) operations (substantial members) ∧
      ∃ report, driveApply a policy operations (layerOf members notes) = .ok (report,
          .beginSession :: (((operations.zip (substantial members)).flatMap fun x =>
            callsOf policy.overwrite x.1 x.2.windows) ++ [.finishSession])) ∧
        Counts.total report.counts = operations.length := by
  intro operations
  obtain ⟨haligned, report, hrun, hcount⟩ :=
    driveApply_calls host policy mapOwner members notes a ha
  have hle : operations.length ≤ u64Max := by
    rw [haligned.length_eq]
    exact (List.length_filter_le _ _).trans hlen
  exact ⟨haligned, report, hrun, hcount hle⟩

/-- An adapter that reports every entry as a file. -/
def fileAdapter : FilesystemAdapter where
  capabilities _ := {}
  beginSession _ := .ok ()
  beginEntry _ _ := .ok ()
  writeData _ _ := .ok ()
  finishEntry _ := .ok ⟨.file, []⟩
  finishSession _ := .ok []
  removePath _ r := .ok (.applied r.path .removePath)
  clearDirectory _ r := .ok (.applied r.path .clearDirectory)

theorem fileAdapter_obliging : fileAdapter.Obliging :=
  ⟨fun _ => ⟨_, rfl⟩, fun _ _ => ⟨_, rfl⟩, fun _ _ => ⟨_, rfl⟩, fun _ => ⟨_, rfl⟩, fun _ => ⟨_, rfl⟩,
    fun _ _ => ⟨_, rfl⟩, fun _ _ => ⟨_, rfl⟩⟩

/-- A layer with a file of two data windows, applied with that adapter. -/
theorem driveApply_aligned_file :
    let x : Member := ⟨[], { kind := .file, path := .fromBytes (bstr "a") }, [[1], [2, 3]]⟩
    let operations := ((OciLayerPlanner.new (.unix true) {} id).observeAll [x.metadata]).operations
    fileAdapter.Obliging ∧ [x].length ≤ u64Max ∧
      ∃ report, driveApply fileAdapter {} operations (layerOf [x] []) = .ok (report,
          .beginSession :: (((operations.zip (substantial [x])).flatMap fun x =>
            callsOf false x.1 x.2.windows) ++ [.finishSession])) ∧
        Counts.total report.counts = operations.length :=
  ⟨fileAdapter_obliging, by decide,
    (driveApply_aligned (.unix true) {} id [_] [] fileAdapter fileAdapter_obliging (by decide)).2⟩

end LibarchiveOxide.Oci.Alignment
