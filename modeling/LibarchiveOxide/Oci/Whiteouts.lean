import LibarchiveOxide.Oci.Alignment
import LibarchiveOxide.Oci.Soundness

/-! # Markers and the entries of their own layer

`Disk` is the filesystem behind an adapter: a map from destinations to contents that the calls
change. The operations of a layer run in archive order, so a marker deletes what the layer itself has
placed before. `driveApply_survives_iff` says exactly when it does not. -/

namespace LibarchiveOxide.Oci.Whiteouts

open Core.Failure Core.Metadata Stream.Event Extract.Path Extract.Plan Extract.Filesystem
open Extract.Topology Oci.Plan Oci.Soundness Oci.Plan.OciLayerPlanner Oci.Apply Oci.Alignment
open Lib.Result

/-! ### The filesystem -/

/-- What stands at a destination. -/
structure Content where
  metadata : EntryMetadata
  linkTarget : Option (List Component)
  data : List Byte
deriving DecidableEq

/-- The place of a destination: spellings with one identity are one place. -/
def place (host : Host) (destination : List Component) : List Component :=
  (destination.mapM host.identity).getD destination

/-- A filesystem, and the entry that is being written. -/
structure Disk where
  files : List Component → Option Content
  pending : Option (List Component × Content) := none

/-- What a call does to the filesystem. -/
def Disk.call (host : Host) (d : Disk) : Call → Disk
  | .beginSession | .finishSession => d
  | .beginEntry e =>
    { d with pending := some (place host e.destination, ⟨e.metadata, e.linkTarget, []⟩) }
  | .writeData bytes =>
    { d with pending := d.pending.map fun (k, c) => (k, { c with data := c.data ++ bytes }) }
  | .finishEntry =>
    match d.pending with
    | some (k, c) => { files := Function.update d.files k (some c) }
    | none => d
  | .abortEntry => { d with pending := none }
  | .removePath r =>
    { d with files := fun k => if place host r.destination <+: k then none else d.files k }
  | .clearDirectory r =>
    { d with files := fun k =>
        if place host r.destination <+: k ∧ place host r.destination ≠ k then none else d.files k }

/-- The filesystem after some calls on a lower one. -/
def replay (host : Host) (lower : List Component → Option Content) (calls : List Call) : Disk :=
  calls.foldl (Disk.call host) { files := lower }

/-- The operation deletes what stands at the place. -/
def Deletes (host : Host) : OciPlanOperation → List Component → Prop
  | .whiteout r, k => place host r.destination <+: k
  | .opaqueDir r, k => place host r.destination <+: k ∧ place host r.destination ≠ k
  | _, _ => False

/-- What a materialization leaves at its destination. -/
def contentOf (o : OciMaterialize) (windows : List (List Byte)) : Content :=
  ⟨o.metadata, o.linkTarget, windows.flatten⟩

theorem foldl_writeData {host : Host} (windows : List (List Byte)) : ∀ (d : Disk) (c : Content)
    (k : List Component), d.pending = some (k, c) →
    (windows.map Call.writeData).foldl (Disk.call host) d =
      { d with pending := some (k, { c with data := c.data ++ windows.flatten }) } := by
  induction windows with
  | nil =>
    intro d c k h
    simp only [List.map_nil, List.foldl_nil, List.flatten_nil, List.append_nil]
    rw [← h]
  | cons w windows ih =>
    intro d c k h
    rw [List.map_cons, List.foldl_cons, ih _ { c with data := c.data ++ w } k]
    · simp [Disk.call]
    · simp [Disk.call, h]

/-- **What the calls of an operation do**: a materialization is put at its place, and what the
operation deletes is gone. -/
theorem foldl_callsOf (host : Host) (overwrite : Bool) (op : OciPlanOperation)
    (windows : List (List Byte)) {d : Disk} (hd : d.pending = none) :
    ∃ d', (callsOf overwrite op windows).foldl (Disk.call host) d = d' ∧ d'.pending = none ∧
      (∀ o, op.placed? = some o →
        d'.files = Function.update d.files (place host o.destination) (some (contentOf o windows))) ∧
      (op.placed? = none → ∀ k, (Deletes host op k → d'.files k = none) ∧
        (¬ Deletes host op k → d'.files k = d.files k)) := by
  have hplaced : ∀ o, op.placed? = some o → callsOf overwrite op windows =
      .beginEntry ⟨o.metadata, o.destination, o.linkTarget, overwrite⟩ ::
        (windows.map .writeData ++ [.finishEntry]) := by
    intro o ho
    cases op with
    | materialize o' | mapOwnership o' =>
      cases ho
      rfl
    | _ => cases ho
  cases ho : op.placed? with
  | some o =>
    rw [hplaced o ho, List.foldl_cons, List.foldl_append, foldl_writeData windows _ _ _ rfl]
    refine ⟨_, rfl, rfl, ?_, by simp⟩
    rintro _ ⟨⟩
    rfl
  | none =>
    refine ⟨_, rfl, ?_, by simp, ?_⟩
    · cases op with
      | materialize | mapOwnership => cases ho
      | _ => exact hd
    · intro _ k
      cases op with
      | materialize | mapOwnership => cases ho
      | whiteout r => exact ⟨fun h => if_pos h, fun h => if_neg h⟩
      | opaqueDir r => exact ⟨fun h => if_pos h, fun h => if_neg h⟩
      | reject r => exact ⟨False.elim, fun _ => rfl⟩

/-! ### Runs of operations -/

/-- Operations with the data of their entries. -/
abbrev Work := List (OciPlanOperation × List (List Byte))

def Work.calls (overwrite : Bool) (w : Work) : List Call :=
  w.flatMap fun x => callsOf overwrite x.1 x.2

/-- Every materialized entry is still there. -/
def Survive (host : Host) (files : List Component → Option Content) (w : Work) : Prop :=
  ∀ x ∈ w, ∀ o, x.1.placed? = some o → files (place host o.destination) = some (contentOf o x.2)

/-- The operation deletes nothing that the earlier ones have placed. -/
def SparesAll (host : Host) (earlier : List OciPlanOperation) (op : OciPlanOperation) : Prop :=
  ∀ o ∈ placements earlier, ¬ Deletes host op (place host o.destination)

/-- The places of a plan are distinct. -/
def Distinct (host : Host) (operations : List OciPlanOperation) : Prop :=
  (placements operations).Pairwise fun o o' => place host o.destination ≠ place host o'.destination

/-- **One more operation**: the entries before it are still there exactly if it spares them. -/
theorem survive_append {host : Host} {overwrite : Bool} {d : Disk} (hd : d.pending = none)
    {w : Work} {x : OciPlanOperation × List (List Byte)}
    (hdist : Distinct host ((w ++ [x]).map Prod.fst)) :
    Survive host ((callsOf overwrite x.1 x.2).foldl (Disk.call host) d).files (w ++ [x]) ↔
      Survive host d.files w ∧ SparesAll host (w.map Prod.fst) x.1 := by
  obtain ⟨d', rfl, -, hput, hdel⟩ := foldl_callsOf host overwrite x.1 x.2 hd
  have hmem : ∀ {y : OciPlanOperation × List (List Byte)} {o : OciMaterialize}, y ∈ w →
      y.1.placed? = some o → o ∈ placements (w.map Prod.fst) := fun hy ho =>
    List.mem_filterMap.mpr ⟨_, List.mem_map_of_mem hy, ho⟩
  rw [List.map_append, List.map_singleton, Distinct, placements_append] at hdist
  cases hx : x.1.placed? with
  | some ox =>
    have hne : ∀ o ∈ placements (w.map Prod.fst),
        place host o.destination ≠ place host ox.destination := by
      intro o ho
      refine (List.pairwise_append.mp hdist).2.2 o ho ox ?_
      rw [hx]
      exact List.mem_singleton_self _
    have hspares : SparesAll host (w.map Prod.fst) x.1 := by
      intro o _ hdel
      cases hop : x.1 with
      | materialize | mapOwnership =>
        rw [hop] at hdel
        exact hdel
      | _ =>
        rw [hop] at hx
        cases hx
    rw [and_iff_left hspares, hput ox hx]
    constructor
    · intro h y hy o ho
      have hy' := h y (List.mem_append_left _ hy) o ho
      rwa [Function.update_of_ne (hne o (hmem hy ho))] at hy'
    · intro h y hy o ho
      rcases List.mem_append.mp hy with hy | hy
      · rw [Function.update_of_ne (hne o (hmem hy ho))]
        exact h y hy o ho
      · rw [List.mem_singleton.mp hy] at ho ⊢
        rw [hx] at ho
        cases ho
        rw [Function.update_self]
  | none =>
    have hdel := hdel hx
    constructor
    · intro h
      have hspares : SparesAll host (w.map Prod.fst) x.1 := by
        intro o ho hdeletes
        obtain ⟨op, hop, hoo⟩ := List.mem_filterMap.mp ho
        obtain ⟨y, hy, rfl⟩ := List.mem_map.mp hop
        have hy' := h y (List.mem_append_left _ hy) o hoo
        rw [(hdel _).1 hdeletes] at hy'
        cases hy'
      refine ⟨?_, hspares⟩
      intro y hy o ho
      rw [← (hdel _).2 (hspares o (hmem hy ho))]
      exact h y (List.mem_append_left _ hy) o ho
    · rintro ⟨h, hspares⟩ y hy o ho
      rcases List.mem_append.mp hy with hy | hy
      · rw [(hdel _).2 (hspares o (hmem hy ho))]
        exact h y hy o ho
      · rw [List.mem_singleton.mp hy, hx] at ho
        cases ho

/-- **All operations**: every entry is still there exactly if every operation spares the entries
before it. -/
theorem survive_calls {host : Host} {overwrite : Bool} (d : Disk) (hd : d.pending = none)
    (w : Work) : Distinct host (w.map Prod.fst) →
    ((w.calls overwrite).foldl (Disk.call host) d).pending = none ∧
      (Survive host ((w.calls overwrite).foldl (Disk.call host) d).files w ↔
        Throughout (SparesAll host) (w.map Prod.fst)) := by
  induction w using List.reverseRecOn with
  | nil =>
    intro _
    refine ⟨hd, ?_⟩
    simp [Survive, Throughout]
  | append_singleton w x ih =>
    intro hdist
    have hdist' : Distinct host (w.map Prod.fst) := by
      have h := hdist
      rw [List.map_append, List.map_singleton, Distinct, placements_append] at h
      exact (List.pairwise_append.mp h).1
    obtain ⟨hpending, hih⟩ := ih hdist'
    have hcalls : Work.calls overwrite (w ++ [x]) =
        Work.calls overwrite w ++ callsOf overwrite x.1 x.2 := by
      simp [Work.calls]
    rw [hcalls, List.foldl_append, survive_append hpending hdist, hih, List.map_append,
      List.map_singleton, throughout_append]
    obtain ⟨d', hd', hp', -⟩ := foldl_callsOf host overwrite x.1 x.2 hpending
    exact ⟨hd' ▸ hp', Iff.rfl⟩

/-! ### Plans -/

variable {host : Host}

theorem place_path (k : DestinationKey host) : place host k.path = k.identity := by
  rw [place, k.identity_eq, Option.getD_some]

/-- The destinations a layer materializes are distinct places. -/
theorem distinct_of_laid {p : OciLayerPlanner host} {l : List (Placement host)} (h : Laid p l) :
    Distinct host p.operations := by
  have hplace : (placements p.operations).map (fun o => place host o.destination) =
      l.map fun x => x.key.identity := by
    refine List.forall₂_eq_eq_eq ▸ List.forall₂_map_left_iff.mpr (List.forall₂_map_right_iff.mpr ?_)
    refine h.lays.imp ?_
    intro o x hx
    rw [hx.destination, place_path]
  have hpair := List.pairwise_map.mpr h.sound.distinct
  rw [← hplace] at hpair
  exact List.pairwise_map.mp hpair

/-- A marker that is not refused names nothing that the layer has placed before: a whiteout nothing at
or below its destination, an opaque marker nothing below its directory. -/
def Spares (p : OciLayerPlanner host) (m : EntryMetadata) : Prop :=
  ∀ raw destination, removalDestination host raw = some destination →
    p.escapesSymlink destination = false → ∀ o ∈ placements p.operations,
      (classify m.path.raw = .whiteout raw →
        ¬ place host destination <+: place host o.destination) ∧
      (classify m.path.raw = .opaqueDirectory raw →
        ¬ (place host destination <+: place host o.destination ∧
          place host destination ≠ place host o.destination))

/-- **A decision spares what was placed before exactly if its marker does.** -/
theorem sparesAll_iff (p : OciLayerPlanner host) (m : EntryMetadata) :
    SparesAll host p.operations (p.planOperation m).1 ↔ Spares p m := by
  constructor
  · intro h raw destination hd he o ho
    refine ⟨?_, ?_⟩
    · intro hc
      have hop : p.planOperation m = (.whiteout ⟨m.path, destination⟩, p) := by
        rw [planOperation, hc]
        dsimp only
        rw [planRemoval_some false hd, if_neg (by simp [he]), if_neg (by simp)]
      rw [hop] at h
      exact h o ho
    · intro hc
      have hop : p.planOperation m = (.opaqueDir ⟨m.path, destination⟩, p) := by
        rw [planOperation, hc]
        dsimp only
        rw [planRemoval_some true hd, if_neg (by simp [he]), if_pos rfl]
      rw [hop] at h
      exact h o ho
  · intro h
    have hd := decided_planOperation p m
    generalize (p.planOperation m).1 = op at hd
    generalize (p.planOperation m).2 = p' at hd
    cases hd with
    | rejected => exact fun o _ => False.elim
    | claimRejected => exact fun o _ => False.elim
    | whiteout target destination hc hd he => exact fun o ho => (h target destination hd he o ho).1 hc
    | opaqueDir directory destination hc hd he =>
      exact fun o ho => (h directory destination hd he o ho).2 hc
    | placed key claimed link =>
      unfold materializeAs
      dsimp only
      split_ifs
      · exact fun o _ => False.elim
      · exact fun o _ => False.elim

theorem spares_of_skip (p : OciLayerPlanner host) (m : EntryMetadata)
    (h : isStructuralSkip m = true) : Spares p m := by
  intro raw destination _ _ o _
  rw [classify_of_skip h]
  exact ⟨by simp, by simp⟩

/-- **Markers and the entries of their own layer.** Let a layer be planned and applied to some lower
filesystem, with an adapter whose calls all succeed. Every entry materialized from the layer is still
there at the end if and only if every whiteout that is not refused comes when the layer has placed
nothing at or below its destination, and every opaque marker that is not refused comes when the layer
has placed nothing below its directory. -/
theorem driveApply_survives_iff (host : Host) (policy : Policy) (mapOwner : Owner → Owner)
    (members : List Member) (notes : List ArchiveMetadata) (a : FilesystemAdapter) (ha : a.Obliging)
    (lower : List Component → Option Content) :
    let entries := members.map Member.metadata
    let operations := ((OciLayerPlanner.new host policy mapOwner).observeAll entries).operations
    ∃ report log, driveApply a policy operations (layerOf members notes) = .ok (report, log) ∧
      (Survive host (replay host lower log).files
          (operations.zip ((substantial members).map Member.windows)) ↔
        ∀ pre m post, entries = pre ++ m :: post →
          Spares ((OciLayerPlanner.new host policy mapOwner).observeAll pre) m) := by
  intro entries operations
  obtain ⟨l, hlaid⟩ := laid_observeAll entries (laid_new host policy mapOwner)
  obtain ⟨haligned, report, hrun, -⟩ := driveApply_calls host policy mapOwner members notes a ha
  refine ⟨report, _, hrun, ?_⟩
  let w : Work := operations.zip ((substantial members).map Member.windows)
  have hfst : w.map Prod.fst = operations := by
    refine List.map_fst_zip ?_
    rw [List.length_map]
    exact haligned.length_eq.le
  have hlog : ((operations.zip (substantial members)).flatMap fun x =>
      callsOf policy.overwrite x.1 x.2.windows) = w.calls policy.overwrite := by
    show _ = Work.calls _ (operations.zip ((substantial members).map Member.windows))
    rw [Work.calls, List.zip_map_right, List.flatMap_map]
    rfl
  have hdist : Distinct host (w.map Prod.fst) := by
    rw [hfst]
    exact distinct_of_laid hlaid
  have hfiles : (replay host lower (.beginSession :: (((operations.zip (substantial members)).flatMap
      fun x => callsOf policy.overwrite x.1 x.2.windows) ++ [.finishSession]))).files =
      ((w.calls policy.overwrite).foldl (Disk.call host) { files := lower }).files := by
    rw [hlog, replay, List.foldl_cons, List.foldl_append]
    rfl
  show Survive host (replay host lower _).files w ↔ _
  rw [hfiles, (survive_calls { files := lower } rfl w hdist).2, hfst]
  exact throughout_new policy mapOwner spares_of_skip (fun p _ m _ => sparesAll_iff p m) entries

/-- A layer with one file, applied to the empty filesystem. -/
theorem driveApply_survives_file :
    let x : Member := ⟨[], { kind := .file, path := .fromBytes (bstr "a/x") }, [[1], [2, 3]]⟩
    let operations := ((OciLayerPlanner.new (.unix true) {} id).observeAll [x.metadata]).operations
    fileAdapter.Obliging ∧
      ∃ report log, driveApply fileAdapter {} operations (layerOf [x] []) = .ok (report, log) ∧
        (Survive (.unix true) (replay (.unix true) (fun _ => none) log).files
            (operations.zip ((substantial [x]).map Member.windows)) ↔
          ∀ pre m post, [x.metadata] = pre ++ m :: post →
            Spares ((OciLayerPlanner.new (.unix true) {} id).observeAll pre) m) :=
  ⟨fileAdapter_obliging,
    driveApply_survives_iff (.unix true) {} id [_] [] fileAdapter fileAdapter_obliging fun _ => none⟩

/-- A file `a/x`, and after it the whiteout of `a/x`. -/
def lateWhiteoutLayer : List Member :=
  [⟨[], { kind := .file, path := .fromBytes (bstr "a/x") }, [[1]]⟩,
   ⟨[], { kind := .file, path := .fromBytes (bstr "a/.wh.x") }, []⟩]

/-- The whiteout deletes the file of its own layer. -/
theorem not_survives_lateWhiteoutLayer :
    let operations := ((OciLayerPlanner.new (.unix true) {} id).observeAll
      (lateWhiteoutLayer.map Member.metadata)).operations
    ∃ report log, driveApply fileAdapter {} operations (layerOf lateWhiteoutLayer []) =
        .ok (report, log) ∧
      ¬ Survive (.unix true) (replay (.unix true) (fun _ => none) log).files
        (operations.zip ((substantial lateWhiteoutLayer).map Member.windows)) := by
  intro operations
  have hops : operations =
      [.materialize ⟨{ kind := .file, path := .fromBytes (bstr "a/x") }, [bstr "a", bstr "x"], none,
        none⟩,
       .whiteout ⟨.fromBytes (bstr "a/.wh.x"), [bstr "a", bstr "x"]⟩] := by
    decide +kernel
  have hcalls := driveApply_calls (.unix true) {} id lateWhiteoutLayer [] fileAdapter
    fileAdapter_obliging
  dsimp only at hcalls
  rw [show ((OciLayerPlanner.new (.unix true) {} id).observeAll
    (lateWhiteoutLayer.map Member.metadata)).operations = _ from hops] at hcalls
  obtain ⟨-, report, hrun, -⟩ := hcalls
  refine ⟨report, _, by rw [hops]; exact hrun, ?_⟩
  rw [hops]
  intro h
  have hfile := h _ List.mem_cons_self _ rfl
  revert hfile
  decide +kernel

end LibarchiveOxide.Oci.Whiteouts
