import LibarchiveOxide.Extract.Topology
import LibarchiveOxide.Lib.Result
import LibarchiveOxide.Oci.Apply

/-! # What the planner can decide about an entry -/

namespace LibarchiveOxide.Oci.Plan

open Core.Failure Core.Metadata Extract.Path Extract.Plan Extract.PlanSound Extract.Topology

variable {host : Host}

/-- The materialization of an operation. -/
def OciPlanOperation.placed? : OciPlanOperation → Option OciMaterialize
  | .materialize m | .mapOwnership m => some m
  | _ => none

/-- The destination a marker names. -/
def removalDestination (host : Host) (raw : List Byte) : Option (List Component) :=
  if raw.isEmpty then some [] else sanitize host raw

namespace OciLayerPlanner

/-- The decisions about an entry that is not skipped. -/
inductive Decided (p : OciLayerPlanner host) (m : EntryMetadata) :
    OciPlanOperation → OciLayerPlanner host → Prop
  | rejected (reason : OciRejection) : Decided p m (reject m.path reason) p
  | claimRejected (reason : OciRejection) (key : DestinationKey host)
      (claimed : DestinationClaims host) (hc : p.claimed.claim key m.kind = some claimed) :
      Decided p m (reject m.path reason) { p with claimed }
  | whiteout (target : List Byte) (destination : List Component)
      (hc : classify m.path.raw = .whiteout target)
      (hd : removalDestination host target = some destination)
      (he : p.escapesSymlink destination = false) : Decided p m (.whiteout ⟨m.path, destination⟩) p
  | opaqueDir (directory : List Byte) (destination : List Component)
      (hc : classify m.path.raw = .opaqueDirectory directory)
      (hd : removalDestination host directory = some destination)
      (he : p.escapesSymlink destination = false) : Decided p m (.opaqueDir ⟨m.path, destination⟩) p
  | placed (key : DestinationKey host) (claimed : DestinationClaims host)
      (link : Option (List Component)) (hm : classify m.path.raw = .regular)
      (hk : DestinationKey.fromArchivePath host m.path = some key)
      (he : p.escapesSymlink key.path = false) (hc : p.claimed.claim key m.kind = some claimed)
      (hl : p.linkTarget m = .ok link) :
      Decided p m (p.materializeAs m key.path link)
        (({ p with claimed } : OciLayerPlanner host).accept m.kind key)

variable {p : OciLayerPlanner host} {m : EntryMetadata}

theorem planRemoval_none {path : ArchivePath} {raw : List Byte} (isOpaque : Bool)
    (h : removalDestination host raw = none) :
    p.planRemoval path raw isOpaque = reject path .unsafePath := by
  unfold removalDestination at h
  unfold planRemoval
  rw [h]

theorem planRemoval_some {path : ArchivePath} {raw : List Byte} {destination : List Component}
    (isOpaque : Bool) (h : removalDestination host raw = some destination) :
    p.planRemoval path raw isOpaque = if p.escapesSymlink destination then reject path .symlinkEscape
      else if isOpaque then .opaqueDir ⟨path, destination⟩ else .whiteout ⟨path, destination⟩ := by
  unfold removalDestination at h
  unfold planRemoval
  rw [h]

theorem decided_planRemoval {raw : List Byte} (isOpaque : Bool)
    (hc : classify m.path.raw = if isOpaque then .opaqueDirectory raw else .whiteout raw) :
    Decided p m (p.planRemoval m.path raw isOpaque) p := by
  cases hd : removalDestination host raw with
  | none =>
    rw [planRemoval_none isOpaque hd]
    exact .rejected _
  | some destination =>
    rw [planRemoval_some isOpaque hd]
    by_cases he : p.escapesSymlink destination = true
    · rw [if_pos he]
      exact .rejected _
    · rw [if_neg he]
      cases isOpaque with
      | false => exact .whiteout raw destination hc hd (by simpa using he)
      | true => exact .opaqueDir raw destination hc hd (by simpa using he)

theorem decided_planMaterialize (hm : classify m.path.raw = .regular) :
    Decided p m (p.planMaterialize m).1 (p.planMaterialize m).2 := by
  unfold planMaterialize
  split_ifs
  · exact .rejected _
  split
  · exact .rejected _
  next key hk =>
  split_ifs with he
  · exact .rejected _
  split
  · exact .rejected _
  next claimed hc =>
  dsimp only
  split
  · exact .claimRejected _ key claimed hc
  next link hl =>
  split_ifs
  · exact .claimRejected _ key claimed hc
  · exact .placed key claimed link hm hk (by simpa using he) hc hl

/-- **Every decision is one of the listed ones.** -/
theorem decided_planOperation (p : OciLayerPlanner host) (m : EntryMetadata) :
    Decided p m (p.planOperation m).1 (p.planOperation m).2 := by
  unfold planOperation
  split
  · exact .rejected _
  · next target hc => exact decided_planRemoval false hc
  · next directory hc => exact decided_planRemoval true hc
  · next hc => exact decided_planMaterialize hc

theorem observe_eq (p : OciLayerPlanner host) (h : isStructuralSkip m = false) :
    p.observe m = { (p.planOperation m).2 with
      operations := (p.planOperation m).2.operations ++ [(p.planOperation m).1] } := by
  rw [observe, if_neg (by simp [h])]

/-- A decision leaves the operations and the configuration as they are. -/
theorem operations_of_decided {op : OciPlanOperation} {p' : OciLayerPlanner host}
    (h : Decided p m op p') : p'.operations = p.operations ∧ p'.policy = p.policy ∧
      p'.mapOwner = p.mapOwner := by
  cases h with
  | placed =>
    unfold accept
    split <;> exact ⟨rfl, rfl, rfl⟩
  | _ => exact ⟨rfl, rfl, rfl⟩

theorem placed?_materializeAs (destination : List Component) (link : Option (List Component)) :
    (p.materializeAs m destination link).placed? = some ⟨{ m with owner := p.mapOwner m.owner },
      destination, link, if p.mapOwner m.owner ≠ m.owner then some m.owner else none⟩ := by
  unfold materializeAs
  dsimp only
  split_ifs
  · rfl
  · rfl

end OciLayerPlanner

end LibarchiveOxide.Oci.Plan

/-! # The plans are sound

What both planners place is sound in the sense of the topology: `plans_sound`. `Laid` is the
invariant of the layer planner: its sets describe the placements of the operations so far. -/

namespace LibarchiveOxide.Oci.Soundness

open Core.Failure Core.Metadata Extract.Path Extract.Plan Extract.PlanSound Extract.Topology
open Oci.Plan Oci.Plan.OciLayerPlanner Lib.Result

variable {host : Host} {k key : DestinationKey host} {l : List (Placement host)}

/-- What a materialization of a layer places. -/
structure Lays (o : OciMaterialize) (x : Placement host) : Prop where
  destination : o.destination = x.key.path
  kind : o.metadata.kind = x.kind
  linkTarget : o.linkTarget = x.linkTarget

/-- The materializations among some operations. -/
def placements (operations : List OciPlanOperation) : List OciMaterialize :=
  operations.filterMap OciPlanOperation.placed?

/-- The planner's sets describe what its operations place. -/
structure Laid (p : OciLayerPlanner host) (l : List (Placement host)) : Prop where
  lays : List.Forall₂ Lays (placements p.operations) l
  covers : Covers p.claimed l
  committed : ∀ k ∈ p.committedFiles, ∃ x ∈ l, x.key = k ∧ Linkable x.kind
  symlinks : ∀ k, k ∈ p.symlinks → ∃ x ∈ l, x.kind = .symlink ∧ x.key = k
  symlink_mem : ∀ x ∈ l, x.kind = .symlink → x.key ∈ p.symlinks
  sound : Sound l

theorem laid_new (host : Host) (policy : Policy) (mapOwner : Owner → Owner) :
    Laid (OciLayerPlanner.new host policy mapOwner) [] :=
  ⟨.nil, covers_nil, by simp [new], by simp [new], by simp, sound_nil⟩

theorem linkTarget_hardlink {p : OciLayerPlanner host} {m : EntryMetadata}
    {link : Option (List Component)} (h : p.linkTarget m = .ok link) (hk : m.kind = .hardlink) :
    ∃ k ∈ p.committedFiles, link = some k.path := by
  unfold linkTarget at h
  rw [hk] at h
  dsimp only at h
  split_ifs at h
  obtain ⟨target, -, h⟩ := bind_eq_ok.mp h
  split at h
  · next k hg =>
    cases h
    exact ⟨k, mem_of_get hg, rfl⟩
  · cases h

theorem mem_insert_iff {s : List (DestinationKey host)} {k' : DestinationKey host}
    (h : contains s k = false) : k' ∈ insert s k ↔ k' = k ∨ k' ∈ s := by
  rw [Extract.Path.insert, if_neg (by simp [h]), List.mem_cons]

theorem accept_claimed (p : OciLayerPlanner host) (kind : EntryKind) (key : DestinationKey host) :
    (p.accept kind key).claimed = p.claimed := by
  cases kind <;> rfl

theorem mem_accept_committedFiles {p : OciLayerPlanner host} {kind : EntryKind}
    (h : k ∈ (p.accept kind key).committedFiles) :
    k ∈ p.committedFiles ∨ (k = key ∧ Linkable kind) := by
  cases kind with
  | file =>
    rcases mem_of_mem_insert h with rfl | h
    · exact .inr ⟨rfl, .inl rfl⟩
    · exact .inl h
  | hardlink =>
    rcases mem_of_mem_insert h with rfl | h
    · exact .inr ⟨rfl, .inr rfl⟩
    · exact .inl h
  | _ => exact .inl h

theorem mem_accept_symlinks {p : OciLayerPlanner host} {kind : EntryKind}
    (hnew : contains p.symlinks key = false) :
    k ∈ (p.accept kind key).symlinks ↔ k ∈ p.symlinks ∨ (k = key ∧ kind = .symlink) := by
  cases kind with
  | symlink =>
    show k ∈ insert p.symlinks key ↔ _
    rw [mem_insert_iff hnew]
    simp [or_comm]
  | _ => simp [accept]

theorem placements_append (operations : List OciPlanOperation) (op : OciPlanOperation) :
    placements (operations ++ [op]) = placements operations ++ op.placed?.toList := by
  rw [placements, List.filterMap_append, ← placements]
  cases h : op.placed? with
  | none => simp [h]
  | some o => simp [h]

/-- Nothing is placed, and at most more is claimed. -/
theorem Laid.unplaced {p : OciLayerPlanner host} (h : Laid p l) {op : OciPlanOperation}
    (hop : op.placed? = none) {claimed : DestinationClaims host} (hc : Covers claimed l) :
    Laid { p with claimed, operations := p.operations ++ [op] } l := by
  refine ⟨?_, hc, h.committed, h.symlinks, h.symlink_mem, h.sound⟩
  rw [placements_append, hop, Option.toList_none, List.append_nil]
  exact h.lays

/-- A placement is accepted. -/
theorem Laid.placed {p : OciLayerPlanner host} (h : Laid p l) {m : EntryMetadata}
    {claimed : DestinationClaims host} {link : Option (List Component)}
    (hc : p.claimed.claim key m.kind = some claimed) (hl : p.linkTarget m = .ok link)
    {p' : OciLayerPlanner host}
    (hp' : p' = ({ p with claimed } : OciLayerPlanner host).accept m.kind key) :
    Laid { p' with operations := p.operations ++ [p.materializeAs m key.path link] }
      (l ++ [⟨key, m.kind, link⟩]) := by
  obtain ⟨hfits, hcovers⟩ := h.covers.claim ⟨key, m.kind, link⟩ hc
  have hnew : contains p.symlinks key = false := by
    by_contra hcon
    obtain ⟨k, hk, hki⟩ := contains_iff.mp (by simpa using hcon)
    obtain ⟨y, hy, -, rfl⟩ := h.symlinks k hk
    exact (hfits y hy).1 hki
  have hlinked : Linked l ⟨key, m.kind, link⟩ := by
    intro hk
    obtain ⟨k, hmem, rfl⟩ := linkTarget_hardlink hl hk
    obtain ⟨y, hy, rfl, hyk⟩ := h.committed k hmem
    exact ⟨y, hy, hyk, rfl⟩
  have hclaimed : p'.claimed = claimed := by rw [hp', accept_claimed]
  have hcommitted : ∀ k ∈ p'.committedFiles, k ∈ p.committedFiles ∨ (k = key ∧ Linkable m.kind) := by
    rw [hp']
    exact fun k hk => mem_accept_committedFiles (p := { p with claimed }) hk
  have hsymlinks : ∀ k, k ∈ p'.symlinks ↔ k ∈ p.symlinks ∨ (k = key ∧ m.kind = .symlink) := by
    rw [hp']
    exact fun k => mem_accept_symlinks (p := { p with claimed }) hnew
  refine ⟨?_, by rw [← hclaimed] at hcovers; exact hcovers, ?_, ?_, ?_,
    h.sound.append hfits hlinked⟩
  · rw [placements_append, placed?_materializeAs, Option.toList_some]
    exact List.rel_append h.lays (.cons ⟨rfl, rfl, rfl⟩ .nil)
  · intro k hk
    rcases hcommitted k hk with hk | ⟨rfl, hkind⟩
    · obtain ⟨y, hy, hyk⟩ := h.committed k hk
      exact ⟨y, List.mem_append_left _ hy, hyk⟩
    · exact ⟨_, List.mem_append_right _ (List.mem_singleton_self _), rfl, hkind⟩
  · intro k hk
    rcases (hsymlinks k).mp hk with hk | ⟨rfl, hkind⟩
    · obtain ⟨y, hy, hyk⟩ := h.symlinks k hk
      exact ⟨y, List.mem_append_left _ hy, hyk⟩
    · exact ⟨_, List.mem_append_right _ (List.mem_singleton_self _), hkind, rfl⟩
  · intro y hy hkind
    refine (hsymlinks y.key).mpr ?_
    rcases List.mem_append.mp hy with hy | hy
    · exact .inl (h.symlink_mem y hy hkind)
    · rw [List.mem_singleton.mp hy] at hkind ⊢
      exact .inr ⟨rfl, hkind⟩

/-- **Every observed entry keeps the planner's sets true.** -/
theorem laid_observe {p : OciLayerPlanner host} (h : Laid p l) (m : EntryMetadata) :
    ∃ l', Laid (p.observe m) (l ++ l') := by
  by_cases hskip : isStructuralSkip m = true
  · refine ⟨[], ?_⟩
    rw [observe, if_pos hskip, List.append_nil]
    exact h
  rw [observe_eq p (by simpa using hskip)]
  have hd := decided_planOperation p m
  rw [(operations_of_decided hd).1]
  generalize (p.planOperation m).1 = op at hd
  generalize (p.planOperation m).2 = p' at hd
  cases hd with
  | rejected =>
    refine ⟨[], ?_⟩
    rw [List.append_nil]
    exact h.unplaced rfl h.covers
  | claimRejected reason key claimed hc =>
    refine ⟨[], ?_⟩
    rw [List.append_nil]
    exact h.unplaced rfl (h.covers.claim ⟨key, m.kind, none⟩ hc).2.of_append
  | whiteout =>
    refine ⟨[], ?_⟩
    rw [List.append_nil]
    exact h.unplaced rfl h.covers
  | opaqueDir =>
    refine ⟨[], ?_⟩
    rw [List.append_nil]
    exact h.unplaced rfl h.covers
  | placed key claimed link _ _ _ hc hl => exact ⟨_, h.placed hc hl rfl⟩

theorem laid_observeAll (entries : List EntryMetadata) : ∀ {p : OciLayerPlanner host}
    {l : List (Placement host)}, Laid p l → ∃ l', Laid (p.observeAll entries) l' := by
  induction entries with
  | nil =>
    intro p l h
    exact ⟨l, h⟩
  | cons m rest ih =>
    intro p l h
    obtain ⟨l', h'⟩ := laid_observe h m
    exact ih h'

/-- **The plans are sound.** The destinations materialized by an extraction plan, and those
materialized by the plan of a layer, are normal relative paths with distinct identities, none of them
is below one that is no directory, and each hard link names the destination of an earlier file or
hard link. -/
theorem plans_sound (host : Host) (policy : Policy) (mapOwner : Owner → Owner)
    (entries : List EntryMetadata) :
    (∃ l, List.Forall₂ Places (materialized (plan host policy entries)) l ∧ Sound l) ∧
      ∃ l : List (Placement host), List.Forall₂ Lays
        (placements ((OciLayerPlanner.new host policy mapOwner).observeAll entries).operations) l ∧
        Sound l := by
  obtain ⟨l, h⟩ := laid_observeAll entries (laid_new host policy mapOwner)
  exact ⟨plan_sound host policy entries, l, h.lays, h.sound⟩

/-! ### Properties of every operation of a plan -/

variable {Q : List OciPlanOperation → OciPlanOperation → Prop}
  {C : OciLayerPlanner host → EntryMetadata → Prop}

/-- Every operation has the property with respect to the operations before it. -/
def Throughout (Q : List OciPlanOperation → OciPlanOperation → Prop)
    (operations : List OciPlanOperation) : Prop :=
  ∀ pre op post, operations = pre ++ op :: post → Q pre op

theorem throughout_append {operations : List OciPlanOperation} {op : OciPlanOperation} :
    Throughout Q (operations ++ [op]) ↔ Throughout Q operations ∧ Q operations op := by
  constructor
  · intro h
    refine ⟨?_, h operations op [] rfl⟩
    intro pre op' post heq
    exact h pre op' (post ++ [op]) (by simp [heq])
  · rintro ⟨h, hop⟩ pre op' post heq
    rcases List.eq_nil_or_concat post with rfl | ⟨post', z, rfl⟩
    · obtain ⟨rfl, hxy⟩ := List.append_inj' heq rfl
      cases hxy
      exact hop
    · have heq' : operations ++ [op] = (pre ++ op' :: post') ++ [z] := by simpa using heq
      obtain ⟨rfl, -⟩ := List.append_inj' heq' rfl
      exact h pre op' post' rfl

/-- **From one decision to whole plans**: if the property of a decision is a condition on the planner
and the entry, the property of every operation is that condition at every entry. -/
theorem throughout_observeAll (hskip : ∀ p m, isStructuralSkip m = true → C p m)
    (hstep : ∀ p l m, Laid p l → (Q p.operations (p.planOperation m).1 ↔ C p m))
    (entries : List EntryMetadata) : ∀ {p : OciLayerPlanner host} {l : List (Placement host)},
    Laid p l → (Throughout Q (p.observeAll entries).operations ↔ Throughout Q p.operations ∧
      ∀ pre m post, entries = pre ++ m :: post → C (p.observeAll pre) m) := by
  induction entries with
  | nil =>
    intro p l h
    simp [observeAll]
  | cons m rest ih =>
    intro p l h
    have hm : Throughout Q (p.observe m).operations ↔ Throughout Q p.operations ∧ C p m := by
      by_cases hs : isStructuralSkip m = true
      · rw [observe, if_pos hs]
        simp [hskip p m hs]
      · rw [observe_eq p (by simpa using hs), (operations_of_decided (decided_planOperation p m)).1,
          throughout_append, hstep p l m h]
    obtain ⟨l', h'⟩ := laid_observe h m
    have hih := ih h'
    rw [hm] at hih
    show Throughout Q ((p.observe m).observeAll rest).operations ↔ _
    rw [hih, and_assoc]
    refine and_congr_right fun _ => ?_
    constructor
    · rintro ⟨hm, hrest⟩ pre m' post heq
      cases pre with
      | nil =>
        cases heq
        exact hm
      | cons x pre =>
        cases heq
        exact hrest pre m' post rfl
    · intro hall
      refine ⟨hall [] m rest rfl, ?_⟩
      intro pre m' post heq
      exact hall (m :: pre) m' post (by rw [heq]; rfl)

theorem throughout_new (policy : Policy) (mapOwner : Owner → Owner)
    (hskip : ∀ p m, isStructuralSkip m = true → C p m)
    (hstep : ∀ p l m, Laid p l → (Q p.operations (p.planOperation m).1 ↔ C p m))
    (entries : List EntryMetadata) :
    Throughout Q ((OciLayerPlanner.new host policy mapOwner).observeAll entries).operations ↔
      ∀ pre m post, entries = pre ++ m :: post →
        C ((OciLayerPlanner.new host policy mapOwner).observeAll pre) m := by
  rw [throughout_observeAll hskip hstep entries (laid_new host policy mapOwner)]
  refine and_iff_right ?_
  intro pre op post heq
  simp [new] at heq

/-- The archive root is no marker. -/
theorem classify_of_skip {m : EntryMetadata} (h : isStructuralSkip m = true) :
    classify m.path.raw = .regular := by
  have hraw : m.path.raw = bstr "." ∨ m.path.raw = bstr "./" := by
    simp only [isStructuralSkip, isArchiveRoot, Bool.and_eq_true, Bool.or_eq_true, beq_iff_eq] at h
    exact h.2
  rcases hraw with hraw | hraw
  · rw [hraw]
    decide
  · rw [hraw]
    decide

end LibarchiveOxide.Oci.Soundness
