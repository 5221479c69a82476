import LibarchiveOxide.Oci.Soundness

/-! # Operations and the symbolic links of their layer

An operation `Touches` its destination, or everything below it if it clears a directory. The planner
looks at the proper ancestors of the destination only, so a materialization and a whiteout never act
through a symbolic link of the layer, and clearing a directory does not exactly if no symbolic link
lies at or below the directory (`contained_iff`). -/

namespace LibarchiveOxide.Oci.Symlinks

open Core.Failure Core.Metadata Extract.Path Extract.Plan Extract.Topology Oci.Plan
open Oci.Plan.OciLayerPlanner Oci.Soundness

variable {host : Host}

/-- The paths an operation modifies. -/
def Touches : OciPlanOperation → DestinationKey host → Prop
  | .materialize m, q | .mapOwnership m, q => q.path = m.destination
  | .whiteout r, q => q.path = r.destination
  | .opaqueDir r, q => r.destination <+: q.path ∧ r.destination ≠ q.path
  | .reject _, _ => False

/-- The operation materializes a symbolic link at the key. -/
def MakesLink (op : OciPlanOperation) (k : DestinationKey host) : Prop :=
  ∃ o, op.placed? = some o ∧ o.metadata.kind = .symlink ∧ o.destination = k.path

/-- The operation modifies no path with a proper ancestor that one of the earlier operations
materialized as a symbolic link. -/
def StaysClear (host : Host) (earlier : List OciPlanOperation) (op : OciPlanOperation) : Prop :=
  ∀ q : DestinationKey host, Touches op q → ∀ e ∈ earlier, ∀ k, MakesLink e k → ¬ Above k q

/-- Every operation stays clear of the symbolic links before it. -/
def Contained (host : Host) (operations : List OciPlanOperation) : Prop :=
  ∀ pre op post, operations = pre ++ op :: post → StaysClear host pre op

/-- The directory an opaque marker is about to clear has no symbolic link of the layer at or below
it. -/
def Clear (p : OciLayerPlanner host) (m : EntryMetadata) : Prop :=
  ∀ directory destination, classify m.path.raw = .opaqueDirectory directory →
    removalDestination host directory = some destination → p.escapesSymlink destination = false →
    ∀ k ∈ p.symlinks, ∀ i, destination.mapM host.identity = some i → ¬ i <+: k.identity

/-! ### The planner's symbolic links -/

variable {p : OciLayerPlanner host} {l : List (Placement host)} {k : DestinationKey host}

/-- The symbolic links the planner knows are those its operations make. -/
theorem makesLink_iff (h : Laid p l) (k : DestinationKey host) :
    (∃ e ∈ p.operations, MakesLink e k) ↔
      ∃ k' ∈ p.symlinks, k'.path = k.path := by
  constructor
  · rintro ⟨e, he, o, ho, hkind, hdest⟩
    have hmem : o ∈ placements p.operations := List.mem_filterMap.mpr ⟨e, he, ho⟩
    obtain ⟨x, hx, hl⟩ := exists_of_mem_left h.lays hmem
    exact ⟨x.key, h.symlink_mem x hx (hl.kind.symm.trans hkind), hl.destination.symm.trans hdest⟩
  · rintro ⟨k', hk', hpath⟩
    obtain ⟨x, hx, hkind, rfl⟩ := h.symlinks k' hk'
    obtain ⟨o, ho, hl⟩ := exists_of_mem_left h.lays.flip hx
    obtain ⟨e, he, hoe⟩ := List.mem_filterMap.mp ho
    exact ⟨e, he, o, hoe, hl.kind.trans hkind, hl.destination.trans hpath⟩

theorem identity_of_path {k' : DestinationKey host} (h : k.path = k'.path) :
    k.identity = k'.identity := by
  have h1 := k.identity_eq
  rw [h, k'.identity_eq] at h1
  exact (Option.some.inj h1).symm

theorem staysClear_iff_symlinks (h : Laid p l) (op : OciPlanOperation) :
    StaysClear host p.operations op ↔
      ∀ q : DestinationKey host, Touches op q → ∀ k ∈ p.symlinks, ¬ Above k q := by
  constructor
  · intro hs q hq k hk
    obtain ⟨e, he, hek⟩ := (makesLink_iff h k).mpr ⟨k, hk, rfl⟩
    exact hs q hq e he k hek
  · intro hs q hq e he k hek ha
    obtain ⟨k', hk', hpath⟩ := (makesLink_iff h k).mp ⟨e, he, hek⟩
    refine hs q hq k' hk' ?_
    rw [Above, identity_of_path hpath]
    exact ha

/-- `escapes_symlink` looks at the keys above the destination. -/
theorem escapesSymlink_iff (p : OciLayerPlanner host) (q : DestinationKey host) :
    p.escapesSymlink q.path = true ↔ ∃ k ∈ p.symlinks, Above k q := by
  have hmem : p.escapesSymlink q.path = true ↔ ∃ a ∈ q.ancestors, contains p.symlinks a = true := by
    simp only [escapesSymlink, List.any_eq_true, List.mem_inits, Bool.and_eq_true, decide_eq_true_eq,
      Option.any_eq_true, DestinationKey.ancestors, List.mem_filterMap, mem_properAncestors]
    constructor
    · rintro ⟨a, hpre, hne, k, hk, hc⟩
      have hpath := fromRelativePath_eq_some hk
      exact ⟨k, ⟨a, ⟨hpre, hne, hpath ▸ k.path_ne⟩, hk⟩, hc⟩
    · rintro ⟨k, ⟨a, ⟨hpre, hne, -⟩, hk⟩, hc⟩
      exact ⟨a, hpre, hne, k, hk, hc⟩
  rw [hmem]
  constructor
  · rintro ⟨a, ha, hc⟩
    obtain ⟨k, hk, hki⟩ := contains_iff.mp hc
    exact ⟨k, hk, contains_ancestors.mp (contains_iff.mpr ⟨a, ha, hki.symm⟩)⟩
  · rintro ⟨k, hk, ha⟩
    obtain ⟨a, ha, hai⟩ := contains_iff.mp (contains_ancestors.mpr ha)
    exact ⟨a, ha, contains_iff.mpr ⟨k, hk, hai.symm⟩⟩

/-! ### One operation -/

variable {destination : List Component}

theorem planOperation_opaqueDir {m : EntryMetadata} {directory : List Byte}
    (hc : classify m.path.raw = .opaqueDirectory directory)
    (hd : removalDestination host directory = some destination)
    (he : p.escapesSymlink destination = false) :
    p.planOperation m = (.opaqueDir ⟨m.path, destination⟩, p) := by
  rw [planOperation, hc]
  dsimp only
  rw [planRemoval_some true hd, if_neg (by simp [he]), if_pos rfl]

/-- A marker names the extraction root or a destination. -/
theorem removalDestination_spec {raw : List Byte}
    (h : removalDestination host raw = some destination) :
    destination = [] ∨ ∃ k : DestinationKey host, k.path = destination := by
  unfold removalDestination at h
  split_ifs at h
  · cases h
    exact .inl rfl
  · obtain ⟨k, hk⟩ := key_of_sanitize h
    exact .inr ⟨k, fromRelativePath_eq_some hk⟩

/-- A key whose identity goes on below some destination. -/
theorem exists_below {i : List Component} (hi : destination.mapM host.identity = some i)
    (hn : ∀ c ∈ destination, Normal host c) (hk : i <+: k.identity) :
    ∃ q : DestinationKey host, destination <+: q.path ∧ destination ≠ q.path ∧ Above k q := by
  have hlen : i.length = destination.length := (mapM_eq_some.mp hi).length_eq.symm
  obtain ⟨c, rest, hcons⟩ := List.exists_cons_of_ne_nil k.path_ne
  obtain ⟨ic, irest, hicons⟩ := List.exists_cons_of_ne_nil (identity_ne k)
  have hids := mapM_eq_some.mp k.identity_eq
  have hc : host.identity c = some ic := by
    rw [hcons, hicons] at hids
    cases hids with
    | cons h _ => exact h
  -- the spelling of the destination, then that of the link, then one more component
  have hid : (destination ++ k.path.drop destination.length ++ [c]).mapM host.identity =
      some (k.identity ++ [ic]) := by
    have hsplit : k.identity = i ++ k.identity.drop destination.length := by
      rw [← hlen]
      exact (List.prefix_iff_eq_append.mp hk).symm
    rw [hsplit]
    exact mapM_eq_some.mpr (List.rel_append (List.rel_append (mapM_eq_some.mp hi)
      (List.forall₂_drop _ hids)) (.cons hc .nil))
  refine ⟨⟨_, _, by simp, ?_, hid⟩, ?_, ?_, List.prefix_append _ _, ?_⟩
  · intro x hx
    rcases List.mem_append.mp hx with hx | hx
    · rcases List.mem_append.mp hx with hx | hx
      · exact hn x hx
      · exact k.normal x (List.mem_of_mem_drop hx)
    · rw [List.mem_singleton.mp hx]
      exact k.normal c (by rw [hcons]; exact List.mem_cons_self)
  · show destination <+: destination ++ k.path.drop destination.length ++ [c]
    rw [List.append_assoc]
    exact List.prefix_append _ _
  · intro h
    have := congrArg List.length h
    simp only [List.length_append, List.length_singleton] at this
    omega
  · intro h
    have := congrArg List.length h
    simp at this

/-- Two prefixes of one list are comparable. -/
theorem prefix_of_above {q : DestinationKey host} {i : List Component} (hk : Above k q)
    (hi : i <+: q.identity) (hn : ¬ i <+: k.identity) : k.identity <+: i ∧ k.identity ≠ i := by
  rcases List.prefix_or_prefix_of_prefix hk.1 hi with h | h
  · refine ⟨h, ?_⟩
    intro he
    exact hn (he ▸ List.prefix_rfl)
  · exact absurd h hn

/-- **A decision stays clear of the layer's symbolic links exactly if its opaque marker does.** -/
theorem staysClear_iff (h : Laid p l) (m : EntryMetadata) :
    StaysClear host p.operations (p.planOperation m).1 ↔ Clear p m := by
  rw [staysClear_iff_symlinks h]
  have hsafe : ∀ {destination : List Component}, p.escapesSymlink destination = false →
      ∀ q : DestinationKey host, q.path = destination → ∀ k ∈ p.symlinks, ¬ Above k q := by
    rintro _ he q rfl k hk ha
    rw [(escapesSymlink_iff p q).mpr ⟨k, hk, ha⟩] at he
    cases he
  constructor
  · intro hs directory destination hc hd he k hk i hi hpre
    rw [planOperation_opaqueDir hc hd he] at hs
    have hn : ∀ c ∈ destination, Normal host c := by
      rcases removalDestination_spec hd with rfl | ⟨dk, rfl⟩
      · simp
      · exact dk.normal
    obtain ⟨q, hq, hne, ha⟩ := exists_below hi hn hpre
    exact hs q ⟨hq, hne⟩ k hk ha
  · intro hclear
    have hd := decided_planOperation p m
    generalize (p.planOperation m).1 = op at hd
    generalize (p.planOperation m).2 = p' at hd
    cases hd with
    | rejected => exact fun q hq => hq.elim
    | claimRejected => exact fun q hq => hq.elim
    | whiteout target destination _ _ he => exact hsafe he
    | placed key claimed link _ _ he =>
      unfold materializeAs
      dsimp only
      split_ifs
      · exact hsafe he
      · exact hsafe he
    | opaqueDir directory destination hc hd he =>
      rintro q ⟨hq, hne⟩ k hk ha
      have hids := mapM_eq_some.mp q.identity_eq
      have hdest : destination.mapM host.identity = some (q.identity.take destination.length) := by
        have htake := List.forall₂_take destination.length hids
        rw [← List.prefix_iff_eq_take.mp hq] at htake
        exact mapM_eq_some.mpr htake
      have hnot := hclear directory destination hc hd he k hk _ hdest
      obtain ⟨hbelow, hneq⟩ := prefix_of_above ha (List.take_prefix _ _) hnot
      rcases removalDestination_spec hd with rfl | ⟨dk, rfl⟩
      · rw [List.length_nil, List.take_zero] at hbelow
        exact identity_ne k (List.prefix_nil.mp hbelow)
      · have hdk : dk.identity = q.identity.take dk.path.length := by
          have h1 := dk.identity_eq
          rw [hdest] at h1
          exact (Option.some.inj h1).symm
        refine hsafe he dk rfl k hk ⟨?_, ?_⟩
        · rw [hdk]
          exact hbelow
        · rw [hdk]
          exact hneq

/-! ### Whole plans -/

theorem clear_of_skip (p : OciLayerPlanner host) (m : EntryMetadata)
    (h : isStructuralSkip m = true) : Clear p m := by
  intro directory destination hc
  rw [classify_of_skip h] at hc
  cases hc

/-- **Operations and symbolic links.** No operation of a layer's plan modifies a path below a symbolic
link that an earlier operation materializes if and only if every opaque marker that is not refused
comes when no symbolic link of the layer lies at or below its directory. -/
theorem contained_iff (host : Host) (policy : Policy) (mapOwner : Owner → Owner)
    (entries : List EntryMetadata) :
    Contained host ((OciLayerPlanner.new host policy mapOwner).observeAll entries).operations ↔
      ∀ pre m post, entries = pre ++ m :: post →
        Clear ((OciLayerPlanner.new host policy mapOwner).observeAll pre) m := by
  show Throughout (StaysClear host) _ ↔ _
  exact throughout_new policy mapOwner clear_of_skip (fun p l m h => staysClear_iff h m) entries

/-- A layer with a symbolic link `link` and an opaque marker in it. -/
def opaqueLinkLayer : List EntryMetadata :=
  [{ kind := .symlink, path := .fromBytes (bstr "link")
     linkTarget := some (.fromBytes (bstr "target")) },
   { kind := .file, path := .fromBytes (bstr "link/.wh..wh..opq") }]

/-- The marker is planned, so what the link points to is cleared. -/
theorem not_contained_opaqueLinkLayer :
    ¬ Contained (.unix true) ((OciLayerPlanner.new (.unix true) { symlinks := true } id).observeAll
      opaqueLinkLayer).operations := by
  have hops : ((OciLayerPlanner.new (.unix true) { symlinks := true } id).observeAll
      opaqueLinkLayer).operations =
      [.materialize ⟨{ kind := .symlink, path := .fromBytes (bstr "link")
                       linkTarget := some (.fromBytes (bstr "target")) },
        [bstr "link"], some [bstr "target"], none⟩,
       .opaqueDir ⟨.fromBytes (bstr "link/.wh..wh..opq"), [bstr "link"]⟩] := by
    decide +kernel
  rw [hops]
  intro h
  have hnormal : ∀ c ∈ [bstr "link", bstr "x"], Normal (.unix true) c := by decide +kernel
  let link : DestinationKey (.unix true) :=
    ⟨[bstr "link"], [bstr "link"], by simp, fun c hc => hnormal c (by simp_all), rfl⟩
  let below : DestinationKey (.unix true) :=
    ⟨[bstr "link", bstr "x"], [bstr "link", bstr "x"], by simp, hnormal, rfl⟩
  have hpre : [bstr "link"] <+: [bstr "link", bstr "x"] := by decide
  have hne : [bstr "link"] ≠ [bstr "link", bstr "x"] := by decide
  exact h [_] _ [] rfl below ⟨hpre, hne⟩ _ List.mem_cons_self link ⟨_, rfl, rfl, rfl⟩ ⟨hpre, hne⟩

end LibarchiveOxide.Oci.Symlinks
