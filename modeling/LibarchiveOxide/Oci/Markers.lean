import LibarchiveOxide.Oci.Soundness

/-! # Overlay markers

The planner classifies an entry by the last piece of its raw path, after one trailing slash is
removed; its destination is made of the named pieces. The two notions of a last component differ for
paths that end with two slashes or with a dot component. `observe_recognised_iff` says for which
paths the operation is the one the marker stands for. -/

namespace LibarchiveOxide.Oci.Markers

open Core.Failure Core.Metadata Extract.Path Extract.Plan Extract.Topology Oci.Plan
open Oci.Plan.OciLayerPlanner Lib.Pieces

/-- The operation an entry with these parent components and this last component may get: a refusal,
the clearing of the parent for an opaque marker, the removal of the named child of the parent for
another marker, and a materialization at the path itself for anything else. -/
inductive Recognised (host : Host) (parent : List Component) (last : Component) :
    OciPlanOperation → Prop
  | rejected (r : OciReject) : Recognised host parent last (.reject r)
  | opaqueDir (path : ArchivePath) (h : last = opaqueMarker) :
      Recognised host parent last (.opaqueDir ⟨path, parent⟩)
  | whiteout (path : ArchivePath) (name : Component) (ho : last ≠ opaqueMarker)
      (h : last = whiteoutPrefix ++ name) (hn : Normal host name) :
      Recognised host parent last (.whiteout ⟨path, parent ++ [name]⟩)
  | placed (op : OciPlanOperation) (o : OciMaterialize) (hp : op.placed? = some o)
      (hd : o.destination = parent ++ [last]) (h : ¬ whiteoutPrefix <+: last) :
      Recognised host parent last op

/-- A marker is spelled as the last piece of its path, and is not `.wh..` in a directory. -/
def Plain (raw : List Byte) (parent : List Component) (last : Component) : Prop :=
  (whiteoutPrefix <+: last → (splitLast raw).2 = last) ∧
    ¬ (last = whiteoutPrefix ++ dot ∧ parent ≠ [])

/-! ### The last piece -/

/-- The separator of a Unix host. -/
def isSlash (b : Byte) : Bool := b == chr '/'

theorem isSlash_slash : isSlash (chr '/') = true := by decide

theorem filter_named_trimSlash (raw : List Byte) :
    (pieces isSlash raw).filter named = (pieces isSlash (trimSlash raw)).filter named := by
  unfold trimSlash
  split_ifs with h
  · obtain ⟨t, rfl⟩ := List.getLast?_eq_some_iff.mp h
    rw [List.dropLast_concat, pieces_append isSlash_slash, List.filter_append]
    have hnil : (pieces isSlash []).filter named = [] := rfl
    rw [hnil, List.append_nil]
  · rfl

/-- The named pieces of a path are those of its parent and, if it is named, its last piece. -/
theorem filter_named_splitLast (raw : List Byte) :
    (pieces isSlash raw).filter named =
      (pieces isSlash (splitLast raw).1).filter named ++ [(splitLast raw).2].filter named ∧
    ∀ b ∈ (splitLast raw).2, isSlash b = false := by
  rw [filter_named_trimSlash]
  unfold splitLast
  cases hb : breakLast (· == chr '/') (trimSlash raw) with
  | none =>
    have hsep : ∀ b ∈ trimSlash raw, isSlash b = false := breakLast_eq_none hb
    rw [Option.getD_none, pieces_of_not_sep hsep]
    exact ⟨rfl, hsep⟩
  | some xy =>
    obtain ⟨x, y⟩ := xy
    obtain ⟨hy, s, hs, ht⟩ := breakLast_eq_some hb
    have hy' : ∀ b ∈ y, isSlash b = false := hy
    rw [Option.getD_some, ht, pieces_append (p := isSlash) hs, pieces_of_not_sep hy',
      List.filter_append]
    exact ⟨rfl, hy'⟩

/-- The parent is a prefix of the path. -/
theorem splitLast_prefix (raw : List Byte) : (splitLast raw).1 <+: raw := by
  have ht : trimSlash raw <+: raw := by
    unfold trimSlash
    split_ifs
    · exact List.dropLast_prefix _
    · exact List.prefix_rfl
  refine List.IsPrefix.trans ?_ ht
  unfold splitLast
  cases hb : breakLast (· == chr '/') (trimSlash raw) with
  | none => exact List.nil_prefix
  | some xy =>
    obtain ⟨x, y⟩ := xy
    obtain ⟨-, s, -, ht⟩ := breakLast_eq_some hb
    rw [Option.getD_some, ht]
    exact List.prefix_append _ _

theorem mem_of_mem_splitLast {raw : List Byte} {b : Byte} (h : b ∈ (splitLast raw).2) : b ∈ raw := by
  have ht : ∀ b ∈ trimSlash raw, b ∈ raw := by
    intro b hb
    unfold trimSlash at hb
    split_ifs at hb
    · exact List.mem_of_mem_dropLast hb
    · exact hb
  refine ht b ?_
  unfold splitLast at h
  cases hb : breakLast (· == chr '/') (trimSlash raw) with
  | none =>
    rw [hb] at h
    exact h
  | some xy =>
    obtain ⟨x, y⟩ := xy
    rw [hb] at h
    obtain ⟨-, s, -, ht⟩ := breakLast_eq_some hb
    rw [ht]
    exact List.mem_append_right _ (List.mem_cons_of_mem _ h)

theorem sanitize_unix {special : Bool} {raw : List Byte} {path : List Component} :
    sanitize (.unix special) raw = some path ↔
      (raw.head? ≠ some (chr '/') ∧ 0 ∉ raw) ∧ path = (pieces isSlash raw).filter named ∧
        path ≠ [] ∧ dotDot ∉ path := by
  rw [sanitize_eq_some]
  have hhead : raw.head?.any (Host.unix special).isSeparator = false ↔
      raw.head? ≠ some (chr '/') := by
    cases raw with
    | nil => simp
    | cons b rest => simp [Host.unix]
  have hall : (∀ c ∈ path, c ≠ dotDot ∧ ((Host.unix special).identity c).isSome) ↔
      dotDot ∉ path := by
    constructor
    · intro h hd
      exact (h _ hd).1 rfl
    · intro h c hc
      refine ⟨?_, rfl⟩
      rintro rfl
      exact h hc
  rw [hhead, hall]
  simp only [Host.unix, List.contains_iff_mem, and_true, Bool.eq_false_iff, ne_eq]
  rfl

section
variable {special : Bool} {raw : List Byte} {parent : List Component} {last : Component}

/-- The last piece is the last component, or it names nothing. -/
theorem splitLast_cases (h : sanitize (.unix special) raw = some (parent ++ [last])) :
    ((splitLast raw).2 = last ∧ (pieces isSlash (splitLast raw).1).filter named = parent ∧
      named last = true) ∨
      (splitLast raw).2 = [] ∨ (splitLast raw).2 = dot := by
  obtain ⟨-, hp, -, -⟩ := sanitize_unix.mp h
  rw [(filter_named_splitLast raw).1] at hp
  by_cases hn : named (splitLast raw).2 = true
  · rw [List.filter_singleton, hn, cond_true] at hp
    obtain ⟨h1, h2⟩ := List.append_inj' hp rfl
    rw [List.singleton_inj] at h2
    exact .inl ⟨h2.symm, h1.symm, h2 ▸ hn⟩
  · right
    by_contra hc
    rw [not_or] at hc
    exact hn (by simp [named, hc.1, hc.2])

/-- The parent of a path that ends with its last component names the parent components. -/
theorem sanitize_parent (h : sanitize (.unix special) raw = some (parent ++ [last]))
    (hp : (pieces isSlash (splitLast raw).1).filter named = parent) :
    removalDestination (.unix special) (splitLast raw).1 = some parent ∨
      (parent = [] ∧ removalDestination (.unix special) (splitLast raw).1 = none) := by
  obtain ⟨⟨hhead, hzero⟩, -, -, hdots⟩ := sanitize_unix.mp h
  have hpre := splitLast_prefix raw
  unfold removalDestination
  by_cases he : (splitLast raw).1.isEmpty = true
  · rw [if_pos he]
    have hnil : (splitLast raw).1 = [] := by simpa using he
    rw [hnil] at hp
    left
    rw [← hp]
    rfl
  rw [if_neg he]
  have hhead' : (splitLast raw).1.head? ≠ some (chr '/') := by
    intro hh
    obtain ⟨rest, hrest⟩ := List.head?_eq_some_iff.mp hh
    obtain ⟨t, ht⟩ := hpre
    rw [← ht, hrest] at hhead
    exact hhead rfl
  have hzero' : (0 : Byte) ∉ (splitLast raw).1 := fun hz => hzero (hpre.subset hz)
  by_cases hnil : parent = []
  · refine .inr ⟨hnil, ?_⟩
    rw [Option.eq_none_iff_forall_ne_some]
    intro path hpath
    obtain ⟨-, rfl, hne, -⟩ := sanitize_unix.mp hpath
    exact hne (hp.trans hnil)
  · left
    exact sanitize_unix.mpr ⟨⟨hhead', hzero'⟩, hp.symm, hnil,
      fun hd => hdots (List.mem_append_left _ hd)⟩

/-- The target of a whiteout next to the parent components. -/
theorem sanitize_join (h : sanitize (.unix special) raw = some (parent ++ [last]))
    (hp : (pieces isSlash (splitLast raw).1).filter named = parent) {name : Component}
    (hs : ∀ b ∈ name, isSlash b = false ∧ b ≠ 0) (hne : name ≠ []) {path : List Component} :
    sanitize (.unix special) (join (splitLast raw).1 name) = some path ↔
      path = parent ++ [name].filter named ∧ path ≠ [] ∧ name ≠ dotDot := by
  obtain ⟨⟨hhead, hzero⟩, -, -, hdots⟩ := sanitize_unix.mp h
  have hpre := splitLast_prefix raw
  have hsep : ∀ b ∈ name, isSlash b = false := fun b hb => (hs b hb).1
  have hfilter : (pieces isSlash (join (splitLast raw).1 name)).filter named =
      parent ++ [name].filter named := by
    unfold join
    split_ifs with he
    · have hnil : (splitLast raw).1 = [] := by simpa using he
      rw [hnil] at hp
      rw [pieces_of_not_sep hsep, ← hp]
      rfl
    · rw [pieces_append isSlash_slash, pieces_of_not_sep hsep, List.filter_append, hp]
  have hhead' : (join (splitLast raw).1 name).head? ≠ some (chr '/') := by
    unfold join
    split_ifs with he
    · intro hh
      obtain ⟨rest, hrest⟩ := List.head?_eq_some_iff.mp hh
      have := hsep (chr '/') (by rw [hrest]; exact List.mem_cons_self)
      rw [isSlash_slash] at this
      cases this
    · obtain ⟨t, ht⟩ := hpre
      have hne' : (splitLast raw).1 ≠ [] := by simpa using he
      rw [List.head?_append_of_ne_nil _ hne']
      rw [← ht, List.head?_append_of_ne_nil _ hne'] at hhead
      exact hhead
  have hzero' : (0 : Byte) ∉ join (splitLast raw).1 name := by
    unfold join
    split_ifs with he
    · intro hz
      exact (hs 0 hz).2 rfl
    · intro hz
      rcases List.mem_append.mp hz with hz | hz
      · exact hzero (hpre.subset hz)
      · rcases List.mem_cons.mp hz with hz | hz
        · exact absurd hz (by decide)
        · exact (hs 0 hz).2 rfl
  have hdots' : dotDot ∉ parent ++ [name].filter named ↔ name ≠ dotDot := by
    constructor
    · rintro hd rfl
      exact hd (List.mem_append_right _ (by decide))
    · intro hd hmem
      rcases List.mem_append.mp hmem with hmem | hmem
      · exact hdots (List.mem_append_left _ hmem)
      · exact hd (List.mem_singleton.mp (List.mem_of_mem_filter hmem)).symm
  rw [sanitize_unix, hfilter]
  constructor
  · rintro ⟨-, rfl, hne, hd⟩
    exact ⟨rfl, hne, hdots'.mp hd⟩
  · rintro ⟨rfl, hne, hd⟩
    exact ⟨⟨hhead', hzero'⟩, rfl, hne, hdots'.mpr hd⟩

/-! ### What is planned -/

variable {p : OciLayerPlanner (.unix special)} {m : EntryMetadata}

theorem fromArchivePath_of_sanitize {path : ArchivePath} {components : List Component}
    (he : path.encoding ≠ .utf16Le) (h : sanitize (.unix special) path.raw = some components) :
    ∃ k, DestinationKey.fromArchivePath (.unix special) path = some k ∧ k.path = components := by
  have hsan : sanitizeArchivePath (.unix special) path = some components := by
    unfold sanitizeArchivePath
    cases henc : path.encoding with
    | bytes => exact h
    | utf8 => exact h
    | utf16Le => exact absurd henc he
  obtain ⟨k, hk⟩ := key_of_sanitize h
  refine ⟨k, ?_, fromRelativePath_eq_some hk⟩
  rw [DestinationKey.fromArchivePath, hsan]
  exact hk

/-- An entry whose raw path is no marker is placed or refused. -/
theorem recognised_regular (h : sanitize (.unix special) m.path.raw = some (parent ++ [last]))
    (he : m.path.encoding ≠ .utf16Le) (hl : ¬ whiteoutPrefix <+: last) :
    Recognised (.unix special) parent last (p.planMaterialize m).1 := by
  unfold planMaterialize
  split_ifs
  · exact .rejected _
  obtain ⟨k, hk, hpath⟩ := fromArchivePath_of_sanitize he h
  rw [hk]
  dsimp only
  split_ifs
  · exact .rejected _
  split
  · exact .rejected _
  split
  · exact .rejected _
  split_ifs
  · exact .rejected _
  · exact .placed _ _ (placed?_materializeAs _ _) hpath hl

theorem classify_eq (raw : List Byte) : classify raw =
    if (splitLast raw).2 = opaqueMarker then .opaqueDirectory (splitLast raw).1
    else if whiteoutPrefix.isPrefixOf (splitLast raw).2 then
      if ((splitLast raw).2.drop whiteoutPrefix.length).isEmpty then .unsafePath
      else .whiteout (join (splitLast raw).1 ((splitLast raw).2.drop whiteoutPrefix.length))
    else .regular := rfl

/-- **A plainly spelled path is recognised**, whatever the planner knows. -/
theorem recognised_of_plain (h : sanitize (.unix special) m.path.raw = some (parent ++ [last]))
    (he : m.path.encoding ≠ .utf16Le) (hp : Plain m.path.raw parent last) :
    Recognised (.unix special) parent last (p.planOperation m).1 := by
  have hcases := splitLast_cases h
  by_cases hl : whiteoutPrefix <+: last
  · have hpiece := hp.1 hl
    have hparent : (pieces isSlash (splitLast m.path.raw).1).filter named = parent := by
      rcases hcases with ⟨-, hparent, -⟩ | hc | hc
      · exact hparent
      · rw [hpiece] at hc
        rw [hc] at hl
        exact absurd hl (by decide)
      · rw [hpiece] at hc
        rw [hc] at hl
        exact absurd hl (by decide)
    unfold planOperation
    rw [classify_eq, hpiece]
    by_cases ho : last = opaqueMarker
    · rw [if_pos ho]
      dsimp only
      rcases sanitize_parent h hparent with hd | ⟨-, hd⟩
      · rw [planRemoval_some true hd, if_pos rfl]
        split_ifs
        · exact .rejected _
        · exact .opaqueDir _ ho
      · rw [planRemoval_none true hd]
        exact .rejected _
    · rw [if_neg ho, if_pos (List.isPrefixOf_iff_prefix.mpr hl)]
      obtain ⟨name, hname⟩ := hl
      have hdrop : last.drop whiteoutPrefix.length = name := by rw [← hname, List.drop_left]
      rw [hdrop]
      by_cases hne : name.isEmpty = true
      · rw [if_pos hne]
        exact .rejected _
      rw [if_neg hne]
      have hne' : name ≠ [] := by simpa using hne
      dsimp only
      have hs : ∀ b ∈ name, isSlash b = false ∧ b ≠ 0 := by
        intro b hb
        have hmem : b ∈ (splitLast m.path.raw).2 := by
          rw [hpiece, ← hname]
          exact List.mem_append_right _ hb
        refine ⟨(filter_named_splitLast m.path.raw).2 b hmem, ?_⟩
        rintro rfl
        exact (sanitize_unix.mp h).1.2 (mem_of_mem_splitLast hmem)
      have hjoin : removalDestination (.unix special) (join (splitLast m.path.raw).1 name) =
          sanitize (.unix special) (join (splitLast m.path.raw).1 name) := by
        unfold removalDestination
        rw [if_neg]
        unfold join
        split_ifs
        · simpa using hne'
        · simp
      cases hd : sanitize (.unix special) (join (splitLast m.path.raw).1 name) with
      | none =>
        rw [planRemoval_none false (hjoin.trans hd)]
        exact .rejected _
      | some destination =>
        obtain ⟨rfl, hdne, hdots⟩ := (sanitize_join h hparent hs hne').mp hd
        have hdot : name ≠ dot := by
          rintro rfl
          have hpn : parent = [] := by
            by_contra hpn
            exact hp.2 ⟨hname.symm, hpn⟩
          rw [hpn] at hdne
          exact hdne rfl
        have hnamed : [name].filter named = [name] := by
          rw [List.filter_singleton]
          simp [named, hne', hdot]
        rw [planRemoval_some false (hjoin.trans hd), if_neg Bool.false_ne_true]
        split_ifs
        · exact .rejected _
        · rw [hnamed]
          exact .whiteout _ name ho hname.symm ⟨hne', hdot, hdots, fun b hb => (hs b hb).1⟩
  · have hreg : classify m.path.raw = .regular := by
      have hpre : ¬ whiteoutPrefix <+: (splitLast m.path.raw).2 := by
        rcases hcases with ⟨hc, -, -⟩ | hc | hc
        · rw [hc]
          exact hl
        · rw [hc]
          decide
        · rw [hc]
          decide
      have hopq : (splitLast m.path.raw).2 ≠ opaqueMarker := by
        intro hc
        rw [hc] at hpre
        exact hpre (by decide)
      rw [classify_eq, if_neg hopq, if_neg]
      rw [List.isPrefixOf_iff_prefix]
      exact hpre
    unfold planOperation
    rw [hreg]
    exact recognised_regular h he hl

/-! ### Exactly the plain paths -/

theorem recognised_placed {op : OciPlanOperation} {o : OciMaterialize} (ho : op.placed? = some o)
    (h : Recognised (.unix special) parent last op) : ¬ whiteoutPrefix <+: last := by
  cases h with
  | rejected => cases ho
  | opaqueDir => cases ho
  | whiteout => cases ho
  | placed _ _ _ _ hl => exact hl

theorem recognised_whiteout {path : ArchivePath} {destination : List Component}
    (h : Recognised (.unix special) parent last (.whiteout ⟨path, destination⟩)) :
    destination ≠ parent := by
  cases h with
  | whiteout _ name => simp
  | placed _ _ hp => cases hp

theorem escapesSymlink_new (policy : Policy) (mapOwner : Owner → Owner)
    (destination : List Component) :
    (OciLayerPlanner.new (.unix special) policy mapOwner).escapesSymlink destination = false := by
  by_contra hcon
  simp only [escapesSymlink, Bool.not_eq_false, List.any_eq_true, Bool.and_eq_true,
    Option.any_eq_true] at hcon
  obtain ⟨_, _, _, _, _, hcon⟩ := hcon
  cases hcon

/-- A fresh planner places a regular file. -/
theorem placed_fresh {components : List Component}
    (h : sanitize (.unix special) raw = some components) (hc : classify raw = .regular) :
    ∃ o, ((OciLayerPlanner.new (.unix special) {} id).planOperation
      { kind := .file, path := .fromBytes raw }).1.placed? = some o := by
  have henc : (ArchivePath.fromBytes raw).encoding ≠ .utf16Le := by simp [ArchivePath.fromBytes]
  obtain ⟨k, hk, -⟩ := fromArchivePath_of_sanitize henc h
  have hclaim : (OciLayerPlanner.new (.unix special) {} id).claimed.claim k .file ≠ none := by
    unfold DestinationClaims.claim
    dsimp only
    rw [if_neg]
    · simp
    · simp [new, contains]
  obtain ⟨claimed, hclaimed⟩ := Option.ne_none_iff_exists'.mp hclaim
  rw [planOperation, show classify (ArchivePath.fromBytes raw).raw = .regular from hc]
  dsimp only
  rw [planMaterialize, if_neg (by simp [isExternalReference]), hk]
  dsimp only
  rw [if_neg (by simp [escapesSymlink_new]), hclaimed]
  exact ⟨_, rfl⟩

/-- The paths on which a fresh planner's decision is right are plain. -/
theorem plain_of_recognised (h : sanitize (.unix special) raw = some (parent ++ [last]))
    (hr : Recognised (.unix special) parent last
      ((OciLayerPlanner.new (.unix special) {} id).planOperation
        { kind := .file, path := .fromBytes raw }).1) : Plain raw parent last := by
  have hspell : whiteoutPrefix <+: last → (splitLast raw).2 = last := by
    intro hl
    by_contra hne
    have hreg : classify raw = .regular := by
      rw [classify_eq]
      rcases splitLast_cases h with ⟨hc, -, -⟩ | hc | hc
      · exact absurd hc hne
      · rw [hc]
        rfl
      · rw [hc]
        rfl
    obtain ⟨o, ho⟩ := placed_fresh h hreg
    exact recognised_placed ho hr hl
  refine ⟨hspell, ?_⟩
  rintro ⟨hl, hpn⟩
  have hpiece := hspell (hl ▸ List.prefix_append _ _)
  have hparent : (pieces isSlash (splitLast raw).1).filter named = parent := by
    rcases splitLast_cases h with ⟨-, hp, -⟩ | hc | hc
    · exact hp
    · rw [hpiece, hl] at hc
      exact absurd hc (by decide)
    · rw [hpiece, hl] at hc
      exact absurd hc (by decide)
  have hsan : sanitize (.unix special) (join (splitLast raw).1 dot) = some parent := by
    refine (sanitize_join h hparent (by decide +kernel) (by decide +kernel)).mpr ⟨?_, hpn, by decide⟩
    simp [named]
  have hdest : removalDestination (.unix special) (join (splitLast raw).1 dot) = some parent := by
    rw [← hsan, removalDestination, if_neg]
    unfold join
    split_ifs
    · decide
    · simp
  have hcl : classify raw = .whiteout (join (splitLast raw).1 dot) := by
    rw [classify_eq, hpiece, hl]
    rfl
  rw [planOperation, show classify (ArchivePath.fromBytes raw).raw = _ from hcl] at hr
  dsimp only at hr
  rw [planRemoval_some false hdest, if_neg (by simp [escapesSymlink_new]), if_neg Bool.false_ne_true] at hr
  exact recognised_whiteout hr rfl

theorem not_skip_of_sanitize (hs : sanitize (.unix special) m.path.raw = some (parent ++ [last])) :
    isStructuralSkip m = false := by
  by_contra hc
  simp only [isStructuralSkip, isArchiveRoot, Bool.not_eq_false, Bool.and_eq_true, Bool.or_eq_true,
    beq_iff_eq] at hc
  obtain ⟨-, -, hne, -⟩ := sanitize_unix.mp hs
  obtain ⟨-, hp, -, -⟩ := sanitize_unix.mp hs
  rcases hc.2 with hc | hc
  · rw [hc] at hp
    exact hne (hp.trans (by decide))
  · rw [hc] at hp
    exact hne (hp.trans (by decide))

end

/-- **Which paths are recognised.** For a path with these components, every planner in every state
answers an entry of that path with one operation that the last component stands for, if and only if a
marker is spelled as the last piece of the path and is not `.wh..` in a directory. -/
theorem observe_recognised_iff (special : Bool) (raw : List Byte) (parent : List Component)
    (last : Component) (h : sanitize (.unix special) raw = some (parent ++ [last])) :
    (∀ (policy : Policy) (mapOwner : Owner → Owner) (history : List EntryMetadata) (m : EntryMetadata),
      m.path.raw = raw → m.path.encoding ≠ .utf16Le →
      ∃ op, ((((OciLayerPlanner.new (.unix special) policy mapOwner).observeAll history).observe
          m).operations =
        ((OciLayerPlanner.new (.unix special) policy mapOwner).observeAll history).operations ++ [op] ∧
        Recognised (.unix special) parent last op)) ↔ Plain raw parent last := by
  constructor
  · intro hall
    have hskip : isStructuralSkip { kind := .file, path := .fromBytes raw } = false := rfl
    obtain ⟨op, hop, hr⟩ := hall {} id [] { kind := .file, path := .fromBytes raw } rfl
      (by simp [ArchivePath.fromBytes])
    rw [observe_eq _ hskip] at hop
    simp only at hop
    rw [(operations_of_decided (decided_planOperation _ _)).1] at hop
    obtain rfl := List.singleton_inj.mp (List.append_cancel_left hop)
    exact plain_of_recognised h hr
  · rintro hp policy mapOwner history m rfl he
    have hskip := not_skip_of_sanitize h
    generalize (OciLayerPlanner.new (.unix special) policy mapOwner).observeAll history = p
    refine ⟨(p.planOperation m).1, ?_, recognised_of_plain h he hp⟩
    rw [observe_eq _ hskip]
    simp only
    rw [(operations_of_decided (decided_planOperation p m)).1]

/-- The path `a/.wh.x` is plain, so it is recognised. -/
theorem observe_recognised_whiteout :
    sanitize (.unix true) (bstr "a/.wh.x") = some ([bstr "a"] ++ [bstr ".wh.x"]) ∧
    (∀ (policy : Policy) (mapOwner : Owner → Owner) (history : List EntryMetadata) (m : EntryMetadata),
      m.path.raw = bstr "a/.wh.x" → m.path.encoding ≠ .utf16Le →
      ∃ op, ((((OciLayerPlanner.new (.unix true) policy mapOwner).observeAll history).observe
          m).operations =
        ((OciLayerPlanner.new (.unix true) policy mapOwner).observeAll history).operations ++ [op] ∧
        Recognised (.unix true) [bstr "a"] (bstr ".wh.x") op)) :=
  ⟨by decide, (observe_recognised_iff true (bstr "a/.wh.x") [bstr "a"] (bstr ".wh.x")
    (by decide)).mpr ⟨fun _ => by decide, by decide⟩⟩

/-- The directory entry `a/.wh.x//` is materialized as `a/.wh.x`. -/
theorem not_recognised_double_slash :
    sanitize (.unix true) (bstr "a/.wh.x//") = some ([bstr "a"] ++ [bstr ".wh.x"]) ∧
    ¬ ∃ op, ((OciLayerPlanner.new (.unix true) {} id).observe
        { kind := .dir, path := .fromBytes (bstr "a/.wh.x//") }).operations = [op] ∧
      Recognised (.unix true) [bstr "a"] (bstr ".wh.x") op := by
  refine ⟨by decide, ?_⟩
  rintro ⟨op, hop, hr⟩
  have hops : ((OciLayerPlanner.new (.unix true) {} id).observe
      { kind := .dir, path := .fromBytes (bstr "a/.wh.x//") }).operations =
      [.materialize ⟨{ kind := .dir, path := .fromBytes (bstr "a/.wh.x//") },
        [bstr "a", bstr ".wh.x"], none, none⟩] := by decide +kernel
  rw [hops, List.singleton_inj] at hop
  subst hop
  exact recognised_placed rfl hr (by decide)

end LibarchiveOxide.Oci.Markers
