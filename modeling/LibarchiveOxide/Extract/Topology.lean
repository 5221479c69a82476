import LibarchiveOxide.Extract.Filesystem

/-! # Destinations that do not conflict

`Sound` is what a list of materialized destinations must satisfy: normal paths, no identity twice,
nothing below a destination that is no directory, and hard links to earlier files only. A successful
claim keeps it (`Covers.claim`): the claims cover every destination accepted so far. -/

namespace LibarchiveOxide.Extract.Topology

open Core.Failure Core.Metadata Extract.Path Lib.Pieces

variable {host : Host}

/-! ### Keys and their ancestors -/

variable {path : List Component} {k : DestinationKey host} {s : List (DestinationKey host)}

/-- The identity is a proper ancestor of the other one. -/
def Above (a b : DestinationKey host) : Prop := a.identity <+: b.identity ∧ a.identity ≠ b.identity

theorem mapM_eq_some {α β : Type} {f : α → Option β} : ∀ {l : List α} {r : List β},
    l.mapM f = some r ↔ List.Forall₂ (fun a b => f a = some b) l r
  | [], r => by
    rw [List.mapM_nil]
    constructor
    · intro h
      cases h
      exact .nil
    · intro h
      cases h
      rfl
  | a :: l, r => by
    rw [List.mapM_cons]
    constructor
    · intro h
      obtain ⟨b, hb, h⟩ := Option.bind_eq_some_iff.mp h
      obtain ⟨s, hs, h⟩ := Option.bind_eq_some_iff.mp h
      cases h
      exact .cons hb (mapM_eq_some.mp hs)
    · intro h
      cases h with
      | cons hb hs =>
        rw [hb, mapM_eq_some.mpr hs]
        rfl

theorem exists_of_mem_left {α β : Type*} {r : α → β → Prop} {a : α} : ∀ {l : List α} {l' : List β},
    List.Forall₂ r l l' → a ∈ l → ∃ b ∈ l', r a b
  | _, _, .nil, h => absurd h List.not_mem_nil
  | _, _, .cons hr hs, h => by
    rcases List.mem_cons.mp h with rfl | h
    · exact ⟨_, List.mem_cons_self, hr⟩
    · obtain ⟨b, hb, hab⟩ := exists_of_mem_left hs h
      exact ⟨b, List.mem_cons_of_mem _ hb, hab⟩

theorem length_identity (k : DestinationKey host) : k.identity.length = k.path.length :=
  (mapM_eq_some.mp k.identity_eq).length_eq.symm

theorem identity_ne (k : DestinationKey host) : k.identity ≠ [] := by
  intro h
  have hl := length_identity k
  rw [h] at hl
  exact k.path_ne (List.length_eq_zero_iff.mp hl.symm)

theorem fromRelativePath_eq_some (h : DestinationKey.fromRelativePath host path = some k) :
    k.path = path := by
  unfold DestinationKey.fromRelativePath at h
  split_ifs at h
  split at h
  · cases h
    rfl
  · cases h

theorem fromRelativePath_take (k : DestinationKey host) {n : ℕ} (hn : 0 < n) :
    ∃ a, DestinationKey.fromRelativePath host (k.path.take n) = some a ∧
      a.identity = k.identity.take n := by
  have hid : (k.path.take n).mapM host.identity = some (k.identity.take n) :=
    mapM_eq_some.mpr (List.forall₂_take n (mapM_eq_some.mp k.identity_eq))
  have hok : k.path.take n ≠ [] ∧ ∀ c ∈ k.path.take n, Normal host c := by
    refine ⟨?_, fun c hc => k.normal c (List.mem_of_mem_take hc)⟩
    intro h
    rcases List.take_eq_nil_iff.mp h with h | h
    · omega
    · exact k.path_ne h
  refine ⟨⟨_, _, hok.1, hok.2, hid⟩, ?_, rfl⟩
  unfold DestinationKey.fromRelativePath
  rw [dif_pos hok]
  split
  · next hi =>
    rw [hid] at hi
    cases hi
    rfl
  · next hi =>
    rw [hid] at hi
    cases hi

theorem fromRelativePath_of_forall (hne : path ≠ [])
    (hn : ∀ c ∈ path, Normal host c ∧ (host.identity c).isSome) :
    ∃ k, DestinationKey.fromRelativePath host path = some k := by
  have hid : ∃ identity, path.mapM host.identity = some identity := by
    clear hne
    induction path with
    | nil => exact ⟨[], rfl⟩
    | cons c rest ih =>
      obtain ⟨hc, hrest⟩ := List.forall_mem_cons.mp hn
      obtain ⟨i, hi⟩ := Option.isSome_iff_exists.mp hc.2
      obtain ⟨is, his⟩ := ih hrest
      exact ⟨i :: is, mapM_eq_some.mpr (.cons hi (mapM_eq_some.mp his))⟩
  obtain ⟨identity, hid⟩ := hid
  have hok : path ≠ [] ∧ ∀ c ∈ path, Normal host c := ⟨hne, fun c hc => (hn c hc).1⟩
  refine ⟨⟨path, identity, hok.1, hok.2, hid⟩, ?_⟩
  unfold DestinationKey.fromRelativePath
  rw [dif_pos hok]
  split
  · next hi =>
    rw [hid] at hi
    cases hi
    rfl
  · next hi =>
    rw [hid] at hi
    cases hi

/-- The components that `sanitize` keeps. -/
def named (c : Component) : Bool := c ≠ [] && c ≠ dot

theorem collect_eq_some : ∀ {ps out : List Component}, collect host ps = some out ↔
    out = ps.filter named ∧ ∀ c ∈ out, c ≠ dotDot ∧ (host.identity c).isSome
  | [], out => by
    constructor
    · intro h
      cases h
      simp
    · rintro ⟨rfl, -⟩
      rfl
  | c :: rest, out => by
    rw [collect]
    by_cases hc : c = [] ∨ c = dot
    · have hn : named c = false := by
        rcases hc with rfl | rfl
        · rfl
        · rfl
      rw [if_pos hc, List.filter_cons_of_neg (by simp [hn])]
      exact collect_eq_some
    · have hn : named c = true := by
        rw [not_or] at hc
        simp [named, hc.1, hc.2]
      rw [if_neg hc, List.filter_cons_of_pos hn]
      constructor
      · intro h
        split_ifs at h with h1 h2
        obtain ⟨out', hout, rfl⟩ := Option.map_eq_some_iff.mp h
        obtain ⟨rfl, hall⟩ := collect_eq_some.mp hout
        refine ⟨rfl, List.forall_mem_cons.mpr ⟨⟨h1, ?_⟩, hall⟩⟩
        cases hi : host.identity c with
        | none => simp [hi] at h2
        | some i => rfl
      · rintro ⟨rfl, hall⟩
        obtain ⟨⟨h1, h2⟩, hall⟩ := List.forall_mem_cons.mp hall
        rw [if_neg h1, if_neg (by simp [Option.isSome_iff_ne_none.mp h2]),
          collect_eq_some.mpr ⟨rfl, hall⟩]
        rfl

/-- What `sanitize` returns: the named pieces of a relative path. -/
theorem sanitize_eq_some {raw : List Byte} :
    sanitize host raw = some path ↔
      (raw.head?.any host.isSeparator = false ∧ raw.contains 0 = false ∧ host.isText raw = true) ∧
      path = (pieces host.isSeparator raw).filter named ∧ path ≠ [] ∧
      ∀ c ∈ path, c ≠ dotDot ∧ (host.identity c).isSome := by
  unfold sanitize
  split_ifs with h
  · constructor
    · intro h'
      cases h'
    · rintro ⟨⟨h1, h2, h3⟩, -⟩
      rw [h1, h2, h3] at h
      simp at h
  · rw [Option.filter_eq_some_iff, collect_eq_some]
    simp only [Bool.or_eq_true, not_or, Bool.not_eq_true, Bool.not_eq_false'] at h
    constructor
    · rintro ⟨⟨hp, hall⟩, hne⟩
      exact ⟨⟨h.1.1, h.1.2, h.2⟩, hp, by simpa using hne, hall⟩
    · rintro ⟨-, hp, hne, hall⟩
      exact ⟨⟨hp, hall⟩, by simpa using hne⟩

/-- A sanitized path is a destination. -/
theorem key_of_sanitize {raw : List Byte} (h : sanitize host raw = some path) :
    ∃ k, DestinationKey.fromRelativePath host path = some k := by
  obtain ⟨-, hp, hne, hall⟩ := sanitize_eq_some.mp h
  refine fromRelativePath_of_forall hne ?_
  intro c hc
  have hmem := hc
  rw [hp, List.mem_filter] at hmem
  obtain ⟨hpiece, hn⟩ := hmem
  have hn' : c ≠ [] ∧ c ≠ dot := by simpa [named] using hn
  exact ⟨⟨hn'.1, hn'.2, (hall c hc).1, not_sep_of_mem_pieces hpiece⟩, (hall c hc).2⟩

theorem contains_iff : contains s k = true ↔ ∃ x ∈ s, x.identity = k.identity := by
  simp [contains]

theorem contains_insert {k' : DestinationKey host} :
    contains (insert s k) k' = true ↔ k.identity = k'.identity ∨ contains s k' = true := by
  unfold Path.insert
  split_ifs with h
  · constructor
    · exact Or.inr
    · rintro (hk | hk)
      · obtain ⟨x, hx, hxk⟩ := contains_iff.mp h
        exact contains_iff.mpr ⟨x, hx, hxk.trans hk⟩
      · exact hk
  · simp [contains_iff]

theorem contains_foldl_insert {l : List (DestinationKey host)} :
    contains (l.foldl insert s) k = true ↔ contains s k = true ∨ contains l k = true := by
  induction l generalizing s with
  | nil => simp [contains_iff]
  | cons x l ih =>
    rw [List.foldl_cons, ih, contains_insert]
    simp only [contains_iff, List.mem_cons, exists_eq_or_imp]
    rw [or_assoc, or_left_comm]

theorem mem_properAncestors {p q : List Component} :
    q ∈ DestinationKey.properAncestors p ↔ q <+: p ∧ q ≠ p ∧ q ≠ [] := by
  simp [DestinationKey.properAncestors]

/-- The ancestors of a key are the keys above it. -/
theorem contains_ancestors {a : DestinationKey host} :
    contains k.ancestors a = true ↔ Above a k := by
  rw [contains_iff]
  constructor
  · rintro ⟨x, hx, hxa⟩
    obtain ⟨q, hq, hxq⟩ := List.mem_filterMap.mp hx
    obtain ⟨hpre, hne, -⟩ := mem_properAncestors.mp hq
    obtain rfl := fromRelativePath_eq_some hxq
    have htake : x.path = k.path.take x.path.length := List.prefix_iff_eq_take.mp hpre
    have hlt : x.path.length < k.path.length := by
      refine lt_of_le_of_ne hpre.length_le ?_
      intro h
      exact hne (hpre.eq_of_length h)
    have hid : x.identity = k.identity.take x.path.length := by
      have h1 := mapM_eq_some.mpr (List.forall₂_take x.path.length (mapM_eq_some.mp k.identity_eq))
      rw [← htake, x.identity_eq] at h1
      exact Option.some.inj h1
    have hl := length_identity k
    rw [Above, ← hxa, hid]
    refine ⟨List.take_prefix _ _, ?_⟩
    intro h
    have := congrArg List.length h
    rw [List.length_take] at this
    omega
  · rintro ⟨hpre, hne⟩
    have hpos : 0 < a.identity.length := List.length_pos_iff.mpr (identity_ne a)
    have hlt : a.identity.length < k.identity.length := by
      refine lt_of_le_of_ne hpre.length_le ?_
      intro h
      exact hne (hpre.eq_of_length h)
    obtain ⟨x, hx, hxi⟩ := fromRelativePath_take k hpos
    refine ⟨x, List.mem_filterMap.mpr ⟨_, mem_properAncestors.mpr ⟨List.take_prefix _ _, ?_, ?_⟩, hx⟩,
      hxi.trans (List.prefix_iff_eq_take.mp hpre).symm⟩
    · intro h
      have := congrArg List.length h
      rw [List.length_take] at this
      have := length_identity k
      omega
    · intro h
      rcases List.take_eq_nil_iff.mp h with h | h
      · omega
      · exact k.path_ne h

/-! ### Sound placements -/

/-- A materialized destination. -/
structure Placement (host : Host) where
  key : DestinationKey host
  kind : EntryKind
  linkTarget : Option (List Component)

/-- The kinds that a hard link can name. -/
def Linkable (kind : EntryKind) : Prop := kind = .file ∨ kind = .hardlink

/-- The placement conflicts with none of the earlier ones. -/
def Fits (l : List (Placement host)) (x : Placement host) : Prop :=
  ∀ y ∈ l, y.key.identity ≠ x.key.identity ∧ (Above y.key x.key → y.kind = .dir) ∧
    (Above x.key y.key → x.kind = .dir)

/-- A hard link names a file or a hard link among the earlier placements. -/
def Linked (l : List (Placement host)) (x : Placement host) : Prop :=
  x.kind = .hardlink → ∃ y ∈ l, Linkable y.kind ∧ x.linkTarget = some y.key.path

/-- **The materialized destinations of a plan, in order.** -/
structure Sound (l : List (Placement host)) : Prop where
  normal : ∀ x ∈ l, x.key.path ≠ [] ∧ ∀ c ∈ x.key.path, Normal host c
  distinct : l.Pairwise fun x y => x.key.identity ≠ y.key.identity
  topology : ∀ x ∈ l, ∀ y ∈ l, Above x.key y.key → x.kind = .dir
  linked : ∀ pre x post, l = pre ++ x :: post → Linked pre x

theorem sound_nil : Sound ([] : List (Placement host)) where
  normal := by simp
  distinct := .nil
  topology := by simp
  linked := by simp

variable {l : List (Placement host)}

theorem Sound.append {x : Placement host} (h : Sound l) (hf : Fits l x) (hl : Linked l x) :
    Sound (l ++ [x]) := by
  refine ⟨?_, ?_, ?_, ?_⟩
  · intro y hy
    rcases List.mem_append.mp hy with hy | hy
    · exact h.normal y hy
    · rw [List.mem_singleton.mp hy]
      exact ⟨x.key.path_ne, x.key.normal⟩
  · refine List.pairwise_append.mpr ⟨h.distinct, List.pairwise_singleton _ _, ?_⟩
    intro y hy z hz
    rw [List.mem_singleton.mp hz]
    exact (hf y hy).1
  · intro y hy z hz hyz
    rcases List.mem_append.mp hy with hy | hy
    · rcases List.mem_append.mp hz with hz | hz
      · exact h.topology y hy z hz hyz
      · rw [List.mem_singleton.mp hz] at hyz
        exact (hf y hy).2.1 hyz
    · rw [List.mem_singleton.mp hy] at hyz ⊢
      rcases List.mem_append.mp hz with hz | hz
      · exact (hf z hz).2.2 hyz
      · rw [List.mem_singleton.mp hz] at hyz
        exact absurd rfl hyz.2
  · intro pre y post heq
    rcases List.eq_nil_or_concat post with rfl | ⟨post', z, rfl⟩
    · obtain ⟨rfl, hxy⟩ := List.append_inj' heq rfl
      cases hxy
      exact hl
    · have heq' : l ++ [x] = (pre ++ y :: post') ++ [z] := by simpa using heq
      obtain ⟨rfl, -⟩ := List.append_inj' heq' rfl
      exact h.linked pre y post' rfl

/-! ### Claims -/

/-- The claims know every accepted placement. -/
structure Covers (c : DestinationClaims host) (l : List (Placement host)) : Prop where
  claimed : ∀ x ∈ l, contains c.claimed x.key = true
  above : ∀ x ∈ l, ∀ a, Above a x.key → contains c.directoryPrefixes a = true
  nonDirectory : ∀ x ∈ l, x.kind ≠ .dir → contains c.nonDirectories x.key = true

theorem covers_nil : Covers ({} : DestinationClaims host) [] := ⟨by simp, by simp, by simp⟩

theorem Covers.of_append {c : DestinationClaims host} {x : Placement host}
    (h : Covers c (l ++ [x])) : Covers c l :=
  ⟨fun y hy => h.claimed y (List.mem_append_left _ hy),
    fun y hy => h.above y (List.mem_append_left _ hy),
    fun y hy => h.nonDirectory y (List.mem_append_left _ hy)⟩

theorem contains_congr {k' : DestinationKey host} (h : k.identity = k'.identity) :
    contains s k = contains s k' := by
  unfold contains
  rw [h]

/-- **A successful claim fits** what was accepted before, and is known from then on. -/
theorem Covers.claim {c c' : DestinationClaims host} (h : Covers c l) (x : Placement host)
    (hc : c.claim x.key x.kind = some c') : Fits l x ∧ Covers c' (l ++ [x]) := by
  unfold DestinationClaims.claim at hc
  dsimp only at hc
  split at hc
  · cases hc
  next hbad =>
  cases hc
  simp only [Bool.or_eq_true, Bool.and_eq_true, List.any_eq_true, not_or, not_and, not_exists]
    at hbad
  obtain ⟨⟨hclaimed, hanc⟩, hpre⟩ := hbad
  refine ⟨?_, ?_, ?_, ?_⟩
  · intro y hy
    refine ⟨?_, ?_, ?_⟩
    · intro he
      exact hclaimed ((contains_congr he).symm.trans (h.claimed y hy))
    · intro ha
      by_contra hk
      obtain ⟨a, hmem, hai⟩ := contains_iff.mp (contains_ancestors.mpr ha)
      exact hanc a hmem ((contains_congr hai).trans (h.nonDirectory y hy hk))
    · intro ha
      by_contra hk
      exact hpre (by simpa using hk) (h.above y hy x.key ha)
  · intro y hy
    rw [contains_insert]
    rcases List.mem_append.mp hy with hy | hy
    · exact .inr (h.claimed y hy)
    · rw [List.mem_singleton.mp hy]
      exact .inl rfl
  · intro y hy a ha
    rw [contains_foldl_insert]
    rcases List.mem_append.mp hy with hy | hy
    · exact .inl (h.above y hy a ha)
    · rw [List.mem_singleton.mp hy] at ha
      exact .inr (contains_ancestors.mpr ha)
  · intro y hy hk
    rcases List.mem_append.mp hy with hy | hy
    · split
      · exact contains_insert.mpr (.inr (h.nonDirectory y hy hk))
      · exact h.nonDirectory y hy hk
    · rw [List.mem_singleton.mp hy] at hk ⊢
      rw [if_pos (by simpa using hk)]
      exact contains_insert.mpr (.inl rfl)

end LibarchiveOxide.Extract.Topology

/-! # The extraction plan is sound -/

namespace LibarchiveOxide.Extract.PlanSound

open Core.Failure Core.Metadata Extract.Path Extract.Plan Extract.Topology

variable {host : Host}

/-- What a materialized entry of the plan places. -/
structure Places (e : PlannedEntry host) (x : Placement host) : Prop where
  destination : e.destination = some x.key
  kind : e.metadata.kind = x.kind
  linkTarget : e.linkTarget.map (·.path) = x.linkTarget

/-- The materialized entries of a plan. -/
def materialized (entries : List (PlannedEntry host)) : List (PlannedEntry host) :=
  entries.filter fun e => e.disposition == .materialize

/-- What the planning knows about the placements so far. -/
structure Planned (s : Planning host) (l : List (Placement host)) : Prop where
  covers : Covers s.claimed l
  committed : ∀ k ∈ s.committed, ∃ x ∈ l, x.key = k ∧ Linkable x.kind
  sound : Sound l

theorem mem_of_get {s : List (DestinationKey host)} {k k' : DestinationKey host}
    (h : get s k = some k') : k' ∈ s := List.mem_of_find?_eq_some h

theorem mem_of_mem_insert {s : List (DestinationKey host)} {k k' : DestinationKey host}
    (h : k' ∈ insert s k) : k' = k ∨ k' ∈ s := by
  unfold Path.insert at h
  split_ifs at h
  · exact .inr h
  · exact List.mem_cons.mp h

/-- A materialized hard link names a committed file, and only files and hard links are committed. -/
theorem decideKind_spec (policy : Policy) (committed : List (DestinationKey host))
    (m : EntryMetadata) {disposition : PlanDisposition} {link : Option (DestinationKey host)}
    {commits : Bool} (h : decideKind policy committed m = (disposition, link, commits)) :
    (disposition = .materialize → m.kind = .hardlink → ∃ k ∈ committed, link = some k) ∧
      (commits = true → disposition = .materialize ∧ Linkable m.kind) := by
  unfold decideKind at h
  split at h
  · next hk =>
    cases h
    refine ⟨?_, fun _ => ⟨rfl, .inl hk⟩⟩
    intro _ hk'
    rw [hk] at hk'
    cases hk'
  · next hk =>
    cases h
    refine ⟨?_, by simp⟩
    intro _ hk'
    rw [hk] at hk'
    cases hk'
  · next hk =>
    refine ⟨?_, ?_⟩
    · intro _ hk'
      rw [hk] at hk'
      cases hk'
    · split_ifs at h
      · split at h
        · cases h; simp
        · cases h; simp
      · cases h; simp
  · next hk =>
    split_ifs at h
    · split at h
      · cases h; simp
      · split at h
        · next k hget =>
          cases h
          exact ⟨fun _ _ => ⟨k, mem_of_get hget, rfl⟩, fun _ => ⟨rfl, .inr hk⟩⟩
        · cases h; simp
    · cases h; simp
  all_goals
    next hk =>
    refine ⟨?_, ?_⟩
    · intro _ hk'
      rw [hk] at hk'
      cases hk'
    · split_ifs at h
      · cases h; simp
      · cases h; simp
      · cases h; simp

/-- **A decision keeps the plan sound.** -/
theorem planned_step (policy : Policy) {s : Planning host} {l : List (Placement host)}
    (h : Planned s l) (m : EntryMetadata) :
    ((planEntry policy s m).1.disposition ≠ .materialize ∧ Planned (planEntry policy s m).2 l) ∨
      ((planEntry policy s m).1.disposition = .materialize ∧
        ∃ x, Places (planEntry policy s m).1 x ∧ Planned (planEntry policy s m).2 (l ++ [x])) := by
  unfold planEntry
  split_ifs
  · exact .inl ⟨by simp, h⟩
  · exact .inl ⟨by simp, h⟩
  split
  · exact .inl ⟨by simp, h⟩
  next key hkey =>
  split
  · exact .inl ⟨by simp, h⟩
  next claimed hclaim =>
  rcases hd : decideKind policy s.committed m with ⟨disposition, link, commits⟩
  obtain ⟨hlink, hcommit⟩ := decideKind_spec policy s.committed m hd
  let x : Placement host := ⟨key, m.kind, link.map (·.path)⟩
  obtain ⟨hfits, hcovers⟩ := h.covers.claim x hclaim
  by_cases hm : disposition = .materialize
  · refine .inr ⟨hm, x, ⟨rfl, rfl, rfl⟩, hcovers, ?_, h.sound.append hfits ?_⟩
    · intro k hk
      have hold : k ∈ s.committed → ∃ y ∈ l ++ [x], y.key = k ∧ Linkable y.kind := by
        intro hk
        obtain ⟨y, hy, hyk⟩ := h.committed k hk
        exact ⟨y, List.mem_append_left _ hy, hyk⟩
      dsimp only at hk
      split_ifs at hk with hc
      · rcases mem_of_mem_insert hk with rfl | hk
        · exact ⟨x, List.mem_append_right _ (List.mem_singleton_self _), rfl, (hcommit hc).2⟩
        · exact hold hk
      · exact hold hk
    · intro hk
      obtain ⟨k, hmem, rfl⟩ := hlink hm hk
      obtain ⟨y, hy, rfl, hyk⟩ := h.committed k hmem
      exact ⟨y, hy, hyk, rfl⟩
  · have hc : commits = false := by
      by_contra hc
      exact hm (hcommit (by simpa using hc)).1
    refine .inl ⟨hm, hcovers.of_append, ?_, h.sound⟩
    subst hc
    exact h.committed

theorem planned_run {policy : Policy} (entries : List EntryMetadata) :
    ∀ {s : Planning host} {l : List (Placement host)}, Planned s l →
      ∃ l', List.Forall₂ Places (materialized (planFrom policy s entries)) l' ∧ Sound (l ++ l') := by
  induction entries with
  | nil =>
    intro s l h
    exact ⟨[], .nil, by rw [List.append_nil]; exact h.sound⟩
  | cons m rest ih =>
    intro s l h
    rw [planFrom, materialized, List.filter_cons]
    rcases planned_step policy h m with ⟨hd, hs⟩ | ⟨hd, x, hx, hs⟩
    · rw [if_neg (by simpa using hd)]
      exact ih hs
    · rw [if_pos (by simpa using hd)]
      obtain ⟨l', hl', hsound⟩ := ih hs
      refine ⟨x :: l', .cons hx hl', ?_⟩
      rw [List.append_assoc] at hsound
      exact hsound

/-- The materialized entries of an extraction plan are sound. -/
theorem plan_sound (host : Host) (policy : Policy) (entries : List EntryMetadata) :
    ∃ l, List.Forall₂ Places (materialized (plan host policy entries)) l ∧ Sound l :=
  planned_run entries ⟨covers_nil, by simp, sound_nil⟩

end LibarchiveOxide.Extract.PlanSound
