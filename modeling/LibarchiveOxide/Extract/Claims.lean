import LibarchiveOxide.Extract.Topology

/-! # Claims of destinations

A claim is granted if and only if it is compatible with every claim that was granted before. Compatibility
is symmetric, so the order of the claims does not matter to whether all of them are granted. -/

namespace LibarchiveOxide.Extract.Claims

open Core.Metadata Extract.Path Extract.Topology

variable {host : Host}

/-- A destination and the kind of the entry that is to be there. -/
abbrev Claim (host : Host) := DestinationKey host × EntryKind

/-- The claims that are granted, one after the other. -/
def granted (c : DestinationClaims host) : List (Claim host) → List (Claim host)
  | [] => []
  | x :: rest =>
    match c.claim x.1 x.2 with
    | none => granted c rest
    | some c' => x :: granted c' rest

/-- Two claims without a conflict: the destinations differ, and the one above the other, if any, is a
directory. -/
def Compatible (x y : Claim host) : Prop :=
  x.1.identity ≠ y.1.identity ∧ (Above x.1 y.1 → x.2 = .dir) ∧ (Above y.1 x.1 → y.2 = .dir)

/-- **No conflicts**: the destinations are pairwise distinct, and none that is not a directory is above
another one. -/
structure ConflictFree (l : List (Claim host)) : Prop where
  distinct : l.Pairwise fun x y => x.1.identity ≠ y.1.identity
  topology : ∀ x ∈ l, ∀ y ∈ l, x.2 ≠ .dir → ¬ Above x.1 y.1

theorem Compatible.symm {x y : Claim host} (h : Compatible x y) : Compatible y x :=
  ⟨h.1.symm, h.2.2, h.2.1⟩

instance : Std.Symm (@Compatible host) := ⟨fun _ _ h => h.symm⟩

theorem not_above_self (k : DestinationKey host) : ¬ Above k k := fun h => h.2 rfl

/-- It is the same to say so of every pair. -/
theorem conflictFree_iff {l : List (Claim host)} : ConflictFree l ↔ l.Pairwise Compatible := by
  constructor
  · rintro ⟨hdistinct, htopology⟩
    refine List.Pairwise.imp_of_mem ?_ hdistinct
    intro x y hx hy hne
    refine ⟨hne, fun habove => ?_, fun habove => ?_⟩
    · by_contra hkind
      exact htopology x hx y hy hkind habove
    · by_contra hkind
      exact htopology y hy x hx hkind habove
  · intro h
    refine ⟨h.imp fun hxy => hxy.1, fun x hx y hy hkind habove => ?_⟩
    have hne : x ≠ y := by
      rintro rfl
      exact not_above_self x.1 habove
    exact hkind ((h.forall hx hy hne).2.1 habove)

/-! ### One claim -/

/-- **What the claims know**: exactly the claims that were granted. -/
structure Knows (c : DestinationClaims host) (l : List (Claim host)) : Prop where
  claimed : ∀ k, contains c.claimed k = true ↔ ∃ x ∈ l, x.1.identity = k.identity
  prefixes : ∀ k, contains c.directoryPrefixes k = true ↔ ∃ x ∈ l, Above k x.1
  nonDirectories : ∀ k, contains c.nonDirectories k = true ↔
    ∃ x ∈ l, x.2 ≠ .dir ∧ x.1.identity = k.identity

theorem knows_nil : Knows ({} : DestinationClaims host) [] := by
  constructor <;> intro k <;> simp [contains]

variable {c : DestinationClaims host} {l : List (Claim host)}

theorem Knows.any_ancestors (h : Knows c l) (k : DestinationKey host) :
    k.ancestors.any (contains c.nonDirectories ·) = true ↔ ∃ y ∈ l, y.2 ≠ .dir ∧ Above y.1 k := by
  rw [List.any_eq_true]
  constructor
  · rintro ⟨a, ha, hknown⟩
    obtain ⟨y, hy, hkind, hya⟩ := (h.nonDirectories a).mp hknown
    exact ⟨y, hy, hkind, contains_ancestors.mp (contains_iff.mpr ⟨a, ha, hya.symm⟩)⟩
  · rintro ⟨y, hy, hkind, habove⟩
    obtain ⟨a, ha, hay⟩ := contains_iff.mp (contains_ancestors.mpr habove)
    exact ⟨a, ha, (h.nonDirectories a).mpr ⟨y, hy, hkind, hay.symm⟩⟩

/-- What a claim is refused for. -/
theorem Knows.refused_iff (h : Knows c l) (x : Claim host) :
    (contains c.claimed x.1 || x.1.ancestors.any (contains c.nonDirectories ·) ||
      (x.2 != .dir && contains c.directoryPrefixes x.1)) = true ↔ ¬ ∀ y ∈ l, Compatible y x := by
  rw [Bool.or_eq_true, Bool.or_eq_true, Bool.and_eq_true, bne_iff_ne, h.claimed, h.any_ancestors,
    h.prefixes]
  constructor
  · rintro ((⟨y, hy, hsame⟩ | ⟨y, hy, hkind, habove⟩) | ⟨hkind, y, hy, habove⟩) hall
    · exact (hall y hy).1 hsame
    · exact hkind ((hall y hy).2.1 habove)
    · exact hkind ((hall y hy).2.2 habove)
  · intro hno
    push Not at hno
    obtain ⟨y, hy, hincompatible⟩ := hno
    by_contra hnone
    push Not at hnone
    obtain ⟨⟨hclaimed, hbelow⟩, habove⟩ := hnone
    refine hincompatible ⟨hclaimed y hy, fun h => ?_, fun h => ?_⟩
    · by_contra hkind
      exact hbelow y hy hkind h
    · by_contra hkind
      exact habove hkind y hy h

/-- **A claim that is granted** is known from then on. -/
theorem Knows.snoc (h : Knows c l) (x : Claim host) :
    Knows
      { claimed := Path.insert c.claimed x.1
        directoryPrefixes := x.1.ancestors.foldl Path.insert c.directoryPrefixes
        nonDirectories := if x.2 != .dir then Path.insert c.nonDirectories x.1
          else c.nonDirectories } (l ++ [x]) := by
  refine ⟨fun k => ?_, fun k => ?_, fun k => ?_⟩
  · rw [contains_insert, h.claimed]
    simp only [List.mem_append, List.mem_singleton, or_and_right, exists_or, exists_eq_left]
    exact or_comm
  · rw [contains_foldl_insert, contains_ancestors, h.prefixes]
    simp only [List.mem_append, List.mem_singleton, or_and_right, exists_or, exists_eq_left]
  · simp only [List.mem_append, List.mem_singleton, or_and_right, exists_or, exists_eq_left]
    by_cases hkind : x.2 = .dir
    · rw [if_neg (by simpa using hkind), h.nonDirectories]
      exact ⟨Or.inl, fun h => h.resolve_right fun hx => hx.1 hkind⟩
    · rw [if_pos (by simpa using hkind), contains_insert, h.nonDirectories]
      exact ⟨fun h => h.elim (fun hx => .inr ⟨hkind, hx⟩) .inl,
        fun h => h.elim .inr fun hx => .inl hx.2⟩

/-- **A claim is granted** if it is compatible with those that were granted before. -/
theorem Knows.claim_some (h : Knows c l) {x : Claim host} (hx : ∀ y ∈ l, Compatible y x) :
    ∃ c', c.claim x.1 x.2 = some c' ∧ Knows c' (l ++ [x]) := by
  unfold DestinationClaims.claim
  dsimp only
  rw [if_neg fun hrefused => (h.refused_iff x).mp hrefused hx]
  exact ⟨_, rfl, h.snoc x⟩

/-- Otherwise it is refused. -/
theorem Knows.claim_none (h : Knows c l) {x : Claim host} (hx : ¬ ∀ y ∈ l, Compatible y x) :
    c.claim x.1 x.2 = none := by
  unfold DestinationClaims.claim
  dsimp only
  rw [if_pos ((h.refused_iff x).mpr hx)]

/-! ### All claims -/

/-- The claims that are granted have no conflicts with each other or with those before. -/
theorem Knows.granted_pairwise : ∀ {c : DestinationClaims host} {l : List (Claim host)}
    (rest : List (Claim host)), Knows c l → l.Pairwise Compatible →
    (l ++ granted c rest).Pairwise Compatible
  | c, l, [], _, hl => by rwa [granted, List.append_nil]
  | c, l, x :: rest, h, hl => by
    rw [granted]
    by_cases hx : ∀ y ∈ l, Compatible y x
    · obtain ⟨c', hc', hnext⟩ := h.claim_some hx
      rw [hc']
      dsimp only
      rw [List.append_cons]
      refine hnext.granted_pairwise rest (List.pairwise_append.mpr ⟨hl, List.pairwise_singleton _ _, ?_⟩)
      intro y hy z hz
      rw [List.mem_singleton.mp hz]
      exact hx y hy
    · rw [h.claim_none hx]
      exact h.granted_pairwise rest hl

/-- All claims are granted if there are no conflicts. -/
theorem Knows.granted_eq : ∀ {c : DestinationClaims host} {l rest : List (Claim host)}, Knows c l →
    (l ++ rest).Pairwise Compatible → granted c rest = rest
  | _, _, [], _, _ => rfl
  | c, l, x :: rest, h, hall => by
    obtain ⟨-, -, hbefore⟩ := List.pairwise_append.mp hall
    obtain ⟨c', hc', hnext⟩ := h.claim_some fun y hy => hbefore y hy x List.mem_cons_self
    rw [granted, hc']
    dsimp only
    rw [hnext.granted_eq (by rwa [← List.append_cons])]

/-- **Exactly the sets without a conflict are granted, in any order**: all claims of a list are granted
if and only if there is no conflict among them; then they are in every other order; and those that are
granted of any list are without a conflict. -/
theorem claims_exact (l : List (Claim host)) :
    (granted {} l = l ↔ ConflictFree l) ∧
    (granted {} l = l → ∀ l' : List (Claim host), l.Perm l' → granted {} l' = l') ∧
    ConflictFree (granted {} l) := by
  have hgranted : ∀ l : List (Claim host), ConflictFree (granted {} l) := fun l =>
    conflictFree_iff.mpr (knows_nil.granted_pairwise l .nil)
  have hiff : ∀ l : List (Claim host), granted {} l = l ↔ ConflictFree l := by
    refine fun l => ⟨fun h => h ▸ hgranted l, fun h => knows_nil.granted_eq ?_⟩
    rw [List.nil_append]
    exact conflictFree_iff.mp h
  refine ⟨hiff l, fun h l' hperm => (hiff l').mpr (conflictFree_iff.mpr ?_), hgranted l⟩
  exact (List.Perm.pairwise_iff Compatible.symm hperm).mp (conflictFree_iff.mp ((hiff l).mp h))

end LibarchiveOxide.Extract.Claims
