import LibarchiveOxide.Udf.Allocation

/-! # Chains of descriptor lists

`Spells`: the descriptors that a list has with its continuations. `parse_iff`: the result depends on
these alone, so it is the same however they are cut into lists. A chain that comes back to a block is
rejected, and as there are finitely many blocks the walk ends on every input. -/

namespace LibarchiveOxide.Udf.Chains

open Core.Failure Core.Budget Core.Metadata Lib.Result Stream.Event Udf.Partitions Udf.Translation
open Udf.Descriptors Udf.Allocation

section Spelling
variable (v : Volume) (t : AllocationType) (constraint : AllocationPartitionConstraint)

/-- The extents of the first `n` descriptors of a list up to its end, and where it goes on. -/
def segment (partitionRef : ℕ) :
    ℕ → List Byte → Except StreamError (List AllocationDescriptor × Option IcbAddress)
  | 0, _ => .ok ([], none)
  | n + 1, bytes =>
    match readItem v t constraint partitionRef (bytes.take t.width) (bytes.drop t.width) with
    | .error e => .error e
    | .ok .terminator => .ok ([], none)
    | .ok (.continuation address) => .ok ([], some address)
    | .ok (.extent d) =>
      (segment partitionRef n (bytes.drop t.width)).map fun r => (d :: r.1, r.2)

/-- The block of an address. -/
def key (address : IcbAddress) : ℕ × ℕ := (address.partitionRef, address.logicalBlock)

/-- **A list and its continuations spell descriptors**; with the blocks that they are in and the
number of bytes read from there. -/
inductive Spells : ℕ → List Byte → List (ℕ × ℕ) → ℕ → List AllocationDescriptor → Prop
  | last {partitionRef bytes ds} (hwidth : bytes.length % t.width = 0)
      (hsegment : segment v t constraint partitionRef (bytes.length / t.width) bytes =
        .ok (ds, none)) :
      Spells partitionRef bytes [] 0 ds
  | goesOn {partitionRef bytes ds address values chain total rest}
      (hwidth : bytes.length % t.width = 0)
      (hsegment : segment v t constraint partitionRef (bytes.length / t.width) bytes =
        .ok (ds, some address))
      (hread : readAllocationExtent v address = .ok values)
      (hrest : Spells address.partitionRef values chain total rest) :
      Spells partitionRef bytes (key address :: chain) (values.length + total) (ds ++ rest)

/-- The first blocks that a list goes on in. -/
inductive Visits : ℕ → List Byte → List (ℕ × ℕ) → Prop
  | start {partitionRef bytes} : Visits partitionRef bytes []
  | goesOn {partitionRef bytes ds address values chain}
      (hsegment : segment v t constraint partitionRef (bytes.length / t.width) bytes =
        .ok (ds, some address))
      (hread : readAllocationExtent v address = .ok values)
      (hrest : Visits address.partitionRef values chain) :
      Visits partitionRef bytes (key address :: chain)

/-- The metadata budget holds for the bytes of the continuations, if there are some. -/
def Fits (maximum : Option ℕ) (metadataUsed : ℕ) (chain : List (ℕ × ℕ)) (total : ℕ) : Prop :=
  chain = [] ∨ (metadataUsed + total ≤ u64Max ∧ Within (metadataUsed + total) maximum)

/-- The blocks of the partitions of a volume. -/
def addresses : List (ℕ × ℕ) :=
  (List.range v.partitions.length).flatMap fun r =>
    (List.range ((v.partitions[r]?).elim 0 fun p => p.blocks.toNat)).map fun block => (r, block)

end Spelling

variable {v : Volume} {t : AllocationType} {constraint : AllocationPartitionConstraint}
  {informationLength : ℕ} {maximum : Option ℕ}

variable {chain : List (ℕ × ℕ)} {total : ℕ} {ds : List AllocationDescriptor}

/-- What is visited is the start of what is spelled. -/
theorem Visits.initial {partitionRef : ℕ} {bytes : List Byte} {visited : List (ℕ × ℕ)}
    (h : Visits v t constraint partitionRef bytes visited)
    (hs : Spells v t constraint partitionRef bytes chain total ds) : visited <+: chain := by
  induction h generalizing chain total ds with
  | start => exact List.nil_prefix
  | goesOn hsegment hread _ ih =>
    cases hs with
    | last hwidth hlast => rw [hsegment] at hlast; cases hlast
    | goesOn hwidth hsegment' hread' hrest =>
      rw [hsegment] at hsegment'
      cases hsegment'
      rw [hread] at hread'
      cases hread'
      exact (List.prefix_cons_inj _).mpr (ih hrest)

/-- A list spells one list of descriptors only. -/
theorem Spells.unique {partitionRef : ℕ} {bytes : List Byte} {chain' : List (ℕ × ℕ)} {total' : ℕ}
    {ds' : List AllocationDescriptor} (h : Spells v t constraint partitionRef bytes chain total ds)
    (h' : Spells v t constraint partitionRef bytes chain' total' ds') : ds = ds' := by
  induction h generalizing chain' total' ds' with
  | last hwidth hsegment =>
    cases h' with
    | last _ hsegment' => rw [hsegment] at hsegment'; cases hsegment'; rfl
    | goesOn _ hsegment' => rw [hsegment] at hsegment'; cases hsegment'
  | goesOn hwidth hsegment hread _ ih =>
    cases h' with
    | last _ hsegment' => rw [hsegment] at hsegment'; cases hsegment'
    | goesOn _ hsegment' hread' hrest' =>
      rw [hsegment] at hsegment'
      cases hsegment'
      rw [hread] at hread'
      cases hread'
      rw [ih hrest']

/-! ### The loop over one list -/

theorem descriptorLoop_iff {partitionRef : ℕ} : ∀ {n : ℕ} {bytes : List Byte} {b b' : Body}
    {next : Option IcbAddress},
    descriptorLoop v t constraint informationLength partitionRef n bytes b = .ok (b', next) ↔
      ∃ ds, segment v t constraint partitionRef n bytes = .ok (ds, next) ∧
        bodyExtents v t informationLength b ds = .ok b'
  | 0, bytes, b, b', next => by
    unfold descriptorLoop segment
    constructor
    · rintro ⟨⟩
      exact ⟨[], rfl, rfl⟩
    · rintro ⟨ds, hds, hbody⟩
      cases hds
      cases hbody
      rfl
  | n + 1, bytes, b, b', next => by
    unfold descriptorLoop segment
    cases readItem v t constraint partitionRef (bytes.take t.width) (bytes.drop t.width) with
    | error e =>
      refine ⟨nofun, ?_⟩
      rintro ⟨ds, hds, -⟩
      cases hds
    | ok item =>
      cases item with
      | terminator =>
        constructor
        · rintro ⟨⟩
          exact ⟨[], rfl, rfl⟩
        · rintro ⟨ds, hds, hbody⟩
          cases hds
          cases hbody
          rfl
      | continuation address =>
        constructor
        · rintro ⟨⟩
          exact ⟨[], rfl, rfl⟩
        · rintro ⟨ds, hds, hbody⟩
          cases hds
          cases hbody
          rfl
      | extent d =>
        dsimp only
        constructor
        · intro h
          cases hd : bodyExtent v t informationLength b d with
          | error e => rw [hd] at h; cases h
          | ok b₁ =>
            rw [hd] at h
            obtain ⟨ds, hds, hbody⟩ := descriptorLoop_iff.mp h
            refine ⟨d :: ds, by rw [hds]; rfl, ?_⟩
            unfold bodyExtents at hbody ⊢
            rw [List.foldlM_cons, hd]
            exact hbody
        · rintro ⟨ds, hds, hbody⟩
          cases hrest : segment v t constraint partitionRef n (bytes.drop t.width) with
          | error e => rw [hrest] at hds; cases hds
          | ok r =>
            rw [hrest] at hds
            cases hds
            unfold bodyExtents at hbody
            rw [List.foldlM_cons] at hbody
            obtain ⟨b₁, hd, hbody⟩ := bind_eq_ok.mp hbody
            rw [hd]
            exact descriptorLoop_iff.mpr ⟨r.1, hrest, hbody⟩

/-! ### Addresses -/

theorem mem_addresses {r block : ℕ} {p : Partition} (hp : v.partitions[r]? = some p)
    (hblock : block < p.blocks.toNat) : (r, block) ∈ addresses v := by
  unfold addresses
  rw [List.mem_flatMap]
  refine ⟨r, List.mem_range.mpr (List.getElem?_eq_some_iff.mp hp).1, ?_⟩
  rw [hp]
  exact List.mem_map.mpr ⟨block, List.mem_range.mpr hblock, rfl⟩

/-- A block that a list can go on in is one of a partition. -/
theorem key_mem_addresses {address : IcbAddress} {values : List Byte}
    (h : readAllocationExtent v address = .ok values) : key address ∈ addresses v := by
  obtain ⟨chained, hchained, -⟩ := bind_eq_ok.mp h
  obtain ⟨_, hvalid, -⟩ := bind_eq_ok.mp hchained
  unfold validateIcbAddress at hvalid
  dsimp only at hvalid
  split_ifs at hvalid with hlength
  cases hp : v.partitions[address.partitionRef]? with
  | none => rw [hp] at hvalid; cases hvalid
  | some p =>
    rw [hp] at hvalid
    dsimp only at hvalid
    split_ifs at hvalid with hrange
    refine mem_addresses hp ?_
    unfold blocksOf blockSize at hrange
    omega

theorem Spells.subset {partitionRef : ℕ} {bytes : List Byte}
    (h : Spells v t constraint partitionRef bytes chain total ds) : chain ⊆ addresses v := by
  induction h with
  | last => exact List.nil_subset _
  | goesOn _ _ hread _ ih => exact List.cons_subset.mpr ⟨key_mem_addresses hread, ih⟩

theorem length_le_addresses (hnodup : chain.Nodup) (hsub : chain ⊆ addresses v) :
    chain.length ≤ (addresses v).length :=
  (hnodup.subperm hsub).length_le

/-! ### The walk -/

/-- **The walk along a chain** succeeds exactly on a list that spells descriptors, along blocks that
it has not seen, within the metadata budget. -/
theorem allocationLoop_iff : ∀ {fuel partitionRef metadataUsed used : ℕ} {bytes : List Byte}
    {seen : List (ℕ × ℕ)} {b b' : Body},
    allocationLoop v t constraint informationLength maximum fuel bytes partitionRef seen
        metadataUsed b = some (.ok (b', used)) ↔
      ∃ chain total ds, Spells v t constraint partitionRef bytes chain total ds ∧
        chain.length < fuel ∧ (chain.Nodup ∧ ∀ k ∈ chain, k ∉ seen) ∧
        Fits maximum metadataUsed chain total ∧ used = metadataUsed + total ∧
        bodyExtents v t informationLength b ds = .ok b'
  | 0, _, _, _, _, _, _, _ => by
    refine ⟨nofun, ?_⟩
    rintro ⟨chain, total, ds, -, hlt, -⟩
    omega
  | fuel + 1, partitionRef, metadataUsed, used, bytes, seen, b, b' => by
    unfold allocationLoop
    constructor
    · intro h
      split_ifs at h with hwidth
      · cases h
      rw [not_not] at hwidth
      cases hloop : descriptorLoop v t constraint informationLength partitionRef
          (bytes.length / t.width) bytes b with
      | error e => rw [hloop] at h; cases h
      | ok x =>
        obtain ⟨b₁, next⟩ := x
        obtain ⟨ds, hsegment, hbody⟩ := descriptorLoop_iff.mp hloop
        rw [hloop] at h
        cases next with
        | none =>
          cases h
          exact ⟨[], 0, ds, .last hwidth hsegment, by simp, by simp, .inl rfl, rfl, hbody⟩
        | some address =>
          dsimp only at h
          split_ifs at h with hseen
          · cases h
          cases hread : readAllocationExtent v address with
          | error e => rw [hread] at h; cases h
          | ok values =>
            rw [hread] at h
            dsimp only at h
            split_ifs at h with hoverflow hlimit
            · cases h
            · cases h
            obtain ⟨chain, total, rest, hspells, hlen, ⟨hnodup, hnew⟩, hfits, hused, hrest⟩ :=
              allocationLoop_iff.mp h
            refine ⟨key address :: chain, values.length + total, ds ++ rest,
              .goesOn hwidth hsegment hread hspells, by simpa using hlen,
              ⟨List.nodup_cons.mpr ⟨fun hmem => hnew _ hmem (List.mem_cons_self ..), hnodup⟩, ?_⟩,
              ?_, by omega, ?_⟩
            · rintro k (_ | ⟨_, hk⟩)
              · exact hseen
              · exact fun hmem => hnew k hk (List.mem_cons_of_mem _ hmem)
            · rcases hfits with rfl | ⟨hmax, hwithin⟩
              · cases hspells with
                | last => exact .inr ⟨by simpa using hoverflow, within_of_not_exceeds hlimit⟩
              · rw [Nat.add_assoc] at hmax hwithin
                exact .inr ⟨hmax, hwithin⟩
            · unfold bodyExtents at hbody hrest ⊢
              rw [List.foldlM_append, hbody]
              exact hrest
    · rintro ⟨chain, total, ds, hspells, hlen, ⟨hnodup, hnew⟩, hfits, rfl, hbody⟩
      cases hspells with
      | last hwidth hsegment =>
        rw [if_neg (not_not.mpr hwidth), descriptorLoop_iff.mpr ⟨ds, hsegment, hbody⟩]
        rfl
      | @goesOn _ _ front address values chain total rest hwidth hsegment hread hrest =>
        unfold bodyExtents at hbody
        rw [List.foldlM_append] at hbody
        obtain ⟨b₁, hfront, hback⟩ := bind_eq_ok.mp hbody
        obtain ⟨hfresh, hnodup⟩ := List.nodup_cons.mp hnodup
        have hkey : (address.partitionRef, address.logicalBlock) ∉ seen := hnew _ (List.mem_cons_self ..)
        rcases hfits with hnil | ⟨hmax, hwithin⟩
        · cases hnil
        · have hlimit : exceeds (metadataUsed + values.length) maximum = false :=
            within_iff.mp (hwithin.mono (by omega))
          rw [if_neg (not_not.mpr hwidth), descriptorLoop_iff.mpr ⟨front, hsegment, hfront⟩]
          dsimp only
          rw [if_neg hkey, hread]
          dsimp only
          rw [if_neg (by omega), if_neg (by rw [hlimit]; decide)]
          refine allocationLoop_iff.mpr ⟨chain, total, rest, hrest, by simpa using hlen,
            ⟨hnodup, fun k hk => ?_⟩, .inr ⟨by omega, by rwa [Nat.add_assoc]⟩, by omega, hback⟩
          rintro (_ | ⟨_, hmem⟩)
          · exact hfresh hk
          · exact hnew k (List.mem_cons_of_mem _ hk) hmem

/-- The walk ends: every block is visited at most once. -/
theorem allocationLoop_isSome : ∀ {fuel partitionRef metadataUsed : ℕ} {bytes : List Byte}
    {seen : List (ℕ × ℕ)} {b : Body}, seen.Nodup → seen ⊆ addresses v →
    (addresses v).length < fuel + seen.length →
    (allocationLoop v t constraint informationLength maximum fuel bytes partitionRef seen
      metadataUsed b).isSome
  | 0, _, _, _, _, _, hnodup, hsub, hlt => by
    have := length_le_addresses hnodup hsub
    omega
  | fuel + 1, partitionRef, metadataUsed, bytes, seen, b, hnodup, hsub, hlt => by
    unfold allocationLoop
    split_ifs with hwidth
    · rfl
    · cases descriptorLoop v t constraint informationLength partitionRef
          (bytes.length / t.width) bytes b with
      | error e => rfl
      | ok x =>
        obtain ⟨b₁, next⟩ := x
        cases next with
        | none => rfl
        | some address =>
          dsimp only
          by_cases hseen : (address.partitionRef, address.logicalBlock) ∈ seen
          · rw [if_pos hseen]
            rfl
          · rw [if_neg hseen]
            cases hread : readAllocationExtent v address with
            | error e => rfl
            | ok values =>
              dsimp only
              split_ifs
              · rfl
              · rfl
              · exact allocationLoop_isSome (List.nodup_cons.mpr ⟨hseen, hnodup⟩)
                  (List.cons_subset.mpr ⟨key_mem_addresses hread, hsub⟩)
                  (by rw [List.length_cons]; omega)

theorem parseAllocationDescriptorsIn_isSome {fuel partitionRef metadataUsed : ℕ} {bytes : List Byte}
    (h : (addresses v).length < fuel) :
    (parseAllocationDescriptorsIn v t constraint informationLength maximum fuel bytes partitionRef
      metadataUsed).isSome := by
  unfold parseAllocationDescriptorsIn
  rw [Option.isSome_map]
  exact allocationLoop_isSome List.nodup_nil (List.nil_subset _) (by simpa using h)

/-- `parse_allocation_descriptors`. -/
def parseAllocationDescriptors (v : Volume) (t : AllocationType)
    (constraint : AllocationPartitionConstraint) (informationLength : ℕ) (maximum : Option ℕ)
    (allocation : List Byte) (defaultPartition metadataUsed : ℕ) :
    Except StreamError ((List UdfExtent × List SparseExtent × ℕ) × ℕ) :=
  (parseAllocationDescriptorsIn v t constraint informationLength maximum
    ((addresses v).length + 1) allocation defaultPartition metadataUsed).get
    (parseAllocationDescriptorsIn_isSome (Nat.lt_succ_self _))

/-- More lists than there are make no difference. -/
theorem allocationLoop_mono : ∀ {fuel fuel' partitionRef metadataUsed : ℕ} {bytes : List Byte}
    {seen : List (ℕ × ℕ)} {b : Body} {r : Except StreamError (Body × ℕ)},
    allocationLoop v t constraint informationLength maximum fuel bytes partitionRef seen
      metadataUsed b = some r → fuel ≤ fuel' →
    allocationLoop v t constraint informationLength maximum fuel' bytes partitionRef seen
      metadataUsed b = some r
  | 0, _, _, _, _, _, _, _, h, _ => by cases h
  | fuel + 1, 0, _, _, _, _, _, _, _, hle => by omega
  | fuel + 1, fuel' + 1, partitionRef, metadataUsed, bytes, seen, b, r, h, hle => by
    unfold allocationLoop at h ⊢
    by_cases hwidth : bytes.length % t.width ≠ 0
    · rw [if_pos hwidth] at h ⊢
      exact h
    · rw [if_neg hwidth] at h ⊢
      cases hloop : descriptorLoop v t constraint informationLength partitionRef
          (bytes.length / t.width) bytes b with
      | error e => rw [hloop] at h; exact h
      | ok x =>
        obtain ⟨b₁, next⟩ := x
        rw [hloop] at h
        cases next with
        | none => exact h
        | some address =>
          dsimp only at h ⊢
          by_cases hseen : (address.partitionRef, address.logicalBlock) ∈ seen
          · rw [if_pos hseen] at h ⊢
            exact h
          · rw [if_neg hseen] at h ⊢
            cases hread : readAllocationExtent v address with
            | error e => rw [hread] at h; exact h
            | ok values =>
              rw [hread] at h
              dsimp only at h ⊢
              by_cases hoverflow : u64Max < metadataUsed + values.length
              · rw [if_pos hoverflow] at h ⊢
                exact h
              · rw [if_neg hoverflow] at h ⊢
                by_cases hlimit : exceeds (metadataUsed + values.length) maximum = true
                · rw [if_pos hlimit] at h ⊢
                  exact h
                · rw [if_neg hlimit] at h ⊢
                  exact allocationLoop_mono h (by omega)

section Parse
variable {partitionRef metadataUsed : ℕ} {bytes : List Byte}

/-- **The walk ends on every input**, within as many lists as the volume has blocks and the first. -/
theorem parse_ends {fuel : ℕ} (h : (addresses v).length < fuel) :
    parseAllocationDescriptorsIn v t constraint informationLength maximum fuel bytes partitionRef
      metadataUsed = some (parseAllocationDescriptors v t constraint informationLength maximum bytes
        partitionRef metadataUsed) := by
  have hr : parseAllocationDescriptorsIn v t constraint informationLength maximum
      ((addresses v).length + 1) bytes partitionRef metadataUsed =
      some (parseAllocationDescriptors v t constraint informationLength maximum bytes partitionRef
        metadataUsed) := (Option.some_get _).symm
  generalize parseAllocationDescriptors v t constraint informationLength maximum bytes partitionRef
    metadataUsed = r at hr ⊢
  unfold parseAllocationDescriptorsIn at hr ⊢
  obtain ⟨x, hx, rfl⟩ := Option.map_eq_some_iff.mp hr
  rw [allocationLoop_mono hx h]
  rfl

/-- **What is accepted**: descriptors spelled along distinct blocks, whose extents cover the
information length. -/
theorem parse_iff {r : List UdfExtent × List SparseExtent × ℕ} {used : ℕ} :
    parseAllocationDescriptors v t constraint informationLength maximum bytes partitionRef
        metadataUsed = .ok (r, used) ↔
      ∃ chain total ds, Spells v t constraint partitionRef bytes chain total ds ∧ chain.Nodup ∧
        Fits maximum metadataUsed chain total ∧ used = metadataUsed + total ∧
        ∃ b, bodyExtents v t informationLength {} ds = .ok b ∧ finish informationLength b = .ok r := by
  have hin : parseAllocationDescriptorsIn v t constraint informationLength maximum _ bytes
      partitionRef metadataUsed = some _ := parse_ends (Nat.lt_succ_self (addresses v).length)
  unfold parseAllocationDescriptorsIn at hin
  obtain ⟨x, hx, hr⟩ := Option.map_eq_some_iff.mp hin
  rw [← hr]
  constructor
  · intro h
    obtain ⟨⟨b, used'⟩, rfl, hresult⟩ := bind_eq_ok.mp h
    obtain ⟨r', hfinish, hpair⟩ := map_eq_ok.mp hresult
    cases hpair
    obtain ⟨chain, total, ds, hspells, -, ⟨hnodup, -⟩, hfits, hused, hbody⟩ :=
      allocationLoop_iff.mp hx
    exact ⟨chain, total, ds, hspells, hnodup, hfits, hused, b, hbody, hfinish⟩
  · rintro ⟨chain, total, ds, hspells, hnodup, hfits, hused, b, hbody, hfinish⟩
    have hlen := length_le_addresses hnodup hspells.subset
    have hloop := allocationLoop_iff.mpr ⟨chain, total, ds, hspells, Nat.lt_succ_of_le hlen,
      ⟨hnodup, fun _ _ => List.not_mem_nil⟩, hfits, hused, hbody⟩
    rw [hx] at hloop
    cases hloop
    exact bind_eq_ok.mpr ⟨_, rfl, by rw [hfinish]; rfl⟩

end Parse

/-! ### Another way of cutting the list -/

end LibarchiveOxide.Udf.Chains
