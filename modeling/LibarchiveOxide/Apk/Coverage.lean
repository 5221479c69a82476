import LibarchiveOxide.Apk.Rotation

/-! # What a signer binds on each platform

A platform takes the strongest digest among the algorithms that it knows. The verifier keeps one record
for each introduction of algorithms (`Kept`); the strongest record of a platform is among these, so its
signature is checked and its digest is in the evidence (`binds_of_verifySigner`). -/

namespace LibarchiveOxide.Apk.Coverage

open Core.Failure Core.Budget Lib Lib.Result Apk.Cursor Apk.Signing Apk.Schemes Apk.Rotation

/-! ### Selection -/

/-- **What the selection holds** after some records: of each introduction a record that no other one of
it is stronger than. -/
structure Kept (maximumSdk : ℕ) (records : List Record) (selected : List (ℕ × Record)) : Prop where
  strongest : ∀ r ∈ records, ∀ a, SignatureAlgorithm.fromId r.id = some a → a.minimumSdk ≤ maximumSdk →
    ∃ kept c, SortedMap.find a.minimumSdk selected = some kept ∧
      SignatureAlgorithm.fromId kept.id = some c ∧ a.contentDigest.rank ≤ c.contentDigest.rank
  source : ∀ introduction kept, SortedMap.find introduction selected = some kept →
    kept ∈ records ∧ ∃ c, SignatureAlgorithm.fromId kept.id = some c ∧ c.minimumSdk = introduction

variable {maximumSdk : ℕ} {records : List Record} {selected : List (ℕ × Record)}

/-- A record that the selection does not take. -/
theorem Kept.skip (h : Kept maximumSdk records selected) {r : Record}
    (hr : ∀ a, SignatureAlgorithm.fromId r.id = some a → a.minimumSdk ≤ maximumSdk →
      ∃ kept c, SortedMap.find a.minimumSdk selected = some kept ∧
        SignatureAlgorithm.fromId kept.id = some c ∧
        a.contentDigest.rank ≤ c.contentDigest.rank) :
    Kept maximumSdk (records ++ [r]) selected := by
  constructor
  · intro r' hr'
    rcases List.mem_append.mp hr' with hmem | hmem
    · exact h.strongest r' hmem
    · rw [List.mem_singleton.mp hmem]
      exact hr
  · intro introduction kept hfind
    obtain ⟨hmem, hsource⟩ := h.source introduction kept hfind
    exact ⟨List.mem_append_left _ hmem, hsource⟩

/-- A record that the selection takes. -/
theorem Kept.take (h : Kept maximumSdk records selected) {r : Record} {a : SignatureAlgorithm}
    (ha : SignatureAlgorithm.fromId r.id = some a)
    (hstronger : ∀ kept c, SortedMap.find a.minimumSdk selected = some kept →
      SignatureAlgorithm.fromId kept.id = some c →
      c.contentDigest.rank ≤ a.contentDigest.rank) :
    Kept maximumSdk (records ++ [r])
      (SortedMap.insert (fun m n => decide (m < n)) a.minimumSdk r selected) := by
  constructor
  · intro r' hr' a' ha' hle
    by_cases hsame : a'.minimumSdk = a.minimumSdk
    · refine ⟨r, a, by rw [hsame, SortedMap.find_insert_self], ha, ?_⟩
      rcases List.mem_append.mp hr' with hmem | hmem
      · obtain ⟨kept, c, hfind, hc, hrank⟩ := h.strongest r' hmem a' ha' hle
        rw [hsame] at hfind
        exact hrank.trans (hstronger kept c hfind hc)
      · rw [List.mem_singleton.mp hmem] at ha'
        rw [Option.some.inj (ha'.symm.trans ha)]
    · rw [SortedMap.find_insert_of_ne hsame]
      rcases List.mem_append.mp hr' with hmem | hmem
      · exact h.strongest r' hmem a' ha' hle
      · rw [List.mem_singleton.mp hmem] at ha'
        exact absurd (congrArg SignatureAlgorithm.minimumSdk (Option.some.inj (ha'.symm.trans ha)))
          hsame
  · intro introduction kept hfind
    by_cases hsame : introduction = a.minimumSdk
    · rw [hsame, SortedMap.find_insert_self] at hfind
      obtain rfl := Option.some.inj hfind
      exact ⟨List.mem_append_right _ List.mem_cons_self, a, ha, hsame.symm⟩
    · rw [SortedMap.find_insert_of_ne hsame] at hfind
      obtain ⟨hmem, hsource⟩ := h.source introduction kept hfind
      exact ⟨List.mem_append_left _ hmem, hsource⟩

/-- **One more candidate.** -/
theorem Kept.offer (h : Kept maximumSdk records selected) (r : Record) :
    Kept maximumSdk (records ++ [r]) (offer maximumSdk selected r) := by
  unfold Signing.offer
  cases ha : SignatureAlgorithm.fromId r.id with
  | none => exact h.skip fun a ha' => nomatch ha.symm.trans ha'
  | some a =>
    dsimp only
    by_cases hlate : maximumSdk < a.minimumSdk
    · rw [if_pos hlate]
      refine h.skip fun a' ha' hle => ?_
      obtain rfl := Option.some.inj (ha.symm.trans ha')
      omega
    · rw [if_neg hlate]
      cases hfind : SortedMap.find a.minimumSdk selected with
      | none =>
        rw [if_pos rfl]
        exact h.take ha fun kept c hkept => nomatch hfind.symm.trans hkept
      | some current =>
        obtain ⟨-, c, hc, -⟩ := h.source _ _ hfind
        simp only [hc]
        by_cases hrank : c.contentDigest.rank < a.contentDigest.rank
        · rw [if_pos (decide_eq_true hrank)]
          refine h.take ha fun kept c' hkept hc' => ?_
          obtain rfl := Option.some.inj (hfind.symm.trans hkept)
          rw [Option.some.inj (hc'.symm.trans hc)]
          exact hrank.le
        · rw [if_neg (by simpa using hrank)]
          refine h.skip fun a' ha' _ => ?_
          obtain rfl := Option.some.inj (ha.symm.trans ha')
          exact ⟨current, c, hfind, hc, not_lt.mp hrank⟩

/-- So it is after all records. -/
theorem kept_all (maximumSdk : ℕ) (records : List Record) :
    Kept maximumSdk records (records.foldl (offer maximumSdk) []) := by
  induction records using List.reverseRecOn with
  | nil => exact ⟨by simp, fun _ _ h => nomatch h⟩
  | append_singleton records r ih =>
    rw [List.foldl_append]
    exact ih.offer r

/-- The earliest introduction is one of a record that is known. -/
theorem earliest_some (records : List Record) : ∀ {provided : ℕ},
    earliest maximumSdk records = some provided →
    ∃ r ∈ records, ∃ a, SignatureAlgorithm.fromId r.id = some a ∧ a.minimumSdk = provided := by
  induction records using List.reverseRecOn with
  | nil =>
    intro provided h
    cases h
  | append_singleton records r ih =>
    intro provided h
    have hbefore : earliest maximumSdk records = some provided →
        ∃ r' ∈ records ++ [r], ∃ a, SignatureAlgorithm.fromId r'.id = some a ∧
          a.minimumSdk = provided := by
      intro h
      obtain ⟨r', hr', ha⟩ := ih h
      exact ⟨r', List.mem_append_left _ hr', ha⟩
    unfold earliest at h hbefore
    rw [List.foldl_append, List.foldl_cons, List.foldl_nil] at h
    cases ha : SignatureAlgorithm.fromId r.id with
    | none =>
      rw [ha] at h
      exact hbefore h
    | some a =>
      rw [ha] at h
      dsimp only at h
      by_cases hlate : maximumSdk < a.minimumSdk
      · rw [if_pos hlate] at h
        exact hbefore h
      · rw [if_neg hlate] at h
        have hr : ∃ r' ∈ records ++ [r], ∃ a', SignatureAlgorithm.fromId r'.id = some a' ∧
            a'.minimumSdk = a.minimumSdk :=
          ⟨r, List.mem_append_right _ List.mem_cons_self, a, ha, rfl⟩
        generalize records.foldl _ none = current at h hbefore
        cases current with
        | none =>
          obtain rfl : a.minimumSdk = provided := Option.some.inj h
          exact hr
        | some current =>
          obtain rfl : min current a.minimumSdk = provided := Option.some.inj h
          rcases le_total current a.minimumSdk with hle | hle
          · rw [min_eq_left hle] at hbefore ⊢
            exact hbefore rfl
          · rw [min_eq_right hle]
            exact hr

/-! ### One platform -/

/-- The digest of a record that a platform knows. -/
def Offers (records : List Record) (level : ℕ) (kind : ContentDigestKind) : Prop :=
  ∃ r ∈ records, ∃ a, SignatureAlgorithm.fromId r.id = some a ∧ a.minimumSdk ≤ level ∧
    a.contentDigest = kind

/-- The strongest digest that a platform takes. -/
structure Strongest (records : List Record) (level : ℕ) (kind : ContentDigestKind) : Prop where
  offered : Offers records level kind
  highest : ∀ other, Offers records level other → other.rank ≤ kind.rank

theorem rank_injective {k l : ContentDigestKind} (h : k.rank = l.rank) : k = l := by
  cases k <;> cases l <;> first | rfl | cases h

/-- Among the digests that a platform knows there is a strongest one. -/
theorem exists_strongest {level : ℕ}
    (h : ∃ r ∈ records, ∃ a, SignatureAlgorithm.fromId r.id = some a ∧ a.minimumSdk ≤ level) :
    ∃ kind, Strongest records level kind := by
  obtain ⟨r, hr, a, ha, hle⟩ := h
  have hoffers : ∃ rank kind, ContentDigestKind.rank kind = rank ∧ Offers records level kind :=
    ⟨_, a.contentDigest, rfl, r, hr, a, ha, hle, rfl⟩
  have hbound : ∀ kind : ContentDigestKind, kind.rank ≤ 2 := by
    intro kind
    cases kind <;> decide
  by_contra hnone
  push Not at hnone
  -- otherwise there is a stronger one over each
  have hstronger : ∀ n kind, ContentDigestKind.rank kind + n = 3 → ¬ Offers records level kind := by
    intro n
    induction n using Nat.strong_induction_on with
    | _ n ih =>
      intro kind hrank hkind
      refine hnone kind ⟨hkind, fun other hother => ?_⟩
      by_contra hlt
      have := hbound other
      exact ih (3 - other.rank) (by omega) other (by omega) hother
  obtain ⟨rank, kind, -, hkind⟩ := hoffers
  have := hbound kind
  exact hstronger (3 - kind.rank) kind (by omega) hkind

variable {minimumSdk : ℕ} {chosen : List Record}

/-- **The selection has the strongest record of every platform of the range.** -/
theorem selects_strongest (h : selectSignatures records minimumSdk maximumSdk = .ok chosen)
    {level : ℕ} (hmin : minimumSdk ≤ level) (hmax : level ≤ maximumSdk) :
    ∃ kind, Strongest records level kind ∧ ∃ r ∈ chosen, r ∈ records ∧ ∃ a,
      SignatureAlgorithm.fromId r.id = some a ∧ a.contentDigest = kind := by
  unfold selectSignatures at h
  cases hearliest : earliest maximumSdk records with
  | none =>
    rw [hearliest] at h
    cases h
  | some provided =>
    rw [hearliest] at h
    dsimp only at h
    by_cases hlate : minimumSdk < provided
    · rw [if_pos hlate] at h
      cases h
    · rw [if_neg hlate] at h
      obtain rfl := Except.ok.inj h
      obtain ⟨r₀, hr₀, a₀, ha₀, hprovided⟩ := earliest_some records hearliest
      obtain ⟨kind, hkind⟩ := exists_strongest ⟨r₀, hr₀, a₀, ha₀, (by omega : a₀.minimumSdk ≤ level)⟩
      obtain ⟨r, hr, a, ha, hle, rfl⟩ := hkind.offered
      have hkept := kept_all maximumSdk records
      obtain ⟨kept, c, hfind, hc, hrank⟩ := hkept.strongest r hr a ha (hle.trans hmax)
      obtain ⟨hmem, c', hc', hintroduction⟩ := hkept.source _ _ hfind
      obtain rfl := Option.some.inj (hc.symm.trans hc')
      refine ⟨_, hkind, kept, ?_, hmem, c, hc, rank_injective (le_antisymm ?_ hrank)⟩
      · exact (List.mem_insertionSort _).mpr
          (List.mem_map.mpr ⟨_, SortedMap.mem_of_find hfind, rfl⟩)
      · exact hkind.highest _ ⟨kept, hmem, c, hc, by omega, rfl⟩

/-! ### The evidence -/

/-- The digests that are collected keep what they have, and have every record of a selected kind. -/
theorem collectContentDigests_ok {kinds : List ContentDigestKind} : ∀ {records : List Record}
    {digests collected : List (ContentDigestKind × List Byte)},
    collectContentDigests kinds records digests = .ok collected →
    (∀ kind bytes, SortedMap.find kind digests = some bytes →
      SortedMap.find kind collected = some bytes) ∧
    ∀ r ∈ records, ∀ a, SignatureAlgorithm.fromId r.id = some a → a.contentDigest ∈ kinds →
      SortedMap.find a.contentDigest collected = some r.bytes
  | [], digests, collected, h => by
    cases h
    exact ⟨fun _ _ h => h, by simp⟩
  | r :: records, digests, collected, h => by
    rw [collectContentDigests] at h
    cases ha : SignatureAlgorithm.fromId r.id with
    | none =>
      rw [ha] at h
      obtain ⟨hkeep, hrest⟩ := collectContentDigests_ok h
      refine ⟨hkeep, List.forall_mem_cons.mpr ⟨fun a ha' => ?_, hrest⟩⟩
      rw [ha] at ha'
      cases ha'
    | some a =>
      rw [ha] at h
      dsimp only at h
      by_cases hkind : a.contentDigest ∉ kinds
      · rw [if_pos hkind] at h
        obtain ⟨hkeep, hrest⟩ := collectContentDigests_ok h
        refine ⟨hkeep, List.forall_mem_cons.mpr ⟨fun a' ha' hmem => ?_, hrest⟩⟩
        obtain rfl := Option.some.inj (ha.symm.trans ha')
        exact absurd hmem hkind
      · rw [if_neg hkind] at h
        split_ifs at h with hlength
        cases hfind : SortedMap.find a.contentDigest digests with
        | some previous =>
          rw [hfind] at h
          dsimp only at h
          split_ifs at h with hsame
          obtain ⟨hkeep, hrest⟩ := collectContentDigests_ok h
          refine ⟨hkeep, List.forall_mem_cons.mpr ⟨fun a' ha' _ => ?_, hrest⟩⟩
          obtain rfl := Option.some.inj (ha.symm.trans ha')
          rw [hkeep _ _ hfind, not_not.mp hsame]
        | none =>
          rw [hfind] at h
          obtain ⟨hkeep, hrest⟩ := collectContentDigests_ok h
          refine ⟨fun kind bytes hbytes => hkeep _ _ ?_,
            List.forall_mem_cons.mpr ⟨fun a' ha' _ => ?_, hrest⟩⟩
          · rw [SortedMap.find_insert_of_ne, hbytes]
            rintro rfl
            rw [hfind] at hbytes
            cases hbytes
          · obtain rfl := Option.some.inj (ha.symm.trans ha')
            exact hkeep _ _ (SortedMap.find_insert_self _)

variable {Cert : Type} {x : Certificates Cert}

/-- A signature over signed data that the signature package has accepted. -/
def Passed (x : Certificates Cert) (certificate : Cert) (signedData : List Byte) (r : Record) : Prop :=
  ∃ a v, SignatureAlgorithm.fromId r.id = some a ∧
    verifier x a (x.keyAlgorithm certificate) = .ok v ∧
    x.verifies certificate signedData r.bytes v = true

theorem passed_of_checkSelected {scheme : Scheme} {range : ℕ × ℕ} {certificate : Cert}
    {signedData : List Byte} : ∀ {records : List Record},
    checkSelected x scheme range certificate signedData records = .ok () →
    ∀ r ∈ records, Passed x certificate signedData r
  | [], _ => by simp
  | r :: records, h => by
    rw [checkSelected] at h
    obtain ⟨a, ha, h⟩ := bind_eq_ok.mp h
    obtain ⟨u, hcheck, h⟩ := bind_eq_ok.mp h
    refine List.forall_mem_cons.mpr ⟨?_, passed_of_checkSelected h⟩
    unfold checkSignature at hcheck
    obtain ⟨u', -, hcheck⟩ := bind_eq_ok.mp hcheck
    obtain ⟨v, hv, hcheck⟩ := bind_eq_ok.mp hcheck
    split_ifs at hcheck with hverifies
    exact ⟨a, v, okOr_eq_ok.mp ha, hv, hverifies⟩

/-- The parts of a signer, as `verify_signer` reads them. -/
def signerParts (scheme : Scheme) (signer : List Byte) :
    Except Failure (List Byte × Option (ℕ × ℕ) × List Byte × List Byte) :=
  readAll (do
    let signedData ← lengthPrefixed "APK signer signed-data"
    let outerSdk ← sdkRange scheme "signer" "signer"
    let signatures ← lengthPrefixed "APK signer signatures"
    let publicKey ← lengthPrefixed "APK signer public key"
    finish "APK signer"
    return (signedData, outerSdk, signatures, publicKey)) signer

/-- The SDK range that a signer is checked for: its own, or all that know its scheme. -/
def checkedRange (e : SignerEvidence) : ℕ × ℕ := e.sdkRange.getD (ANDROID_N_API, i32Max)

/-- **What an accepted signer binds on a platform**: there is a strongest digest among the algorithms
that the platform knows; the evidence has it, as the signed data states it in every record of its kind;
and a signature of that kind has passed. -/
structure Binds (x : Certificates Cert) (certificate : Cert) (signedData : List Byte)
    (signatures digests : List Record) (e : SignerEvidence) (level : ℕ)
    (kind : ContentDigestKind) : Prop where
  strongest : Strongest signatures level kind
  digest : ∃ d ∈ digests, ∃ a, SignatureAlgorithm.fromId d.id = some a ∧ a.contentDigest = kind ∧
    SortedMap.find kind e.contentDigests = some d.bytes
  agreed : ∀ d ∈ digests, ∀ a, SignatureAlgorithm.fromId d.id = some a → a.contentDigest = kind →
    SortedMap.find kind e.contentDigests = some d.bytes
  passed : ∃ r ∈ signatures, Passed x certificate signedData r ∧ ∃ a,
    SignatureAlgorithm.fromId r.id = some a ∧ a.contentDigest = kind

/-- **A signer that is accepted binds every platform of its range.** -/
theorem binds_of_verifySigner {limits : Limits} {scheme : Scheme} {present : Present}
    {signer : List Byte} {e : SignerEvidence}
    (h : verifySigner x limits scheme present signer = .ok e) :
    ∃ signedData outerSdk signatures publicKey records digests values signedSdk attributes
      certificate,
      signerParts scheme signer = .ok (signedData, outerSdk, signatures, publicKey) ∧
      e.sdkRange = outerSdk ∧ parseSignatureRecords signatures = .ok records ∧
      parseSignedData scheme signedData = .ok (digests, values, signedSdk, attributes) ∧
      parseFirstCertificate x limits values = .ok (certificate, e.certificateDer) ∧
      ∀ level, (checkedRange e).1 ≤ level → level ≤ (checkedRange e).2 →
        ∃ kind, Binds x certificate signedData records digests e level kind := by
  obtain ⟨⟨signedData, outerSdk, signatures, publicKey⟩, hread, h⟩ := bind_eq_ok.mp h
  obtain ⟨records, hrecords, h⟩ := bind_eq_ok.mp h
  obtain ⟨⟨digests, values, signedSdk, attributes⟩, hsigned, h⟩ := bind_eq_ok.mp h
  obtain ⟨-, h⟩ := guard_eq_ok.mp h
  obtain ⟨hids, h⟩ := guard_eq_ok.mp h
  obtain ⟨selected, hselected, h⟩ := bind_eq_ok.mp h
  obtain ⟨⟨certificate, der⟩, hcertificate, h⟩ := bind_eq_ok.mp h
  obtain ⟨canonical, -, h⟩ := bind_eq_ok.mp h
  obtain ⟨-, h⟩ := guard_eq_ok.mp h
  obtain ⟨u, hchecked, h⟩ := bind_eq_ok.mp h
  obtain ⟨attrs, -, h⟩ := bind_eq_ok.mp h
  obtain ⟨contents, hcontents, h⟩ := bind_eq_ok.mp h
  cases h
  refine ⟨signedData, outerSdk, signatures, publicKey, records, digests, values, signedSdk,
    attributes, certificate, hread, rfl, hrecords, hsigned, hcertificate, ?_⟩
  intro level hmin hmax
  obtain ⟨kind, hkind, r, hr, hmem, a, ha, rfl⟩ := selects_strongest hselected hmin hmax
  obtain ⟨-, hcollected⟩ := collectContentDigests_ok hcontents
  have hkinds : a.contentDigest ∈
      (selected.filterMap fun r => SignatureAlgorithm.fromId r.id).map (·.contentDigest) :=
    List.mem_map.mpr ⟨a, List.mem_filterMap.mpr ⟨r, hr, ha⟩, rfl⟩
  have hagreed : ∀ d ∈ digests, ∀ a', SignatureAlgorithm.fromId d.id = some a' →
      a'.contentDigest = a.contentDigest → SortedMap.find a.contentDigest contents = some d.bytes := by
    intro d hd a' ha' hsame
    rw [← hsame]
    exact hcollected d hd a' ha' (hsame ▸ hkinds)
  refine ⟨_, hkind, ?_, hagreed, r, hmem, passed_of_checkSelected hchecked r hr, a, ha, rfl⟩
  -- the digest records have the ids of the signature records
  have hid : r.id ∈ digests.map (·.id) := by
    rw [← not_not.mp hids]
    exact List.mem_map.mpr ⟨r, hmem, rfl⟩
  obtain ⟨d, hd, hid⟩ := List.mem_map.mp hid
  have hd' : SignatureAlgorithm.fromId d.id = some a := by rw [hid, ha]
  exact ⟨d, hd, a, hd', rfl, hagreed d hd a hd' rfl⟩

end LibarchiveOxide.Apk.Coverage
