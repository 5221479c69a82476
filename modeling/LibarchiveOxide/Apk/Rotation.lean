import LibarchiveOxide.Apk.Signing
import LibarchiveOxide.Lib.Intervals

/-! # Rotation evidence

What the checks of neighbours say about all signers of an APK: the ranges of a block are apart and
leave no hole, the lineages grow from signer to signer, every lineage is a chain of accepted
signatures that ends in its signer, and the v3 signers announce where the v3.1 block begins
(`rotation_consistent`). -/

namespace LibarchiveOxide.Apk.Rotation

open Core.Failure Core.Budget Lib Lib.Result Lib.Intervals Lib.LittleEndian Apk.Cursor Apk.Signing
open Apk.Schemes

variable {Cert : Type} {x : Certificates Cert} {limits : Limits}

/-! ### Lineages -/

variable {signerDer : List Byte}

/-- The level `current` was accepted by the signature check under the certificate of the level
`previous`, with the algorithm that level announced. -/
def Accepted (x : Certificates Cert) (limits : Limits) (previous current : VerifiedLineageLevel) :
    Prop :=
  ∃ algorithm certificate verification level index parsed,
    SignatureAlgorithm.fromId previous.nextSignatureAlgorithmId = some algorithm ∧
    current.signedSignatureAlgorithmId = previous.nextSignatureAlgorithmId ∧
    x.parse limits previous.certificateDer = .ok certificate ∧
    verifier x algorithm (x.keyAlgorithm certificate) = .ok verification ∧
    parseLineageLevel level index = .ok parsed ∧
    parsed.certificateDer = current.certificateDer ∧
    parsed.signedSignatureAlgorithmId = current.signedSignatureAlgorithmId ∧
    x.verifies certificate parsed.signedData parsed.signature verification = true

/-- A lineage that was verified for a signer with this certificate. -/
structure Verified (x : Certificates Cert) (limits : Limits) (signerDer : List Byte)
    (levels : List VerifiedLineageLevel) : Prop where
  distinct : (levels.map (·.certificateDer)).Nodup
  terminal : levels.getLast?.map (·.certificateDer) = some signerDer
  accepted : levels.IsChain (Accepted x limits)

/-- What holds between the levels of the loop. -/
structure Growing (x : Certificates Cert) (limits : Limits) (acc : LineageAcc Cert) : Prop where
  distinct : (acc.levels.map (·.certificateDer)).Nodup
  accepted : acc.levels.IsChain (Accepted x limits)
  previous : ∀ last, acc.levels.getLast? = some last → ∃ certificate,
    x.parse limits last.certificateDer = .ok certificate ∧
      acc.previous = some (certificate, last.nextSignatureAlgorithmId)

theorem checkSignature_ok {a : SignatureAlgorithm} {certificate : Cert} {signed signature : List Byte}
    {what : String} (h : checkSignature x a certificate signed signature what = .ok ()) :
    ∃ v, verifier x a (x.keyAlgorithm certificate) = .ok v ∧
      x.verifies certificate signed signature v = true := by
  obtain ⟨-, -, h⟩ := bind_eq_ok.mp h
  obtain ⟨v, hv, h⟩ := bind_eq_ok.mp h
  split_ifs at h with hver
  exact ⟨v, hv, hver⟩

theorem checkLevel_ok {certificate : Cert} {id : ℕ} {parsed : ParsedLineageLevel} {index : ℕ}
    (h : checkLevel x (some (certificate, id)) parsed index = .ok ()) :
    id = parsed.signedSignatureAlgorithmId ∧ ∃ a v, SignatureAlgorithm.fromId id = some a ∧
      verifier x a (x.keyAlgorithm certificate) = .ok v ∧
      x.verifies certificate parsed.signedData parsed.signature v = true := by
  unfold checkLevel at h
  dsimp only at h
  split_ifs at h with hid
  cases ha : SignatureAlgorithm.fromId id with
  | none => rw [ha] at h; cases h
  | some a =>
    rw [ha] at h
    obtain ⟨v, hv, hver⟩ := checkSignature_ok h
    exact ⟨not_not.mp hid, a, v, rfl, hv, hver⟩

theorem Growing.step {acc acc' : LineageAcc Cert} {s s' : List Byte} (h : Growing x limits acc)
    (hl : lineageLevel x limits acc s = .ok (acc', s')) : Growing x limits acc' := by
  obtain ⟨level, s1, -, hl⟩ := Parser.bind_eq_ok.mp hl
  obtain ⟨parsed, s2, hparsed, hl⟩ := Parser.bind_eq_ok.mp hl
  obtain ⟨certificate, s3, hcert, hl⟩ := Parser.bind_eq_ok.mp hl
  obtain ⟨hnew, hl⟩ := Parser.guard_eq_ok.mp hl
  obtain ⟨u, s4, hcheck, hl⟩ := Parser.bind_eq_ok.mp hl
  obtain ⟨-, hl⟩ := Parser.guard_eq_ok.mp hl
  cases hl
  have hparsed := (Parser.lift_eq_ok.mp hparsed).1
  have hcert := (Parser.lift_eq_ok.mp hcert).1
  have hcheck := (Parser.lift_eq_ok.mp hcheck).1
  have hnew' : parsed.certificateDer ∉ acc.levels.map (·.certificateDer) := by
    simpa using hnew
  refine ⟨?_, ?_, ?_⟩
  · rw [List.map_append, List.nodup_append]
    refine ⟨h.distinct, by simp, ?_⟩
    rintro a ha b hb rfl
    have hb : a = parsed.certificateDer := List.mem_singleton.mp hb
    exact hnew' (hb ▸ ha)
  · refine List.IsChain.append h.accepted (List.IsChain.singleton _) ?_
    rintro last hlast cur hcur
    obtain ⟨c, hc, hprev⟩ := h.previous last hlast
    rw [hprev] at hcheck
    obtain ⟨hid, a, v, ha, hv, hver⟩ := checkLevel_ok hcheck
    rw [List.head?_cons, Option.mem_some_iff] at hcur
    subst hcur
    exact ⟨a, c, v, level, _, parsed, ha, hid.symm, hc, hv, hparsed, rfl, rfl, hver⟩
  · intro last hlast
    rw [List.getLast?_concat, Option.some.injEq] at hlast
    subst hlast
    exact ⟨certificate, hcert, rfl⟩

theorem verified_of_proof {bytes : List Byte} {levels : List VerifiedLineageLevel}
    (h : verifyProofOfRotation x limits bytes signerDer = .ok levels) :
    Verified x limits signerDer levels := by
  obtain ⟨levels', hread, h⟩ := bind_eq_ok.mp h
  obtain ⟨rest, hread⟩ := readAll_ok hread
  obtain ⟨version, s1, -, hread⟩ := Parser.bind_eq_ok.mp hread
  obtain ⟨-, hread⟩ := Parser.guard_eq_ok.mp hread
  obtain ⟨left, s2, -, hread⟩ := Parser.bind_eq_ok.mp hread
  obtain ⟨u, s3, -, hread⟩ := Parser.bind_eq_ok.mp hread
  obtain ⟨acc, s4, hacc, hread⟩ := Parser.bind_eq_ok.mp hread
  cases hread
  have h0 : Growing x limits ({} : LineageAcc Cert) := ⟨List.nodup_nil, .nil, fun _ h => by cases h⟩
  have hg : Growing x limits acc := items_ok (P := Growing x limits) (fun h1 h2 => h1.step h2) h0 hacc
  split at h
  · cases h
  · next last hlast =>
    obtain ⟨hterm, h⟩ := guard_eq_ok.mp h
    cases h
    refine ⟨hg.distinct, ?_, hg.accepted⟩
    rw [hlast, Option.map_some, not_not.mp hterm]

/-! ### Signers -/

variable {scheme : Scheme} {present : Present}

/-- A signer of a block with SDK ranges. -/
structure Sound (x : Certificates Cert) (limits : Limits) (s : SignerEvidence) : Prop where
  range : s.sdkRange = some (rangeOf s)
  proper : (rangeOf s).1 ≤ (rangeOf s).2
  lineage : ∀ levels, s.attributes.lineage = some levels → Verified x limits s.certificateDer levels

theorem lineage_of_applyAttribute {payload : List Byte} {id : ℕ} {result result' : SignerAttributes}
    (h0 : ∀ levels, result.lineage = some levels → Verified x limits signerDer levels)
    (h : applyAttribute x limits scheme present signerDer id payload result = .ok result') :
    ∀ levels, result'.lineage = some levels → Verified x limits signerDer levels := by
  unfold applyAttribute at h
  split_ifs at h
  · obtain ⟨-, -, h⟩ := bind_eq_ok.mp h
    cases h
    exact h0
  · cases h
    exact h0
  · obtain ⟨levels', hl, h⟩ := bind_eq_ok.mp h
    cases h
    rintro levels ⟨⟩
    exact verified_of_proof hl
  · obtain ⟨minimum, -, h⟩ := bind_eq_ok.mp h
    cases h
    exact h0
  · cases h
    exact h0
  · cases h
    exact h0

theorem lineage_of_checkAttributes {bytes : List Byte} {result : SignerAttributes}
    (h : checkAttributes x limits scheme present signerDer bytes = .ok result) :
    ∀ levels, result.lineage = some levels → Verified x limits signerDer levels := by
  obtain ⟨acc, hacc, h⟩ := bind_eq_ok.mp h
  cases h
  obtain ⟨rest, hacc⟩ := readAll_ok hacc
  refine items_ok (P := fun acc : List ℕ × SignerAttributes =>
    ∀ levels, acc.2.lineage = some levels → Verified x limits signerDer levels) ?_
    (fun _ h => by cases h) hacc
  intro acc s acc' s' h0 hn
  obtain ⟨b, s1, -, hn⟩ := Parser.bind_eq_ok.mp hn
  obtain ⟨⟨id, payload⟩, s2, -, hn⟩ := Parser.bind_eq_ok.mp hn
  obtain ⟨-, hn⟩ := Parser.guard_eq_ok.mp hn
  obtain ⟨result, s3, hr, hn⟩ := Parser.bind_eq_ok.mp hn
  cases hn
  exact lineage_of_applyAttribute h0 (Parser.lift_eq_ok.mp hr).1

theorem sdkRange_ok {what location : String} {s s' : List Byte} {r : Option (ℕ × ℕ)}
    (hs : scheme.hasSdkRange = true) (h : sdkRange scheme what location s = .ok (r, s')) :
    ∃ range, r = some range ∧
      range.1 ≤ range.2 := by
  unfold sdkRange at h
  rw [if_pos hs] at h
  obtain ⟨minimum, s1, -, h⟩ := Parser.bind_eq_ok.mp h
  obtain ⟨maximum, s2, -, h⟩ := Parser.bind_eq_ok.mp h
  obtain ⟨u, s3, hv, h⟩ := Parser.bind_eq_ok.mp h
  cases h
  refine ⟨_, rfl, ?_⟩
  obtain ⟨-, hv⟩ := guard_eq_ok.mp (Parser.lift_eq_ok.mp hv).1
  by_contra hlt
  rw [if_pos (.inl (not_le.mp hlt))] at hv
  cases hv

theorem sound_of_verifySigner {signer : List Byte} {e : SignerEvidence}
    (hs : scheme.hasSdkRange = true) (h : verifySigner x limits scheme present signer = .ok e) :
    Sound x limits e := by
  obtain ⟨⟨signedData, outerSdk, signatures, publicKey⟩, hread, h⟩ := bind_eq_ok.mp h
  obtain ⟨records, -, h⟩ := bind_eq_ok.mp h
  obtain ⟨⟨digests, values, signedSdk, attributes⟩, -, h⟩ := bind_eq_ok.mp h
  obtain ⟨-, h⟩ := guard_eq_ok.mp h
  obtain ⟨-, h⟩ := guard_eq_ok.mp h
  obtain ⟨selected, -, h⟩ := bind_eq_ok.mp h
  obtain ⟨⟨certificate, der⟩, -, h⟩ := bind_eq_ok.mp h
  obtain ⟨canonical, -, h⟩ := bind_eq_ok.mp h
  obtain ⟨-, h⟩ := guard_eq_ok.mp h
  obtain ⟨-, -, h⟩ := bind_eq_ok.mp h
  obtain ⟨attrs, hattrs, h⟩ := bind_eq_ok.mp h
  obtain ⟨contents, -, h⟩ := bind_eq_ok.mp h
  cases h
  obtain ⟨rest, hread⟩ := readAll_ok hread
  obtain ⟨sd, s1, -, hread⟩ := Parser.bind_eq_ok.mp hread
  obtain ⟨range, s2, hrange, hread⟩ := Parser.bind_eq_ok.mp hread
  obtain ⟨sigs, s3, -, hread⟩ := Parser.bind_eq_ok.mp hread
  obtain ⟨key, s4, -, hread⟩ := Parser.bind_eq_ok.mp hread
  obtain ⟨u, s5, -, hread⟩ := Parser.bind_eq_ok.mp hread
  cases hread
  obtain ⟨r, rfl, hle⟩ := sdkRange_ok hs hrange
  exact ⟨rfl, hle, lineage_of_checkAttributes hattrs⟩

/-! ### Blocks -/

variable {a b : SignerEvidence}

/-- The range of the signer has the level. -/
def Targets (s : SignerEvidence) (level : ℕ) : Prop := (rangeOf s).1 ≤ level ∧ level ≤ (rangeOf s).2

/-- The range of a signer starts where that of the one before it ends. -/
abbrev Adjoins : SignerEvidence → SignerEvidence → Prop :=
  Follows (fun s => (rangeOf s).1) (fun s => (rangeOf s).2) (·.attributes.targetsDevRelease = true)

/-- The lineage of a signer is a prefix of that of another one. -/
def Extends (a b : SignerEvidence) : Prop := effectiveLineage a <+: effectiveLineage b

theorem Extends.trans {c : SignerEvidence} (h : Extends a b) (h' : Extends b c) : Extends a c :=
  List.IsPrefix.trans h h'

theorem prefix_of_zip {α : Type} [BEq α] [LawfulBEq α] : ∀ {p c : List α}, p.length ≤ c.length →
    (p.zip c).all (fun pair => pair.1 == pair.2) = true → p <+: c
  | [], c, _, _ => List.nil_prefix
  | a :: p, [], h, _ => absurd h (by simp)
  | a :: p, b :: c, h, hall => by
    rw [List.zip_cons_cons, List.all_cons, Bool.and_eq_true] at hall
    have hab : a = b := eq_of_beq hall.1
    subst hab
    exact (List.prefix_cons_inj a).mpr
      (prefix_of_zip (Nat.le_of_succ_le_succ (by simpa using h)) hall.2)

theorem extends_of_validate (h : validateLineageExtension a b = .ok ()) : Extends a b := by
  unfold validateLineageExtension at h
  dsimp only at h
  split_ifs at h with hno
  obtain ⟨hlen, hall⟩ := not_or.mp hno
  exact prefix_of_zip (not_lt.mp hlen) (by simpa using hall)

/-- **The loop over neighbours** leaves a chain of ranges and a chain of lineages. -/
theorem chains_of_neighbours : ∀ {l : List SignerEvidence},
    validateNeighbours scheme l = .ok () → l.IsChain Adjoins ∧ l.IsChain Extends
  | [], _ => ⟨.nil, .nil⟩
  | [a], _ => ⟨.singleton a, .singleton a⟩
  | a :: b :: l, h => by
    obtain ⟨hadj, h⟩ := guard_eq_ok.mp h
    obtain ⟨u, hext, h⟩ := bind_eq_ok.mp h
    obtain ⟨ih1, ih2⟩ := chains_of_neighbours h
    refine ⟨List.isChain_cons_cons.mpr ⟨?_, ih1⟩,
      List.isChain_cons_cons.mpr ⟨extends_of_validate hext, ih2⟩⟩
    by_contra hno
    obtain ⟨h1, h2⟩ := not_or.mp hno
    exact hadj ⟨h1, h2⟩

theorem mem_sorted {s : SignerEvidence} {l : List SignerEvidence} : s ∈ sorted l ↔ s ∈ l :=
  (List.perm_insertionSort _ l).mem_iff

/-- A block of signers that was accepted. -/
structure Block (x : Certificates Cert) (limits : Limits) (l : List SignerEvidence) : Prop where
  sound : ∀ s ∈ l, Sound x limits s
  ranges : (sorted l).IsChain Adjoins
  lineages : (sorted l).IsChain Extends

theorem block_of_verifyScheme {value : List Byte} {l : List SignerEvidence}
    (hs : scheme.hasSdkRange = true) (h : verifyScheme x limits scheme present value = .ok l) :
    Block x limits l := by
  obtain ⟨signers, -, h⟩ := bind_eq_ok.mp h
  obtain ⟨-, h⟩ := guard_eq_ok.mp h
  obtain ⟨evidence, hread, h⟩ := bind_eq_ok.mp h
  rw [if_pos hs] at h
  obtain ⟨u, hranges, h⟩ := bind_eq_ok.mp h
  cases h
  obtain ⟨rest, hread⟩ := readAll_ok hread
  have hsound : ∀ s ∈ l, Sound x limits s := by
    refine items_ok (P := fun l : List SignerEvidence => ∀ s ∈ l, Sound x limits s) ?_
      (fun _ h => absurd h List.not_mem_nil) hread
    intro acc s acc' s' h0 hn
    obtain ⟨signer, s1, -, hn⟩ := Parser.bind_eq_ok.mp hn
    obtain ⟨e, s2, he, hn⟩ := Parser.bind_eq_ok.mp hn
    cases hn
    intro t ht
    rcases List.mem_append.mp ht with ht | ht
    · exact h0 t ht
    · rw [List.mem_singleton.mp ht]
      exact sound_of_verifySigner hs (Parser.lift_eq_ok.mp he).1
  have hall : l.filter (·.sdkRange.isSome) = l := by
    refine List.filter_eq_self.mpr fun s hmem => ?_
    rw [(hsound s hmem).range]
    rfl
  rw [validateV3Ranges, hall] at hranges
  obtain ⟨h1, h2⟩ := chains_of_neighbours hranges
  exact ⟨hsound, h1, h2⟩

theorem block_of_optional {id : ℕ} {l : List SignerEvidence} (hs : scheme.hasSdkRange = true)
    (h : verifyOptionalScheme x limits id scheme present = .ok l) : Block x limits l := by
  unfold verifyOptionalScheme at h
  split at h
  · cases h
    exact ⟨fun _ hm => absurd hm List.not_mem_nil, .nil, .nil⟩
  · exact block_of_verifyScheme hs h

namespace Block

variable {l : List SignerEvidence}

theorem proper (h : Block x limits l) : ∀ s ∈ sorted l, (rangeOf s).1 ≤ (rangeOf s).2 :=
  fun s hs => (h.sound s (mem_sorted.mp hs)).proper

/-- Any two signers share at most one level, and only if the later one has the marker. -/
theorem apart (h : Block x limits l) : (sorted l).Pairwise fun a b =>
    ∀ m n, Targets a m → Targets b m → Targets a n → Targets b n →
      m = n ∧ b.attributes.targetsDevRelease = true := by
  refine (pairwise_before h.ranges h.proper).imp fun {a b} hb m n ha1 hb1 ha2 hb2 => ?_
  have hle := hb.le
  unfold Targets at *
  exact ⟨by omega, hb.marked (by omega)⟩

/-- The ranges leave no hole. -/
theorem noHole (h : Block x limits l) (ha : a ∈ l) (hb : b ∈ l) {level : ℕ}
    (h1 : (rangeOf a).1 ≤ level) (h2 : level ≤ (rangeOf b).2) : ∃ s ∈ l, Targets s level := by
  obtain ⟨s, hs, ht⟩ := covered h.ranges h.proper (mem_sorted.mpr ha) (mem_sorted.mpr hb) h1 h2
  exact ⟨s, mem_sorted.mp hs, ht⟩

theorem lineage_ends (h : Block x limits l) {s : SignerEvidence} (hs : s ∈ l) :
    (effectiveLineage s).Nodup ∧ (effectiveLineage s).getLast? = some s.certificateDer := by
  have hv := (h.sound s hs).lineage
  unfold effectiveLineage
  cases hl : s.attributes.lineage with
  | none => exact ⟨List.nodup_singleton _, rfl⟩
  | some levels =>
    obtain ⟨hd, ht, -⟩ := hv levels hl
    exact ⟨hd, by rw [List.getLast?_map, ht]⟩

/-- The first signer has the smallest minimum. -/
theorem head_le (h : Block x limits l) {first : SignerEvidence} (hf : (sorted l).head? = some first) :
    first ∈ l ∧ ∀ s ∈ l, (rangeOf first).1 ≤ (rangeOf s).1 := by
  have hpair := pairwise_before h.ranges h.proper
  have hproper := h.proper
  have hmem : ∀ s, s ∈ sorted l ↔ s ∈ l := fun s => mem_sorted
  cases hl : sorted l with
  | nil => rw [hl] at hf; cases hf
  | cons a t =>
    rw [hl] at hf hpair hproper hmem
    cases hf
    refine ⟨(hmem _).mp List.mem_cons_self, fun s hs => ?_⟩
    rcases List.mem_cons.mp ((hmem s).mpr hs) with rfl | hs
    · exact le_rfl
    · have h1 := (List.rel_of_pairwise_cons hpair hs).le
      have h2 := hproper _ List.mem_cons_self
      omega

end Block

/-! ### Targeted rotation -/

/-- What the check of the two blocks against each other leaves. -/
structure Targeted (v3 v31 : List SignerEvidence) : Prop where
  absent : v31 = [] → ∀ s ∈ v3, s.attributes.rotationMinSdk = none
  present : v31 ≠ [] → v3 ≠ [] ∧ ∃ first last, (sorted v31).head? = some first ∧
    (sorted v3).getLast? = some last ∧
    (∀ s ∈ v3, s.attributes.rotationMinSdk = some (rangeOf first).1) ∧ Extends last first ∧
    2 ≤ (effectiveLineage first).length

theorem targeted_of_validate {v3 v31 : List SignerEvidence}
    (h : validateTargetedRotation v3 v31 = .ok ()) : Targeted v3 v31 := by
  unfold validateTargetedRotation at h
  split_ifs at h with h31 hany h3
  · refine ⟨fun _ s hs => ?_, fun hno => absurd h31 hno⟩
    have hall : ∀ s ∈ v3, s.attributes.rotationMinSdk = none := by simpa using hany
    exact hall s hs
  · refine ⟨fun hno => absurd hno h31, fun _ => ⟨h3, ?_⟩⟩
    obtain ⟨first, hfirst, h⟩ := bind_eq_ok.mp h
    obtain ⟨start, hstart, h⟩ := bind_eq_ok.mp h
    obtain ⟨hall, h⟩ := guard_eq_ok.mp h
    obtain ⟨last, hlast, h⟩ := bind_eq_ok.mp h
    obtain ⟨range, -, h⟩ := bind_eq_ok.mp h
    obtain ⟨-, h⟩ := guard_eq_ok.mp h
    obtain ⟨u, hext, h⟩ := bind_eq_ok.mp h
    have hstart' : start = (rangeOf first).1 := by
      obtain ⟨r, hr, hstart⟩ := bind_eq_ok.mp hstart
      obtain ⟨-, hstart⟩ := guard_eq_ok.mp hstart
      cases hstart
      rw [rangeOf, okOr_eq_ok.mp hr]
      rfl
    refine ⟨first, last, okOr_eq_ok.mp hfirst, okOr_eq_ok.mp hlast, fun s hs => ?_,
      extends_of_validate hext, ?_⟩
    · have hs' := List.all_eq_true.mp (not_not.mp hall) s hs
      rw [← hstart']
      exact of_decide_eq_true hs'
    · by_contra hlt
      rw [if_pos (not_le.mp hlt)] at h
      cases h

/-! ### The whole -/

/-- The signers of a block in the order of their ranges: any two share at most one level, and only if
the later one carries the dev-release marker, and there is no hole. -/
structure Arranged (l : List SignerEvidence) : Prop where
  ordered : (sorted l).Pairwise fun a b => RangeLe (rangeOf a) (rangeOf b)
  apart : (sorted l).Pairwise fun a b =>
    ∀ m n, Targets a m → Targets b m → Targets a n → Targets b n →
      m = n ∧ b.attributes.targetsDevRelease = true
  noHole : ∀ a ∈ l, ∀ b ∈ l, ∀ level, (rangeOf a).1 ≤ level → level ≤ (rangeOf b).2 →
    ∃ s ∈ l, Targets s level

/-- The rotation evidence of an APK is consistent. -/
structure Consistent (x : Certificates Cert) (limits : Limits) (v3 v31 : List SignerEvidence) :
    Prop where
  original : Arranged v3
  rotatedBlock : Arranged v31
  extending : (sorted v3 ++ sorted v31).Pairwise Extends
  lineages : ∀ s ∈ v3 ++ v31,
    (effectiveLineage s).Nodup ∧ (effectiveLineage s).getLast? = some s.certificateDer ∧
      ∀ levels, s.attributes.lineage = some levels → levels.IsChain (Accepted x limits)
  announced : v31 ≠ [] ↔ ∃ s ∈ v3, s.attributes.rotationMinSdk.isSome
  start : v31 ≠ [] → ∃ start, (∃ s ∈ v31, (rangeOf s).1 = start) ∧
    (∀ s ∈ v31, start ≤ (rangeOf s).1) ∧ ∀ s ∈ v3, s.attributes.rotationMinSdk = some start
  rotated : ∀ first, (sorted v31).head? = some first → 2 ≤ (effectiveLineage first).length

theorem ordered_sorted (l : List SignerEvidence) :
    (sorted l).Pairwise fun a b => RangeLe (rangeOf a) (rangeOf b) := by
  let r := fun a b : SignerEvidence => RangeLe (rangeOf a) (rangeOf b)
  have : Std.Total r := ⟨fun a b => by simp only [r, RangeLe]; omega⟩
  have : IsTrans SignerEvidence r := ⟨fun a b c h1 h2 => by simp only [r, RangeLe] at *; omega⟩
  exact List.pairwise_insertionSort r l

theorem arranged_of_block {l : List SignerEvidence} (h : Block x limits l) : Arranged l :=
  ⟨ordered_sorted l, h.apart, fun _ ha _ hb _ h1 h2 => h.noHole ha hb h1 h2⟩

/-- The lineages of both blocks are one chain. -/
theorem extending_append {v3 v31 : List SignerEvidence} (h3 : Block x limits v3)
    (h31 : Block x limits v31) (ht : Targeted v3 v31) :
    (sorted v3 ++ sorted v31).Pairwise Extends := by
  let _ : Trans Extends Extends Extends := ⟨Extends.trans⟩
  refine List.isChain_iff_pairwise.mp (List.IsChain.append h3.lineages h31.lineages ?_)
  intro last hlast first hfirst
  have hne : v31 ≠ [] := by
    rintro rfl
    cases hfirst
  obtain ⟨-, first', last', hf, hl, -, hext, -⟩ := ht.present hne
  obtain rfl : first' = first := Option.some.inj (hf.symm.trans hfirst)
  obtain rfl : last' = last := Option.some.inj (hl.symm.trans hlast)
  exact hext

/-- **Rotation evidence is globally consistent**, for every signing block that is accepted. -/
theorem rotation_consistent {schemes : Present} {v2 v3 v31 : List SignerEvidence}
    (h : verifySigningSchemes x limits schemes = .ok (v2, v3, v31)) : Consistent x limits v3 v31 := by
  obtain ⟨v31', h31, h⟩ := bind_eq_ok.mp h
  obtain ⟨v3', h3, h⟩ := bind_eq_ok.mp h
  obtain ⟨v2', -, h⟩ := bind_eq_ok.mp h
  obtain ⟨-, h⟩ := guard_eq_ok.mp h
  obtain ⟨u, ht, h⟩ := bind_eq_ok.mp h
  cases h
  have hb31 := block_of_optional rfl h31
  have hb3 := block_of_optional rfl h3
  have ht := targeted_of_validate ht
  refine ⟨arranged_of_block hb3, arranged_of_block hb31, extending_append hb3 hb31 ht, ?_, ?_, ?_, ?_⟩
  · intro s hs
    rcases List.mem_append.mp hs with hs | hs
    · obtain ⟨hd, hl⟩ := hb3.lineage_ends hs
      exact ⟨hd, hl, fun levels h => ((hb3.sound s hs).lineage levels h).accepted⟩
    · obtain ⟨hd, hl⟩ := hb31.lineage_ends hs
      exact ⟨hd, hl, fun levels h => ((hb31.sound s hs).lineage levels h).accepted⟩
  · constructor
    · intro hne
      obtain ⟨h3ne, first, last, -, -, hall, -⟩ := ht.present hne
      obtain ⟨s, hs⟩ := List.exists_mem_of_ne_nil _ h3ne
      exact ⟨s, hs, by rw [hall s hs]; rfl⟩
    · rintro ⟨s, hs, hsome⟩ rfl
      rw [ht.absent rfl s hs] at hsome
      cases hsome
  · intro hne
    obtain ⟨-, first, last, hf, -, hall, -⟩ := ht.present hne
    obtain ⟨hmem, hle⟩ := hb31.head_le hf
    exact ⟨_, ⟨first, hmem, rfl⟩, hle, hall⟩
  · intro first hf
    have hne : v31 ≠ [] := by
      rintro rfl
      cases hf
    obtain ⟨-, first', last, hf', -, -, -, hlen⟩ := ht.present hne
    obtain rfl : first' = first := Option.some.inj (hf'.symm.trans hf)
    exact hlen

/-! ### A rotated key -/

/-- A 32-bit field. -/
def word (n : ℕ) : List Byte := leBytes 4 n

/-- A field with its length. -/
def prefixed (bytes : List Byte) : List Byte := word bytes.length ++ bytes

/-- Certificates are their own keys, and every signature verifies. -/
def plainCertificates : Certificates (List Byte) where
  parse _ bytes := .ok bytes
  publicKeyDer c := .ok c
  keyAlgorithm _ := some .ecdsaP256
  rsaModulus c := .ok c
  verifies _ _ _ _ := true
  keyName _ := "EC"
  sha256 bytes := bytes

/-- A block of one signer, with one signature and one digest. -/
def signerBlock (certificate : List Byte) (minimum maximum : ℕ) (payload : List Byte) :
    List Byte :=
  let range := word minimum ++ word maximum
  let digest := word 0x0201 ++ prefixed (List.replicate 32 0)
  let signedData := prefixed (prefixed digest) ++ prefixed (prefixed certificate) ++ range ++
    prefixed (prefixed payload)
  let signature := word 0x0201 ++ prefixed [0]
  prefixed (prefixed (prefixed signedData ++ range ++ prefixed (prefixed signature) ++
    prefixed certificate))

/-- A level of a proof of rotation. -/
def rotationLevel (certificate : List Byte) (signed next : ℕ) : List Byte :=
  prefixed (prefixed (prefixed certificate ++ word signed) ++ word 0 ++ word next ++ prefixed [0])

/-- A signer for 28 to 32, whose key is rotated for 33 to 40. -/
def rotatedSchemes : Present :=
  [(APK_V31_BLOCK_ID, signerBlock [2] 33 40 (word V3_PROOF_OF_ROTATION_ATTR_ID ++
      word PROOF_OF_ROTATION_VERSION ++ rotationLevel [1] 0 0x0201 ++ rotationLevel [2] 0x0201 0)),
    (APK_V3_BLOCK_ID, signerBlock [1] 28 32 (word V3_ROTATION_MIN_SDK_ATTR_ID ++ word 33))]

/-- What is read of the signer with this certificate. -/
def plainEvidence (certificate : List Byte) (range : ℕ × ℕ) (scheme : Scheme)
    (attributes : SignerAttributes) : SignerEvidence :=
  ⟨certificate, some range, certificate, [(.chunkedSha256, List.replicate 32 0)], scheme, attributes⟩

def rotatedOriginal : SignerEvidence :=
  plainEvidence [1] (28, 32) .v3 { rotationMinSdk := some 33 }

def rotatedTarget : SignerEvidence :=
  plainEvidence [2] (33, 40) .v31
    { lineage := some [⟨[1], [1], 0, 0, 0x0201⟩, ⟨[2], [2], 0, 0x0201, 0⟩] }

theorem verify_rotatedSchemes : verifySigningSchemes plainCertificates .safe rotatedSchemes =
    .ok ([], [rotatedOriginal], [rotatedTarget]) := by
  decide +kernel

theorem rotation_consistent_rotated :
    Consistent plainCertificates .safe [rotatedOriginal] [rotatedTarget] :=
  rotation_consistent verify_rotatedSchemes

end LibarchiveOxide.Apk.Rotation
