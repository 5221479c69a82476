import LibarchiveOxide.Core.Failure
import LibarchiveOxide.Lib.Radix
import LibarchiveOxide.Lib.Result
import LibarchiveOxide.Lib.Slice

/-! # Member headers of gzip

A header has fields of any length, and a decoder decides about it from the bytes that it has. What is
decided does not change when more bytes come (`gzipHeaderLen_append`). A header that comes in pieces is
gathered in a buffer, up to the limit for metadata; one that lies in a single chunk is not. -/

namespace LibarchiveOxide.Codecs.Gzip

open Core.Failure Core.Budget Lib.LittleEndian Lib.Slice Lib.Result

/-- `gzip_error`. -/
def gzipError (kind : ErrorKind) (message : String) : ArchiveError := .inFormat "gzip" kind message

/-! ### The length of a header -/

variable {front : List Byte}

/-- `nul_terminated`. -/
def nulTerminated (b : List Byte) (start : ℕ) : Option ℕ :=
  if b.length < start then none
  else ((b.drop start).findIdx? (· == 0)).map fun i => start + i + 1

/-- The extra field, with its length in front. -/
def extraField (b : List Byte) (pos : ℕ) : Option ℕ :=
  if b.length < pos + 2 then none else some (pos + 2 + leValue (window b pos (pos + 2)))

/-- The checksum of the header. -/
def headerChecksum (_ : List Byte) (pos : ℕ) : Option ℕ := some (pos + 2)

/-- A field that is there if its flag is set. -/
def flagged (flags bit : Byte) (field : List Byte → ℕ → Option ℕ) (b : List Byte) (pos : ℕ) :
    Option ℕ :=
  if flags &&& bit ≠ 0 then field b pos else some pos

/-- The fields behind the fixed part. -/
def fieldsEnd (flags : Byte) (b : List Byte) : Option ℕ := do
  let pos ← flagged flags 0x04 extraField b 10
  let pos ← flagged flags 0x08 nulTerminated b pos
  let pos ← flagged flags 0x10 nulTerminated b pos
  let pos ← flagged flags 0x02 headerChecksum b pos
  if b.length < pos then none else some pos

/-- `gzip_header_len`. -/
def gzipHeaderLen (b : List Byte) : Except ArchiveError (Option ℕ) :=
  if b.length < 10 then .ok none
  else if b.getD 0 0 ≠ 0x1f ∨ b.getD 1 0 ≠ 0x8b then .error (gzipError .malformed "bad magic")
  else if b.getD 2 0 ≠ 8 then
    .error (gzipError .unsupported "non-deflate compression method")
  else .ok (fieldsEnd (b.getD 3 0) b)

/-- The end of a field depends on the bytes in front of it only. -/
structure Local (field : List Byte → ℕ → Option ℕ) : Prop where
  grows : ∀ {b pos p}, field b pos = some p → pos ≤ p
  determined : ∀ {front rest pos p}, field (front ++ rest) pos = some p → p ≤ front.length →
    ∀ rest', field (front ++ rest') pos = some p

theorem local_nulTerminated : Local nulTerminated where
  grows := by
    intro b pos p h
    unfold nulTerminated at h
    split_ifs at h
    obtain ⟨i, -, rfl⟩ := Option.map_eq_some_iff.mp h
    omega
  determined := by
    intro front rest pos p h hp rest'
    unfold nulTerminated at h ⊢
    split_ifs at h
    obtain ⟨i, hi, rfl⟩ := Option.map_eq_some_iff.mp h
    rw [List.drop_append_of_le_length (by omega), List.findIdx?_append] at hi
    have hfound : (front.drop pos).findIdx? (· == 0) = some i := by
      cases hfront : (front.drop pos).findIdx? (· == 0) with
      | some j => simpa [hfront] using hi
      | none =>
        rw [hfront, Option.none_or] at hi
        obtain ⟨j, -, rfl⟩ := Option.map_eq_some_iff.mp hi
        rw [List.length_drop] at hp
        omega
    rw [if_neg (by rw [List.length_append]; omega), List.drop_append_of_le_length (by omega),
      List.findIdx?_append, hfound]
    rfl

theorem local_extraField : Local extraField where
  grows := by
    intro b pos p h
    unfold extraField at h
    split_ifs at h
    cases h
    omega
  determined := by
    intro front rest pos p h hp rest'
    unfold extraField at h ⊢
    split_ifs at h
    have heq := Option.some.inj h
    rw [window_append_left (by omega)] at heq
    rw [if_neg (by rw [List.length_append]; omega), window_append_left (by omega), heq]

theorem local_headerChecksum : Local headerChecksum where
  grows := by
    intro b pos p h
    cases h
    omega
  determined := fun h _ _ => h

theorem Local.flagged {field : List Byte → ℕ → Option ℕ} (h : Local field) (flags bit : Byte) :
    Local (flagged flags bit field) where
  grows := by
    intro b pos p hp
    unfold Gzip.flagged at hp
    split_ifs at hp
    · exact h.grows hp
    · exact (Option.some.inj hp).le
  determined := by
    intro front rest pos p hp hle rest'
    unfold Gzip.flagged at hp ⊢
    split_ifs at hp ⊢
    · exact h.determined hp hle rest'
    · exact hp

/-- **The header decides about its length.** -/
theorem fieldsEnd_determined {flags : Byte} {rest : List Byte} {n : ℕ}
    (h : fieldsEnd flags (front ++ rest) = some n) (hn : n ≤ front.length) (rest' : List Byte) :
    fieldsEnd flags (front ++ rest') = some n := by
  have hextra := local_extraField.flagged flags 0x04
  have hname := local_nulTerminated.flagged flags 0x08
  have hcomment := local_nulTerminated.flagged flags 0x10
  have hcrc := local_headerChecksum.flagged flags 0x02
  unfold fieldsEnd at h ⊢
  obtain ⟨p1, h1, h⟩ := Option.bind_eq_some_iff.mp h
  obtain ⟨p2, h2, h⟩ := Option.bind_eq_some_iff.mp h
  obtain ⟨p3, h3, h⟩ := Option.bind_eq_some_iff.mp h
  obtain ⟨p4, h4, h⟩ := Option.bind_eq_some_iff.mp h
  split_ifs at h
  cases h
  have hle3 := hcrc.grows h4
  have hle2 := hcomment.grows h3
  have hle1 := hname.grows h2
  refine Option.bind_eq_some_iff.mpr ⟨p1, hextra.determined h1 (by omega) rest', ?_⟩
  refine Option.bind_eq_some_iff.mpr ⟨p2, hname.determined h2 (by omega) rest', ?_⟩
  refine Option.bind_eq_some_iff.mpr ⟨p3, hcomment.determined h3 (by omega) rest', ?_⟩
  refine Option.bind_eq_some_iff.mpr ⟨n, hcrc.determined h4 hn rest', if_neg ?_⟩
  rw [List.length_append]
  omega

theorem fieldsEnd_mem {flags : Byte} {b : List Byte} {n : ℕ} (h : fieldsEnd flags b = some n) :
    10 ≤ n ∧ n ≤ b.length := by
  unfold fieldsEnd at h
  obtain ⟨p1, h1, h⟩ := Option.bind_eq_some_iff.mp h
  obtain ⟨p2, h2, h⟩ := Option.bind_eq_some_iff.mp h
  obtain ⟨p3, h3, h⟩ := Option.bind_eq_some_iff.mp h
  obtain ⟨p4, h4, h⟩ := Option.bind_eq_some_iff.mp h
  split_ifs at h
  cases h
  have hle1 := (local_extraField.flagged flags 0x04).grows h1
  have hle2 := (local_nulTerminated.flagged flags 0x08).grows h2
  have hle3 := (local_nulTerminated.flagged flags 0x10).grows h3
  have hle4 := (local_headerChecksum.flagged flags 0x02).grows h4
  omega

theorem getD_append_left {i : ℕ} (h : i < front.length) (rest : List Byte) :
    (front ++ rest).getD i 0 = front.getD i 0 := by
  rw [List.getD_eq_getElem?_getD, List.getElem?_append_left h, List.getD_eq_getElem?_getD]

theorem gzipHeaderLen_mem {b : List Byte} {n : ℕ} (h : gzipHeaderLen b = .ok (some n)) :
    10 ≤ n ∧ n ≤ b.length := by
  unfold gzipHeaderLen at h
  split_ifs at h
  · cases h
  · exact fieldsEnd_mem (Except.ok.inj h)

/-- What is in front of the body is what counts. -/
theorem gzipHeaderLen_determined {rest : List Byte} {n : ℕ}
    (h : gzipHeaderLen (front ++ rest) = .ok (some n)) (hn : n ≤ front.length) (rest' : List Byte) :
    gzipHeaderLen (front ++ rest') = .ok (some n) := by
  have h10 := (gzipHeaderLen_mem h).1
  unfold gzipHeaderLen at h ⊢
  rw [getD_append_left (by omega), getD_append_left (by omega), getD_append_left (by omega),
    getD_append_left (by omega)] at h ⊢
  split_ifs at h with hshort hmagic hmethod
  · cases h
  · rw [if_neg (by rw [List.length_append]; omega), if_neg hmagic, if_neg hmethod,
      fieldsEnd_determined (Except.ok.inj h) hn]

/-- **What is decided stays**, whatever comes behind it. -/
theorem gzipHeaderLen_append (b c : List Byte) :
    (∀ n, gzipHeaderLen b = .ok (some n) → gzipHeaderLen (b ++ c) = .ok (some n)) ∧
      ∀ err, gzipHeaderLen b = .error err → gzipHeaderLen (b ++ c) = .error err := by
  refine ⟨fun n h => ?_, fun err h => ?_⟩
  · refine @gzipHeaderLen_determined b [] n ?_ (gzipHeaderLen_mem h).2 c
    rwa [List.append_nil]
  · unfold gzipHeaderLen at h ⊢
    by_cases hshort : b.length < 10
    · rw [if_pos hshort] at h
      cases h
    · rw [if_neg hshort] at h
      rw [if_neg (by rw [List.length_append]; omega), getD_append_left (by omega),
        getD_append_left (by omega), getD_append_left (by omega)]
      split_ifs at h ⊢
      · exact h
      · exact h

/-- A header reaches behind the bytes that did not decide. -/
theorem lt_of_undecided {b c : List Byte} {n : ℕ} (hb : gzipHeaderLen b = .ok none)
    (h : gzipHeaderLen (b ++ c) = .ok (some n)) : b.length < n := by
  by_contra hle
  have hdecided := gzipHeaderLen_determined h (not_lt.mp hle) []
  rw [List.append_nil, hb] at hdecided
  cases hdecided

/-! ### Headers in pieces -/

/-- What becomes of a chunk that comes while a header is read. -/
inductive HeaderStep where
  | complete (consumed : ℕ)
  | incomplete (headerBuf : List Byte)
deriving DecidableEq

/-- The failure of a header that is too long. -/
def headerLimit : ArchiveError := gzipError .limit "gzip header exceeds metadata limit"

/-- How many bytes of a chunk go into the buffer. -/
def retainedLength (limits : Limits) (prev length : ℕ) : Except ArchiveError ℕ :=
  match limits.metadataBytes with
  | some maximum => .ok (min (maximum - prev) length)
  | none => (okOr (checkedAdd prev length) (gzipError .limit "gzip header length overflow")).map
    fun _ => length

/-- `Phase::Header` of `step_legacy`. The chunk is consumed, up to the body. -/
def headerStep (limits : Limits) (headerBuf input : List Byte) : Except ArchiveError HeaderStep :=
  let prev := headerBuf.length
  if prev = 0 then do
    match ← gzipHeaderLen input with
    | some hlen => return .complete (hlen - prev)
    | none =>
      if exceeds input.length limits.metadataBytes then throw headerLimit
      return .incomplete input
  else do
    let retained ← retainedLength limits prev input.length
    let headerBuf := headerBuf ++ input.take retained
    match ← gzipHeaderLen headerBuf with
    | some hlen => return .complete (hlen - prev)
    | none =>
      if retained ≠ input.length then throw headerLimit
      return .incomplete headerBuf

/-- A header in chunks: its length, if the chunks are enough for it. -/
def readHeader (limits : Limits) : List Byte → List (List Byte) → Except ArchiveError (Option ℕ)
  | _, [] => .ok none
  | headerBuf, c :: cs => do
    match ← headerStep limits headerBuf c with
    | .complete consumed => return some (headerBuf.length + consumed)
    | .incomplete headerBuf => readHeader limits headerBuf cs

/-- The header that the chunks hold is accepted. -/
def Accepts (limits : Limits) (headerBuf : List Byte) (chunks : List (List Byte)) : Prop :=
  ∃ n, readHeader limits headerBuf chunks = .ok (some n)

/-- The header that the bytes hold is within the limit. -/
def Fits (limits : Limits) (b : List Byte) : Prop :=
  ∃ n, gzipHeaderLen b = .ok (some n) ∧ exceeds n limits.metadataBytes = false

/-- The first chunk with a byte in it holds a whole header, which is above the limit. -/
def Unchecked (limits : Limits) (chunks : List (List Byte)) : Prop :=
  ∃ n, gzipHeaderLen ((chunks.find? (· ≠ [])).getD []) = .ok (some n) ∧
    exceeds n limits.metadataBytes = true

/-- The bytes of a header that were consumed before are no more than it has. -/
def NoUnderflow (limits : Limits) : List Byte → List (List Byte) → Prop
  | _, [] => True
  | headerBuf, c :: cs =>
    (∀ k hlen, gzipHeaderLen (headerBuf ++ c.take k) = .ok (some hlen) → headerBuf.length ≤ hlen) ∧
      ∀ headerBuf', headerStep limits headerBuf c = .ok (.incomplete headerBuf') →
        NoUnderflow limits headerBuf' cs

section
variable {limits : Limits} {headerBuf c : List Byte} {cs : List (List Byte)} {k n : ℕ}

theorem exceeds_of_le {limit : Option ℕ} {m : ℕ} (hle : n ≤ m) (h : exceeds m limit = false) :
    exceeds n limit = false :=
  within_iff.mp fun l hl => hle.trans (within_iff.mpr h l hl)

theorem headerStep_nil :
    headerStep limits [] c = gzipHeaderLen c >>= fun decided =>
      match decided with
      | some hlen => .ok (.complete hlen)
      | none =>
        if exceeds c.length limits.metadataBytes then .error headerLimit
        else .ok (.incomplete c) := by
  unfold headerStep
  dsimp only
  rw [if_pos List.length_nil]
  rcases gzipHeaderLen c with err | ⟨- | hlen⟩
  · rfl
  · simp only [ok_bind]
    split_ifs
    · rfl
    · rfl
  · rfl

theorem headerStep_gathered (hbuf : headerBuf ≠ [])
    (hk : retainedLength limits headerBuf.length c.length = .ok k) :
    headerStep limits headerBuf c = gzipHeaderLen (headerBuf ++ c.take k) >>= fun decided =>
      match decided with
      | some hlen => .ok (.complete (hlen - headerBuf.length))
      | none =>
        if k ≠ c.length then .error headerLimit
        else .ok (.incomplete (headerBuf ++ c.take k)) := by
  unfold headerStep
  dsimp only
  rw [if_neg (fun h => hbuf (List.length_eq_zero_iff.mp h)), hk]
  simp only [ok_bind]
  rcases gzipHeaderLen (headerBuf ++ c.take k) with err | ⟨- | hlen⟩
  · rfl
  · simp only [ok_bind]
    split_ifs
    · rfl
    · rfl
  · rfl

/-- Of a chunk so much is kept that the limit is not passed, and all of it if that is below. -/
theorem retainedLength_spec (hbuf : exceeds headerBuf.length limits.metadataBytes = false)
    (hmem : headerBuf.length + c.length ≤ u64Max) :
    ∃ k, retainedLength limits headerBuf.length c.length = .ok k ∧ k ≤ c.length ∧
      exceeds (headerBuf.length + k) limits.metadataBytes = false ∧
        (k ≠ c.length → limits.metadataBytes = some (headerBuf.length + k)) := by
  unfold retainedLength
  cases hlimit : limits.metadataBytes with
  | none =>
    rw [checkedAdd_of_le hmem]
    exact ⟨c.length, rfl, le_rfl, rfl, fun h => absurd rfl h⟩
  | some maximum =>
    rw [hlimit, exceeds_some, decide_eq_false_iff_not] at hbuf
    refine ⟨_, rfl, min_le_right _ _, ?_, fun hk => congrArg some ?_⟩
    · rw [exceeds_some, decide_eq_false_iff_not]
      omega
    · omega

theorem fits_of_le (h : gzipHeaderLen headerBuf = .ok (some n))
    (hle : exceeds headerBuf.length limits.metadataBytes = false) (rest : List Byte) :
    Fits limits (headerBuf ++ rest) :=
  ⟨n, (gzipHeaderLen_append headerBuf rest).1 n h,
    exceeds_of_le (gzipHeaderLen_mem h).2 hle⟩

theorem not_fits_of_error {err : ArchiveError} (h : gzipHeaderLen headerBuf = .error err)
    (rest : List Byte) : ¬ Fits limits (headerBuf ++ rest) := by
  rintro ⟨n, hn, -⟩
  rw [(gzipHeaderLen_append headerBuf rest).2 err h] at hn
  cases hn

/-- A header that is not decided when the limit is reached is above it. -/
theorem not_fits_of_full {m : ℕ} (h : gzipHeaderLen headerBuf = .ok none)
    (hlimit : limits.metadataBytes = some m) (hm : m ≤ headerBuf.length) (rest : List Byte) :
    ¬ Fits limits (headerBuf ++ rest) := by
  rintro ⟨n, hn, hfits⟩
  have hlt := lt_of_undecided h hn
  rw [hlimit, exceeds_some, decide_eq_false_iff_not] at hfits
  omega

/-- **A header that is gathered** is accepted if it is within the limit. -/
theorem accepts_gathered : ∀ {cs : List (List Byte)} {headerBuf : List Byte}, headerBuf ≠ [] →
    gzipHeaderLen headerBuf = .ok none →
    exceeds headerBuf.length limits.metadataBytes = false →
    (headerBuf ++ cs.flatten).length ≤ u64Max →
    (Accepts limits headerBuf cs ↔ Fits limits (headerBuf ++ cs.flatten))
  | [], headerBuf, _, hnone, _, _ => by
    refine iff_of_false (fun ⟨n, hn⟩ => nomatch hn) (fun ⟨n, hn, _⟩ => ?_)
    rw [List.flatten_nil, List.append_nil, hnone] at hn
    cases hn
  | c :: cs, headerBuf, hne, hnone, hle, hmem => by
    rw [List.flatten_cons, List.length_append, List.length_append] at hmem
    obtain ⟨k, hk, hkc, hkept, hfull⟩ := retainedLength_spec (c := c) hle (by omega)
    have hsplit : headerBuf ++ (c :: cs).flatten =
        (headerBuf ++ c.take k) ++ (c.drop k ++ cs.flatten) := by
      rw [List.flatten_cons, List.append_assoc, ← List.append_assoc (c.take k),
        List.take_append_drop]
    have hlength : (headerBuf ++ c.take k).length = headerBuf.length + k := by
      rw [List.length_append, List.length_take, min_eq_left hkc]
    rw [← hlength] at hkept
    unfold Accepts readHeader
    rw [headerStep_gathered hne hk, hsplit]
    rcases hdecided : gzipHeaderLen (headerBuf ++ c.take k) with err | ⟨- | n⟩
    · exact iff_of_false (fun ⟨n, hn⟩ => nomatch hn) (not_fits_of_error hdecided _)
    · simp only [ok_bind]
      by_cases hall : k = c.length
      · rw [if_neg (fun h => h hall)]
        have htake : c.take k = c := by rw [hall, List.take_length]
        have hdrop : c.drop k = [] := by rw [hall, List.drop_length]
        rw [htake] at hdecided hkept ⊢
        rw [hdrop, List.nil_append]
        refine accepts_gathered (by simp [hne]) hdecided hkept ?_
        rw [List.length_append, List.length_append]
        omega
      · rw [if_pos hall]
        refine iff_of_false (fun ⟨n, hn⟩ => nomatch hn) ?_
        exact not_fits_of_full hdecided (hfull hall) hlength.ge _
    · exact iff_of_true ⟨_, rfl⟩ (fits_of_le hdecided hkept _)

/-- **A header is accepted if it is within the limit, or is not checked.** -/
theorem accepts_iff : ∀ {cs : List (List Byte)}, cs.flatten.length ≤ u64Max →
    (Accepts limits [] cs ↔ Fits limits cs.flatten ∨ Unchecked limits cs)
  | [], _ => by
    refine iff_of_false (fun ⟨n, hn⟩ => nomatch hn) ?_
    rintro (⟨n, hn, -⟩ | ⟨n, hn, -⟩) <;> cases hn
  | [] :: cs, hmem => by
    have hstep : headerStep limits [] [] = .ok (.incomplete []) := by
      rw [headerStep_nil]
      show (if exceeds 0 limits.metadataBytes then _ else _) = _
      rw [if_neg (by cases limits.metadataBytes <;> simp [exceeds])]
    have hread : Accepts limits [] ([] :: cs) ↔ Accepts limits [] cs := by
      unfold Accepts
      rw [readHeader, hstep]
      rfl
    have hrest : cs.flatten.length ≤ u64Max := hmem
    rw [hread, accepts_iff hrest]
    rfl
  | (b :: c) :: cs, hmem => by
    have hfirst : (((b :: c) :: cs).find? (· ≠ [])).getD [] = b :: c := rfl
    have hunchecked (h : ∀ n, gzipHeaderLen (b :: c) = .ok (some n) →
        exceeds n limits.metadataBytes = false) : ¬ Unchecked limits ((b :: c) :: cs) := by
      rintro ⟨n, hn, habove⟩
      rw [hfirst] at hn
      rw [h n hn] at habove
      cases habove
    rw [List.flatten_cons]
    unfold Accepts readHeader
    rw [headerStep_nil]
    rcases hdecided : gzipHeaderLen (b :: c) with err | ⟨- | n⟩
    · refine iff_of_false (fun ⟨n, hn⟩ => nomatch hn) (not_or.mpr ⟨not_fits_of_error hdecided _, ?_⟩)
      exact hunchecked (fun n hn => by rw [hdecided] at hn; cases hn)
    · have hnot := hunchecked (fun n hn => by rw [hdecided] at hn; cases hn)
      rw [or_iff_left hnot]
      simp only [ok_bind]
      cases hle : exceeds (b :: c).length limits.metadataBytes with
      | true =>
        refine iff_of_false (fun ⟨n, hn⟩ => nomatch hn) ?_
        cases hlimit : limits.metadataBytes with
        | none =>
          rw [hlimit] at hle
          cases hle
        | some m =>
          rw [hlimit, exceeds_some, decide_eq_true_eq] at hle
          exact not_fits_of_full hdecided hlimit hle.le _
      | false => exact accepts_gathered (List.cons_ne_nil b c) hdecided hle hmem
    · refine iff_of_true ⟨_, rfl⟩ ?_
      cases hle : exceeds n limits.metadataBytes with
      | true => exact .inr ⟨n, hdecided, hle⟩
      | false => exact .inl ⟨n, (gzipHeaderLen_append _ _).1 n hdecided, hle⟩

theorem unchecked_above (h : Unchecked limits cs) : ¬ Fits limits cs.flatten := by
  induction cs with
  | nil =>
    obtain ⟨n, hn, -⟩ := h
    cases hn
  | cons c cs ih =>
    cases c with
    | nil => exact ih h
    | cons b c =>
      obtain ⟨n, hn, habove⟩ := h
      rintro ⟨m, hm, hfits⟩
      have hsame := (gzipHeaderLen_append (b :: c) cs.flatten).1 n hn
      cases hsame.symm.trans hm
      rw [hfits] at habove
      cases habove

theorem headerStep_incomplete {headerBuf' : List Byte} (hbuf : gzipHeaderLen headerBuf = .ok none)
    (h : headerStep limits headerBuf c = .ok (.incomplete headerBuf')) :
    gzipHeaderLen headerBuf' = .ok none := by
  by_cases hne : headerBuf = []
  · subst hne
    rw [headerStep_nil] at h
    obtain ⟨decided, hdecided, h⟩ := bind_eq_ok.mp h
    cases decided with
    | some hlen => cases h
    | none =>
      dsimp only at h
      split_ifs at h
      cases h
      exact hdecided
  · rcases hk : retainedLength limits headerBuf.length c.length with err | k
    · unfold headerStep at h
      dsimp only at h
      rw [if_neg (fun h => hne (List.length_eq_zero_iff.mp h)), hk] at h
      cases h
    · rw [headerStep_gathered hne hk] at h
      obtain ⟨decided, hdecided, h⟩ := bind_eq_ok.mp h
      cases decided with
      | some hlen => cases h
      | none =>
        dsimp only at h
        split_ifs at h
        cases h
        exact hdecided

theorem noUnderflow : ∀ {cs : List (List Byte)} {headerBuf : List Byte},
    gzipHeaderLen headerBuf = .ok none → NoUnderflow limits headerBuf cs
  | [], _, _ => trivial
  | _ :: _, _, hbuf =>
    ⟨fun _ _ h => (lt_of_undecided hbuf h).le,
      fun _ h => noUnderflow (headerStep_incomplete hbuf h)⟩

end

/-- A decoder that gets its input byte by byte. -/
def bytewise (b : List Byte) : List (List Byte) := b.map fun x => [x]

theorem flatten_bytewise (b : List Byte) : (bytewise b).flatten = b := by
  induction b with
  | nil => rfl
  | cons x b ih => exact congrArg (x :: ·) ih

theorem not_unchecked_bytewise (limits : Limits) (b : List Byte) : ¬ Unchecked limits (bytewise b) := by
  rintro ⟨n, hn, -⟩
  cases b with
  | nil => cases hn
  | cons x b => cases hn

/-- Headers are handled alike in all cuttings: the bytes that come are accepted if they are when they come
one by one, what is decided about the length stays, and no bytes are consumed twice. -/
def CutAlike (limits : Limits) (chunks : List (List Byte)) : Prop :=
  (Accepts limits [] chunks ↔ Accepts limits [] (bytewise chunks.flatten)) ∧
    (∀ b c, (∀ n, gzipHeaderLen b = .ok (some n) → gzipHeaderLen (b ++ c) = .ok (some n)) ∧
      ∀ err, gzipHeaderLen b = .error err → gzipHeaderLen (b ++ c) = .error err) ∧
    NoUnderflow limits [] chunks

/-- **The cutting does not matter unless the limit is not checked**: unless a header above it comes in one
chunk. The chunks are those of a slice. -/
theorem cutAlike_iff (limits : Limits) {chunks : List (List Byte)}
    (hmem : chunks.flatten.length ≤ u64Max) : CutAlike limits chunks ↔ ¬ Unchecked limits chunks := by
  have hbytes : Accepts limits [] (bytewise chunks.flatten) ↔ Fits limits chunks.flatten := by
    rw [accepts_iff (by rwa [flatten_bytewise]), flatten_bytewise,
      or_iff_left (not_unchecked_bytewise limits _)]
  have hrest : NoUnderflow limits [] chunks := noUnderflow rfl
  unfold CutAlike
  rw [accepts_iff hmem, hbytes]
  constructor
  · rintro ⟨hsame, -⟩ hunchecked
    exact unchecked_above hunchecked (hsame.mp (.inr hunchecked))
  · exact fun h => ⟨or_iff_left h, gzipHeaderLen_append, hrest⟩

theorem cutAlike_iff_of_limit : CutAlike { Limits.unlimited with metadataBytes := some 10 }
    [[0x1f, 0x8b, 8], [0, 0, 0, 0, 0, 0, 3, 3]] ↔
      ¬ Unchecked { Limits.unlimited with metadataBytes := some 10 }
        [[0x1f, 0x8b, 8], [0, 0, 0, 0, 0, 0, 3, 3]] :=
  cutAlike_iff _ (by decide)

/-- A header of twelve bytes, with a comment. -/
def commented : List Byte := [0x1f, 0x8b, 8, 0x10, 0, 0, 0, 0, 0, 0, 0x61, 0]

/-- In one chunk the header passes the limit of ten bytes, byte by byte it does not. -/
theorem unchecked_header :
    Accepts { Limits.unlimited with metadataBytes := some 10 } [] [commented] ∧
      ¬ Accepts { Limits.unlimited with metadataBytes := some 10 } [] (bytewise commented) := by
  refine ⟨⟨12, by decide +kernel⟩, ?_⟩
  rintro ⟨n, hn⟩
  have hrefused : readHeader { Limits.unlimited with metadataBytes := some 10 } []
      (bytewise commented) = .error headerLimit := by decide +kernel
  rw [hrefused] at hn
  cases hn

end LibarchiveOxide.Codecs.Gzip
