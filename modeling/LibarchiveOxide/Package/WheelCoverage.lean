import LibarchiveOxide.Package.Wheel

/-! # What a verified wheel covers

A verdict of `Verified` says that no round over the entries has found anything (`Passes`). For an entry
that a round looks at, this is a row that matches it; two kinds of entries are not looked at although
they are no part of the integrity metadata that was read. -/

namespace LibarchiveOxide.Package.Wheel

open Core.Failure Package.Finding

/-! ### CSV -/

/-- A field as it is written: in quotes, with its quotes doubled, or as it is. -/
def csvField (quotes : List Byte → Bool) (field : List Byte) : List Byte :=
  if quotes field then
    chr '"' :: (field.flatMap fun b => if b = chr '"' then [b, b] else [b]) ++ [chr '"']
  else field

/-- A row as it is written. -/
def csvLine (quotes : List Byte → Bool) (fields : List (List Byte)) : List Byte :=
  [chr ','].intercalate (fields.map (csvField quotes))

variable {b : Byte} {rest field : List Byte} {fields : List (List Byte)} {quoted : Bool}

variable {quotes : List Byte → Bool}

theorem csvLoop_open : csvLoop (chr '"' :: rest) fields field false = csvLoop rest fields field true := by
  cases rest with
  | nil => simp [csvLoop]
  | cons c rest => rw [csvLoop, if_pos rfl, if_neg Bool.false_ne_true]

theorem csvLoop_doubled : csvLoop (chr '"' :: chr '"' :: rest) fields field true =
    csvLoop rest fields (field ++ [chr '"']) true := by
  rw [csvLoop, if_pos rfl, if_pos rfl, if_pos rfl]

theorem csvLoop_close (h : rest.head? ≠ some (chr '"')) :
    csvLoop (chr '"' :: rest) fields field true = csvLoop rest fields field false := by
  cases rest with
  | nil => simp [csvLoop]
  | cons c rest =>
    have hc : c ≠ chr '"' := fun hc => h (congrArg some hc)
    rw [csvLoop, if_pos rfl, if_pos rfl, if_neg hc]

theorem csvLoop_other (hb : b ≠ chr '"') : csvLoop (b :: rest) fields field quoted =
    if b = chr ',' ∧ quoted = false then csvLoop rest (fields ++ [field]) [] quoted
    else csvLoop rest fields (field ++ [b]) quoted := by
  cases rest with
  | nil => simp [csvLoop, hb]
  | cons c rest => rw [csvLoop, if_neg hb]

/-- Inside of quotes. -/
theorem csvLoop_quoted (fields : List (List Byte)) : ∀ (text : List Byte) (field : List Byte)
    {rest : List Byte}, rest.head? ≠ some (chr '"') →
    csvLoop ((text.flatMap fun b => if b = chr '"' then [b, b] else [b]) ++ chr '"' :: rest) fields field
      true = csvLoop rest fields (field ++ text) false
  | [], field, rest, h => by
    rw [List.append_nil, List.flatMap_nil, List.nil_append, csvLoop_close h]
  | b :: text, field, rest, h => by
    have ih := csvLoop_quoted fields text (field ++ [b]) h
    rw [List.append_assoc] at ih
    rw [List.flatMap_cons]
    by_cases hb : b = chr '"'
    · subst hb
      rw [if_pos rfl, List.append_assoc, List.cons_append, List.singleton_append, csvLoop_doubled]
      exact ih
    · rw [if_neg hb, List.append_assoc, List.singleton_append, csvLoop_other hb, if_neg (by simp)]
      exact ih

/-- Outside of quotes. -/
theorem csvLoop_plain (fields : List (List Byte)) : ∀ (text : List Byte) (field : List Byte)
    {rest : List Byte}, chr '"' ∉ text → chr ',' ∉ text →
    csvLoop (text ++ rest) fields field false = csvLoop rest fields (field ++ text) false
  | [], field, rest, _, _ => by rw [List.append_nil, List.nil_append]
  | b :: text, field, rest, hq, hc => by
    rw [List.mem_cons, not_or] at hq hc
    rw [List.cons_append, csvLoop_other (Ne.symm hq.1), if_neg (fun h => hc.1 h.1.symm),
      csvLoop_plain fields text (field ++ [b]) hq.2 hc.2, List.append_assoc]
    rfl

/-- A field at the front of the line. -/
theorem csvLoop_field (hq : chr '"' ∈ field ∨ chr ',' ∈ field → quotes field = true)
    (fields : List (List Byte)) (h : rest.head? ≠ some (chr '"')) :
    csvLoop (csvField quotes field ++ rest) fields [] false = csvLoop rest fields field false := by
  unfold csvField
  cases hf : quotes field with
  | false =>
    have hno : ¬ (chr '"' ∈ field ∨ chr ',' ∈ field) := fun h => by simp [hq h] at hf
    obtain ⟨h1, h2⟩ := not_or.mp hno
    exact (csvLoop_plain fields field [] h1 h2).trans (by rw [List.nil_append])
  | true =>
    rw [if_pos rfl, List.cons_append, List.cons_append, List.append_assoc, csvLoop_open]
    exact (csvLoop_quoted fields field [] h).trans (by rw [List.nil_append])

theorem csvLoop_line : ∀ (field : List Byte) (row fields : List (List Byte)),
    (∀ f ∈ field :: row, chr '"' ∈ f ∨ chr ',' ∈ f → quotes f = true) →
    csvLoop (csvLine quotes (field :: row)) fields [] false = .ok (fields ++ field :: row)
  | field, [], fields, hq => by
    have h : csvLoop (csvField quotes field ++ []) fields [] false = csvLoop [] fields field false :=
      csvLoop_field (hq field List.mem_cons_self) fields nofun
    rw [List.append_nil] at h
    simp only [csvLine, List.map_cons, List.map_nil, List.intercalate_singleton]
    rw [h]
    simp [csvLoop]
  | field, next :: row, fields, hq => by
    have hcomma : chr ',' ≠ chr '"' := by decide
    have hline : csvLine quotes (field :: next :: row) =
        csvField quotes field ++ chr ',' :: csvLine quotes (next :: row) := by
      simp [csvLine, List.intercalate_cons_cons]
    have hrest := csvLoop_line next row (fields ++ [field]) fun f hf => hq f (List.mem_cons_of_mem _ hf)
    rw [hline, csvLoop_field (hq field List.mem_cons_self) fields (by simpa using hcomma),
      csvLoop_other hcomma, if_pos ⟨rfl, rfl⟩, hrest, List.append_assoc]
    rfl

/-- **A row is read back**, whatever fields are quoted beside those that have to be. -/
theorem csvFields_csvLine {row : List (List Byte)}
    (hq : ∀ field ∈ row, chr '"' ∈ field ∨ chr ',' ∈ field → quotes field = true) (h : row ≠ []) :
    csvFields (csvLine quotes row) = .ok row := by
  obtain ⟨field, row, rfl⟩ := List.exists_cons_of_ne_nil h
  exact csvLoop_line field row [] hq

/-! ### Rows -/

/-- A line of the file with these three fields. -/
def RowOf (body name : List Byte) (row : WheelRow) : Prop :=
  ∃ rawLine ∈ body.splitOn LF, csvFields (stripCr rawLine) = .ok [name, row.hash, row.size]

variable {recordName : List Byte} {r : Rows}

/-- A line in which nothing is found is empty or a row with a new path. -/
theorem line_clean {index : ℕ} {rawLine : List Byte} (h : (r.line recordName index rawLine).findings = []) :
    r.findings = [] ∧ ∀ name row, (r.line recordName index rawLine).get name = some row ↔
      csvFields (stripCr rawLine) = .ok [name, row.hash, row.size] ∨ r.get name = some row := by
  unfold Rows.line at h ⊢
  simp only at h ⊢
  by_cases hl : stripCr rawLine = []
  · rw [if_pos hl] at h ⊢
    refine ⟨h, fun name row => ?_⟩
    rw [hl]
    simp [csvFields, csvLoop]
  · rw [if_neg hl] at h ⊢
    split at h
    · rename_i path hash size hrow
      simp only at h
      by_cases hdup : (r.get path).isSome = true
      · rw [if_pos hdup] at h
        exact absurd h (by simp)
      · rw [if_neg hdup] at h
        rw [Option.not_isSome_iff_eq_none] at hdup
        refine ⟨h, fun name row => ?_⟩
        simp only [hrow, Rows.get, List.lookup_cons, Except.ok.injEq, List.cons.injEq, and_true]
        by_cases hn : name = path
        · subst hn
          rw [beq_self_eq_true, show r.rows.lookup name = none from hdup]
          constructor
          · intro hr
            obtain rfl := Option.some.inj hr
            exact .inl ⟨rfl, rfl, rfl⟩
          · rintro (⟨-, rfl, rfl⟩ | hr)
            · rfl
            · cases hr
        · rw [beq_eq_false_iff_ne.mpr hn]
          simp [Ne.symm hn]
    · exact absurd h (by simp)
    · exact absurd h (by simp)

theorem rowsLoop_clean : ∀ (lines : List (List Byte)) {index : ℕ} {r : Rows},
    (rowsLoop recordName index lines r).findings = [] →
    r.findings = [] ∧ ∀ name row, (rowsLoop recordName index lines r).get name = some row ↔
      (∃ rawLine ∈ lines, csvFields (stripCr rawLine) = .ok [name, row.hash, row.size]) ∨
        r.get name = some row
  | [], index, r, h => ⟨h, fun name row => by simp [rowsLoop]⟩
  | rawLine :: lines, index, r, h => by
    obtain ⟨h1, h2⟩ := rowsLoop_clean lines h
    obtain ⟨h3, h4⟩ := line_clean h1
    refine ⟨h3, fun name row => ?_⟩
    rw [rowsLoop, h2, h4, List.exists_mem_cons_iff, or_assoc, or_left_comm]

/-- **The rows of a file** in which nothing is found are its lines with three fields. -/
theorem get_iff {body : List Byte} (h : (parseWheelRows body recordName).findings = []) (name : List Byte)
    (row : WheelRow) : (parseWheelRows body recordName).get name = some row ↔ RowOf body name row := by
  refine ((rowsLoop_clean _ h).2 name row).trans ?_
  simp [RowOf, Rows.get]

/-- Everything that is found in the file is invalid metadata. -/
theorem rowsLoop_codes : ∀ (lines : List (List Byte)) {index : ℕ} {r : Rows},
    (∀ finding ∈ r.findings, finding.code = .invalidIntegrityMetadata) →
    ∀ finding ∈ (rowsLoop recordName index lines r).findings, finding.code = .invalidIntegrityMetadata
  | [], _, _, h => h
  | rawLine :: lines, index, r, h => by
    refine rowsLoop_codes lines (r := r.line recordName index rawLine) ?_
    have hpush (path : List Byte) (detail : String) :
        ∀ finding ∈ r.findings ++ [integrityFinding path .invalidIntegrityMetadata detail],
          finding.code = .invalidIntegrityMetadata := by
      intro finding hf
      rcases List.mem_append.mp hf with hf | hf
      · exact h finding hf
      · rw [List.mem_singleton.mp hf]
        rfl
    unfold Rows.line
    simp only
    split_ifs
    · exact h
    · split
      · split_ifs
        · exact hpush _ _
        · exact h
      · exact hpush _ _
      · exact hpush _ _

/-! ### Entries -/

variable {signaturePaths : List (List Byte)}

/-- A finding that makes a verdict `Invalid`. -/
def Invalidating (finding : PackageFinding) : Prop :=
  finding.code = .integrityMismatch ∨ finding.code = .invalidIntegrityMetadata ∨
    finding.code = .missingIntegrityRecord ∨ finding.code = .integrityReadFailure

/-- Nothing has been found so far. -/
def Fine (p : WheelProgress) : Prop := (∀ finding ∈ p.findings, ¬ Invalidating finding) ∧ p.unsupported = false

/-- **A row matches an entry**: its size is the size, and its digest, by one of the three algorithms, is the
digest. -/
def Matches (b : Base64) (row : WheelRow) (entry : EntryDigest) : Prop :=
  parseU64 row.size = some entry.size ∧ ∃ algorithm encoded expected,
    row.hash = algorithm ++ chr '=' :: encoded ∧ chr '=' ∉ algorithm ∧
    expectedDigest algorithm entry = some expected ∧ b.decode encoded = .ok expected

theorem integrityOutcome_verified {checked : ℕ} {unsupported : Bool} {findings found : List PackageFinding}
    (h : integrityOutcome checked unsupported findings = (.verified, found)) :
    (∀ finding ∈ findings, ¬ Invalidating finding) ∧ unsupported = false := by
  unfold integrityOutcome at h
  simp only [Prod.mk.injEq] at h
  obtain ⟨h, -⟩ := h
  split_ifs at h with hinv hun
  refine ⟨fun finding hf hbad => hinv ?_, by simpa using hun⟩
  rw [List.any_eq_true]
  refine ⟨finding, hf, ?_⟩
  simpa [Invalidating, or_assoc] using hbad

variable {bs : Base64} {p : WheelProgress} {entry : EntryDigest} {row : WheelRow}

theorem fine_finding {code : PackageFindingCode} {detail : String}
    (hcode : Invalidating (integrityFinding entry.name code detail)) :
    ¬ Fine (p.finding entry code detail) :=
  fun h => h.1 _ (by simp [WheelProgress.finding]) hcode

theorem fine_size : Fine (verifyWheelSize entry row p) ↔ Fine p ∧ parseU64 row.size = some entry.size := by
  unfold verifyWheelSize
  cases hs : parseU64 row.size with
  | none => simpa using fine_finding (.inr (.inl rfl))
  | some size =>
    simp only [Option.some.injEq]
    by_cases he : size = entry.size
    · simp [he]
    · rw [if_neg he]
      simpa [he] using fine_finding (.inl rfl)

/-- The first equals sign divides a digest. -/
theorem findIdx_equals {hash : List Byte} {i : ℕ} (h : hash.findIdx? (· == chr '=') = some i)
    (algorithm encoded : List Byte) : hash = algorithm ++ chr '=' :: encoded ∧ chr '=' ∉ algorithm ↔
      algorithm = hash.take i ∧ encoded = hash.drop (i + 1) := by
  obtain ⟨hlt, hp, hclear⟩ := List.findIdx?_eq_some_iff_getElem.mp h
  have hfree : chr '=' ∉ hash.take i := by
    intro hm
    obtain ⟨j, hj, he⟩ := List.getElem_of_mem hm
    rw [List.length_take] at hj
    rw [List.getElem_take] at he
    exact hclear j (by omega) (by simpa using he)
  have hsplit : hash = hash.take i ++ chr '=' :: hash.drop (i + 1) := by
    rw [← show hash[i] = chr '=' by simpa using hp, ← List.drop_eq_getElem_cons hlt,
      List.take_append_drop]
  constructor
  · rintro ⟨he, hno⟩
    have hi : i = algorithm.length := by
      have hfind : hash.findIdx? (· == chr '=') = some algorithm.length := by
        rw [he, List.findIdx?_append, List.findIdx?_eq_none_iff.mpr]
        · simp [List.findIdx?_cons]
        · intro x hx
          rw [beq_eq_false_iff_ne]
          exact fun hxe => hno (hxe ▸ hx)
      exact Option.some.inj (h.symm.trans hfind)
    subst hi
    constructor
    · rw [he, List.take_left]
    · rw [he, ← List.drop_drop, List.drop_left]
      rfl
  · rintro ⟨rfl, rfl⟩
    exact ⟨hsplit, hfree⟩

theorem fine_hash : Fine (verifyWheelHash bs entry row p) ↔ Fine p ∧ ∃ algorithm encoded expected,
    row.hash = algorithm ++ chr '=' :: encoded ∧ chr '=' ∉ algorithm ∧
    expectedDigest algorithm entry = some expected ∧ bs.decode encoded = .ok expected := by
  unfold verifyWheelHash
  cases hi : row.hash.findIdx? (· == chr '=') with
  | none =>
    refine iff_of_false (fine_finding (.inr (.inl rfl))) ?_
    rintro ⟨-, algorithm, encoded, expected, he, -⟩
    rw [List.findIdx?_eq_none_iff] at hi
    have := hi (chr '=') (by rw [he]; simp)
    simp at this
  | some i =>
    have hex : (∃ algorithm encoded expected, row.hash = algorithm ++ chr '=' :: encoded ∧
        chr '=' ∉ algorithm ∧ expectedDigest algorithm entry = some expected ∧
        bs.decode encoded = .ok expected) ↔
        ∃ expected, expectedDigest (row.hash.take i) entry = some expected ∧
          bs.decode (row.hash.drop (i + 1)) = .ok expected := by
      constructor
      · rintro ⟨algorithm, encoded, expected, h1, h2, h3⟩
        obtain ⟨rfl, rfl⟩ := (findIdx_equals hi algorithm encoded).mp ⟨h1, h2⟩
        exact ⟨expected, h3⟩
      · rintro ⟨expected, h3⟩
        obtain ⟨h1, h2⟩ := (findIdx_equals hi _ _).mpr ⟨rfl, rfl⟩
        exact ⟨_, _, expected, h1, h2, h3⟩
    rw [hex]
    simp only
    cases hd : expectedDigest (row.hash.take i) entry with
    | none =>
      refine iff_of_false (fun h => ?_) (by simp)
      cases h.2
    | some expected =>
      cases hb : bs.decode (row.hash.drop (i + 1)) with
      | error e =>
        refine iff_of_false (fine_finding (.inr (.inl rfl))) ?_
        rintro ⟨-, expected, -, h⟩
        cases h
      | ok actual =>
        simp only
        by_cases ha : actual = expected
        · subst ha
          rw [if_pos rfl]
          exact ⟨fun h => ⟨h, actual, rfl, rfl⟩, fun h => h.1⟩
        · rw [if_neg ha]
          refine iff_of_false (fine_finding (.inl rfl)) ?_
          rintro ⟨-, x, hx, hy⟩
          exact ha ((Except.ok.inj hy).trans (Option.some.inj hx).symm)

/-- A round in which nothing is found. -/
def Passes (b : Base64) (recordName : List Byte) (rows : Rows) (signaturePaths : List (List Byte))
    (entry : EntryDigest) : Prop :=
  (isDirectory entry.name = true ∨ entry.name ∈ signaturePaths) ∨ ∃ row, rows.get entry.name = some row ∧
    if entry.name = recordName then row.hash = [] ∧ row.size = [] else Matches b row entry

theorem fine_row : Fine (verifyWheelRow bs recordName entry row p) ↔ Fine p ∧
    if entry.name = recordName then row.hash = [] ∧ row.size = [] else Matches bs row entry := by
  unfold verifyWheelRow
  by_cases hn : entry.name = recordName
  · rw [if_pos hn, if_pos hn]
    by_cases he : row.hash ≠ [] ∨ row.size ≠ []
    · rw [if_pos he]
      refine iff_of_false (fine_finding (.inr (.inl rfl))) fun h => ?_
      rcases he with he | he
      · exact he h.2.1
      · exact he h.2.2
    · rw [if_neg he]
      rw [not_or, not_not, not_not] at he
      simp [he]
  · rw [if_neg hn, if_neg hn]
    by_cases he : row.hash = [] ∨ row.size = []
    · rw [if_pos he]
      refine iff_of_false (fine_finding (.inr (.inr (.inl rfl)))) ?_
      rintro ⟨-, hsize, algorithm, encoded, expected, hhash, -⟩
      rcases he with he | he
      · simp [he] at hhash
      · have hnone : parseU64 [] = none := rfl
        rw [he, hnone] at hsize
        cases hsize
    · rw [if_neg he, fine_hash, fine_size, Matches, and_assoc]

theorem fine_entry {rows : Rows} :
    Fine (verifyEntry bs recordName rows signaturePaths p entry) ↔
      Fine p ∧ Passes bs recordName rows signaturePaths entry := by
  unfold verifyEntry Passes
  by_cases hs : isDirectory entry.name = true ∨ entry.name ∈ signaturePaths
  · rw [if_pos hs]
    exact ⟨fun h => ⟨h, .inl hs⟩, fun h => h.1⟩
  · rw [if_neg hs]
    cases hg : rows.get entry.name with
    | none =>
      refine iff_of_false (fine_finding (.inr (.inr (.inl rfl)))) ?_
      rintro ⟨-, h | ⟨row, h, -⟩⟩
      · exact hs h
      · cases h
    | some row =>
      simp only [fine_row, Option.some.injEq, exists_eq_left', hs, false_or]

/-- **The rounds over the entries**: nothing is found if nothing is in any of them. -/
theorem fine_entries {rows : Rows} :
    ∀ (entries : List EntryDigest) {p : WheelProgress},
      Fine (entries.foldl (verifyEntry bs recordName rows signaturePaths) p) ↔
        Fine p ∧ ∀ entry ∈ entries, Passes bs recordName rows signaturePaths entry
  | [], p => by simp
  | entry :: entries, p => by
    rw [List.foldl_cons, fine_entries entries, fine_entry, List.forall_mem_cons, and_assoc]

/-- A verdict of `Verified`: nothing is found in the lines of the `RECORD` nor in a round. -/
theorem verifyWheel_verified {entries : List EntryDigest} {findings : List PackageFinding}
    (h : verifyWheel bs entries = (.verified, findings)) :
    ∃ record body, entries.find? (fun entry => isRecord entry.name) = some record ∧
      record.metadataBody = some body ∧ (parseWheelRows body record.name).findings = [] ∧
      ∀ entry ∈ entries, Passes bs record.name (parseWheelRows body record.name)
        ((entries.filter fun entry => isSignature entry.name).map EntryDigest.name) entry := by
  unfold verifyWheel at h
  cases hrec : entries.find? fun entry => isRecord entry.name with
  | none =>
    rw [hrec] at h
    cases h
  | some record =>
    rw [hrec] at h
    simp only at h
    cases hbody : record.metadataBody with
    | none =>
      rw [hbody] at h
      cases h
    | some body =>
      rw [hbody] at h
      simp only at h
      obtain ⟨hstart, hpasses⟩ := (fine_entries entries).mp (integrityOutcome_verified h)
      refine ⟨record, body, rfl, hbody, List.eq_nil_iff_forall_not_mem.mpr fun finding hf => ?_, hpasses⟩
      have hcode := rowsLoop_codes (body.splitOn LF) (show ∀ x ∈ ({} : Rows).findings, _ from nofun) finding hf
      exact hstart.1 finding hf (.inr (.inl hcode))

/-- **What a row vouches for**: a row of this file with the entry's name matches the entry. -/
def Covered (b : Base64) (body : List Byte) (entry : EntryDigest) : Prop :=
  ∃ row, RowOf body entry.name row ∧ Matches b row entry

/-- The payload beside the `RECORD` at index `i`: no directory, and no signature of that `RECORD`. -/
def Payload (entries : List EntryDigest) (i : ℕ) (record entry : EntryDigest) : Prop :=
  (∃ j, j ≠ i ∧ entries[j]? = some entry) ∧ isDirectory entry.name = false ∧
    entry.name ≠ record.name ++ bstr ".jws" ∧ entry.name ≠ record.name ++ bstr ".p7s"

/-- No signature file is a `RECORD`: their names end in other letters. -/
theorem isSignature_isRecord {name : List Byte} (h : isSignature name = true) : isRecord name = false := by
  have hlast {text : List Byte} (hs : text <:+ name) (hne : text ≠ []) :
      name.getLast? = text.getLast? := by
    obtain ⟨front, rfl⟩ := hs
    exact List.getLast?_append_of_ne_nil front hne
  by_contra hrec
  rw [Bool.not_eq_false] at hrec
  have hD := hlast (List.isSuffixOf_iff_suffix.mp hrec) (by decide)
  rcases Bool.or_eq_true_iff.mp h with hs | hs
  · have hS := hlast (List.isSuffixOf_iff_suffix.mp hs) (by decide)
    exact absurd (hD.symm.trans hS) (by decide)
  · have hS := hlast (List.isSuffixOf_iff_suffix.mp hs) (by decide)
    exact absurd (hD.symm.trans hS) (by decide)

/-- An entry whose round finds nothing is covered unless it has the name of the `RECORD` or of a signature. -/
theorem Passes.covered {body : List Byte} (hclean : (parseWheelRows body recordName).findings = [])
    (hsig : ∀ name ∈ signaturePaths, isSignature name = true) (hrec : isRecord recordName = true)
    (hdir : isDirectory entry.name = false)
    (h : Passes bs recordName (parseWheelRows body recordName) signaturePaths entry) :
    Covered bs body entry ↔
      entry.name ≠ recordName ∧ (isSignature entry.name = true → Covered bs body entry) := by
  by_cases hname : entry.name = recordName
  · -- the row of the `RECORD` has no digest
    refine iff_of_false ?_ fun h => h.1 hname
    rintro ⟨row, hrow, -, algorithm, encoded, expected, hhash, -⟩
    rcases h with (h | h) | ⟨own, hown, hempty⟩
    · rw [hdir] at h
      cases h
    · have hnot := isSignature_isRecord (hsig _ h)
      rw [hname, hrec] at hnot
      cases hnot
    · rw [if_pos hname] at hempty
      obtain rfl := Option.some.inj (((get_iff hclean entry.name row).mpr hrow).symm.trans hown)
      rw [hempty.1] at hhash
      simp at hhash
  · refine ⟨fun hc => ⟨hname, fun _ => hc⟩, fun hcond => ?_⟩
    rcases h with (h | h) | ⟨row, hrow, hmatch⟩
    · rw [hdir] at h
      cases h
    · exact hcond.2 (hsig _ h)
    · rw [if_neg hname] at hmatch
      exact ⟨row, (get_iff hclean entry.name row).mp hrow, hmatch⟩

/-- **A verified wheel** covers its payload if no entry but the `RECORD` has the `RECORD`'s name and the
signatures of other directories have rows that match; and a row that is written as CSV is read back. -/
theorem verified_covers (b : Base64) :
    (∀ (quotes : List Byte → Bool) (row : List (List Byte)),
      (∀ field ∈ row, chr '"' ∈ field ∨ chr ',' ∈ field → quotes field = true) → row ≠ [] →
      csvFields (csvLine quotes row) = .ok row) ∧
    ∀ (entries : List EntryDigest) (findings : List PackageFinding),
      verifyWheel b entries = (.verified, findings) →
      ∃ i record body, entries.findIdx? (fun entry => isRecord entry.name) = some i ∧
        entries[i]? = some record ∧ record.metadataBody = some body ∧
        ((∀ entry, Payload entries i record entry → Covered b body entry) ↔
          ∀ entry, Payload entries i record entry →
            entry.name ≠ record.name ∧ (isSignature entry.name = true → Covered b body entry)) := by
  constructor
  · intro quotes row hq hrow
    exact csvFields_csvLine hq hrow
  · intro entries findings h
    obtain ⟨record, body, hfind, hbody, hclean, hpasses⟩ := verifyWheel_verified h
    have hrec : isRecord record.name = true := by simpa using List.find?_some hfind
    obtain ⟨i, hi⟩ : ∃ i, entries.findIdx? (fun entry => isRecord entry.name) = some i := by
      rw [← Option.isSome_iff_exists, List.findIdx?_isSome, List.any_eq_true]
      exact ⟨record, List.mem_of_find?_eq_some hfind, hrec⟩
    have hat : entries[i]? = some record := by
      rw [← hfind, List.find?_eq_bind_findIdx?_getElem?, hi]
      rfl
    refine ⟨i, record, body, hi, hat, hbody, forall_congr' fun entry => imp_congr_right ?_⟩
    rintro ⟨⟨j, -, hj⟩, hdir, -⟩
    refine Passes.covered hclean (fun name hname => ?_) hrec hdir (hpasses entry (List.mem_of_getElem? hj))
    obtain ⟨other, hother, rfl⟩ := List.mem_map.mp hname
    exact (List.mem_filter.mp hother).2

/-! ### A name twice -/

/-- The decoders on the digest of no bytes. -/
def emptyBase64 : Base64 where
  urlSafeNoPad text :=
    if text = bstr "47DEQpj8HBSa-_TImW-5JCeuQeRkm5NMpJWZG3hSuFU" then .ok [
      0xe3, 0xb0, 0xc4, 0x42, 0x98, 0xfc, 0x1c, 0x14, 0x9a, 0xfb, 0xf4, 0xc8, 0x99, 0x6f, 0xb9, 0x24,
      0x27, 0xae, 0x41, 0xe4, 0x64, 0x9b, 0x93, 0x4c, 0xa4, 0x95, 0x99, 0x1b, 0x78, 0x52, 0xb8, 0x55]
    else .error "invalid"
  urlSafe _ := .error "invalid"

/-- An entry without content. -/
def hollow (name : List Byte) (metadataBody : Option (List Byte)) : EntryDigest where
  name := name
  size := 0
  sha256 := [
    0xe3, 0xb0, 0xc4, 0x42, 0x98, 0xfc, 0x1c, 0x14, 0x9a, 0xfb, 0xf4, 0xc8, 0x99, 0x6f, 0xb9, 0x24, 0x27,
    0xae, 0x41, 0xe4, 0x64, 0x9b, 0x93, 0x4c, 0xa4, 0x95, 0x99, 0x1b, 0x78, 0x52, 0xb8, 0x55]
  sha384 := [
    0x38, 0xb0, 0x60, 0xa7, 0x51, 0xac, 0x96, 0x38, 0x4c, 0xd9, 0x32, 0x7e, 0xb1, 0xb1, 0xe3, 0x6a, 0x21,
    0xfd, 0xb7, 0x11, 0x14, 0xbe, 0x07, 0x43, 0x4c, 0x0c, 0xc7, 0xbf, 0x63, 0xf6, 0xe1, 0xda, 0x27, 0x4e,
    0xde, 0xbf, 0xe7, 0x6f, 0x65, 0xfb, 0xd5, 0x1a, 0xd2, 0xf1, 0x48, 0x98, 0xb9, 0x5b]
  sha512 := [
    0xcf, 0x83, 0xe1, 0x35, 0x7e, 0xef, 0xb8, 0xbd, 0xf1, 0x54, 0x28, 0x50, 0xd6, 0x6d, 0x80, 0x07, 0xd6,
    0x20, 0xe4, 0x05, 0x0b, 0x57, 0x15, 0xdc, 0x83, 0xf4, 0xa9, 0x21, 0xd3, 0x6c, 0xe9, 0xce, 0x47, 0xd0,
    0xd1, 0x3c, 0x5d, 0x85, 0xf2, 0xb0, 0xff, 0x83, 0x18, 0xd2, 0x87, 0x7e, 0xec, 0x2f, 0x63, 0xb9, 0x31,
    0xbd, 0x47, 0x41, 0x7a, 0x81, 0xa5, 0x38, 0x32, 0x7a, 0xf9, 0x27, 0xda, 0x3e]
  metadataBody := metadataBody

/-- The rows of `a.py` and of the `RECORD` itself. -/
def recordBody : List Byte :=
  bstr "a.py,sha256=47DEQpj8HBSa-_TImW-5JCeuQeRkm5NMpJWZG3hSuFU,0\nd.dist-info/RECORD,,\n"

/-- The `RECORD` with these rows. -/
def listed : EntryDigest where
  name := bstr "d.dist-info/RECORD"
  size := 79
  sha256 := [
    0x90, 0xba, 0x99, 0x9e, 0x31, 0x75, 0xd4, 0x25, 0xc6, 0x3a, 0x5f, 0x5e, 0xf5, 0xf2, 0xeb, 0xab, 0xc0,
    0x16, 0xe5, 0x16, 0xfc, 0x63, 0xc6, 0xee, 0xf3, 0xc4, 0x43, 0x73, 0x24, 0x10, 0x14, 0x23]
  sha384 := [
    0x24, 0xb1, 0x2d, 0x7a, 0x91, 0x89, 0xcd, 0xfb, 0x64, 0x2e, 0xc2, 0xfb, 0x75, 0x62, 0x4e, 0xa2, 0x22,
    0x76, 0x02, 0xe6, 0x4a, 0x2a, 0xf8, 0x08, 0xc8, 0x01, 0x05, 0x85, 0x6a, 0x50, 0x19, 0x0e, 0x72, 0xcc,
    0x94, 0xeb, 0xad, 0x17, 0x5b, 0x94, 0x2d, 0x18, 0xf0, 0x41, 0x0f, 0x4a, 0x0c, 0x79]
  sha512 := [
    0x0b, 0xa9, 0xa2, 0xb6, 0x1f, 0xa2, 0x43, 0x77, 0xc3, 0xdb, 0x34, 0x07, 0xcf, 0x99, 0x89, 0x87, 0xaf,
    0x06, 0x8e, 0xaa, 0x9e, 0x31, 0x1f, 0x92, 0x11, 0x3d, 0x6f, 0xc4, 0x14, 0x7a, 0xd2, 0x78, 0xd0, 0x5e,
    0x67, 0x59, 0x77, 0xc4, 0xb7, 0x1e, 0xda, 0x81, 0x84, 0x93, 0x0c, 0x9a, 0x1f, 0xbc, 0x65, 0x4a, 0xe8,
    0xba, 0xb8, 0xf4, 0xef, 0xe2, 0x58, 0x49, 0x1b, 0x5f, 0x2c, 0xc5, 0xdc, 0x78]
  metadataBody := some recordBody

/-- A wheel with the name of its `RECORD` twice, and with a signature file of another directory. -/
def twice : List EntryDigest :=
  [hollow (bstr "a.py") none, listed, hollow (bstr "d.dist-info/RECORD") (some []),
    hollow (bstr "x.dist-info/RECORD.jws") none]

/-- The rows of `listed` in the form that they are read. -/
theorem rows_listed : (parseWheelRows recordBody (bstr "d.dist-info/RECORD")).findings = [] ∧
    (parseWheelRows recordBody (bstr "d.dist-info/RECORD")).get (bstr "d.dist-info/RECORD") =
      some ⟨[], []⟩ ∧
    (parseWheelRows recordBody (bstr "d.dist-info/RECORD")).get (bstr "x.dist-info/RECORD.jws") = none := by
  decide +kernel

/-- **Bytes that no row lists**: the wheel is `Verified`, yet neither its second `RECORD` nor the signature of
the other directory is covered. -/
theorem twice_uncovered : verifyWheel emptyBase64 twice = (.verified, []) ∧
    Payload twice 1 listed (hollow (bstr "d.dist-info/RECORD") (some [])) ∧
    ¬ Covered emptyBase64 recordBody (hollow (bstr "d.dist-info/RECORD") (some [])) ∧
    Payload twice 1 listed (hollow (bstr "x.dist-info/RECORD.jws") none) ∧
    ¬ Covered emptyBase64 recordBody (hollow (bstr "x.dist-info/RECORD.jws") none) := by
  obtain ⟨hclean, hown, hnone⟩ := rows_listed
  refine ⟨by decide +kernel, ⟨⟨2, by decide, rfl⟩, by decide +kernel, by decide +kernel, by decide +kernel⟩,
    ?_, ⟨⟨3, by decide, rfl⟩, by decide +kernel, by decide +kernel, by decide +kernel⟩, ?_⟩
  · rintro ⟨row, hrow, -, algorithm, encoded, expected, hhash, -⟩
    obtain rfl := Option.some.inj (((get_iff hclean _ row).mpr hrow).symm.trans hown)
    simp at hhash
  · rintro ⟨row, hrow, -⟩
    have hget := (get_iff hclean _ row).mpr hrow
    rw [show (hollow (bstr "x.dist-info/RECORD.jws") none).name = bstr "x.dist-info/RECORD.jws" from rfl,
      hnone] at hget
    cases hget

/-- A row with a comma in its path; and a wheel of `a.py` and the `RECORD`. -/
theorem verified_covers_listed :
    csvFields (csvLine (fun field => field = bstr "a,b") [bstr "a,b", [], []]) =
      .ok [bstr "a,b", [], []] ∧
    ∃ i record body, [hollow (bstr "a.py") none, listed].findIdx? (fun entry => isRecord entry.name) = some i ∧
      [hollow (bstr "a.py") none, listed][i]? = some record ∧ record.metadataBody = some body ∧
      ((∀ entry, Payload [hollow (bstr "a.py") none, listed] i record entry →
        Covered emptyBase64 body entry) ↔
        ∀ entry, Payload [hollow (bstr "a.py") none, listed] i record entry →
          entry.name ≠ record.name ∧
            (isSignature entry.name = true → Covered emptyBase64 body entry)) :=
  ⟨(verified_covers emptyBase64).1 _ _ (by decide +kernel) (by decide),
    (verified_covers emptyBase64).2 [hollow (bstr "a.py") none, listed] [] (by decide +kernel)⟩

end LibarchiveOxide.Package.Wheel
