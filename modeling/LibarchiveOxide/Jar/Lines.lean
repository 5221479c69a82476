import LibarchiveOxide.Core.Metadata
import LibarchiveOxide.Lib.Result
import LibarchiveOxide.Lib.Slice

/-! # JAR manifests

A manifest is a file of lines in sections that end with an empty line. A value goes on over the lines
that begin with a space. With each section comes its range in the file, over which signature files
have their digests. -/

namespace LibarchiveOxide.Jar.Manifest

open Core.Failure Core.Metadata

/-- `MAX_MANIFEST_HEADERS`. -/
def MAX_MANIFEST_HEADERS : ℕ := 262144

/-- `MAX_MANIFEST_SECTIONS`. -/
def MAX_MANIFEST_SECTIONS : ℕ := 65536

/-- `MAX_MANIFEST_VALUE_BYTES`. -/
def MAX_MANIFEST_VALUE_BYTES : ℕ := 65535

/-- Header names with their values. -/
abbrev ManifestSection := List (List Byte × List Byte)

/-- A section with the begin and the end of its bytes. -/
structure RawManifestSection where
  attributes : ManifestSection
  raw : ℕ × ℕ
deriving DecidableEq

/-- A carriage return. -/
def CR : Byte := 0x0d

/-- A line feed. -/
def LF : Byte := 0x0a

/-- `is_ascii_alphanumeric`. -/
def isAsciiAlphanumeric (b : Byte) : Bool :=
  (chr '0' ≤ b && b ≤ chr '9') || (chr 'A' ≤ b && b ≤ chr 'Z') || (chr 'a' ≤ b && b ≤ chr 'z')

/-- `u8::to_ascii_uppercase`. -/
def toAsciiUppercase (b : Byte) : Byte := if chr 'a' ≤ b ∧ b ≤ chr 'z' then b - 32 else b

/-- `valid_manifest_header_name`. -/
def validManifestHeaderName (name : List Byte) : Bool :=
  name.head?.any isAsciiAlphanumeric &&
    name.all fun b => isAsciiAlphanumeric b || b == chr '-' || b == chr '_'

/-- A header name in a message; it has been found to be ASCII. -/
def shown (name : List Byte) : String := String.ofList (name.map fun b => Char.ofNat b.toNat)

/-- The position of the first `": "`. -/
def separator : List Byte → Option ℕ
  | a :: b :: rest =>
    if a = chr ':' ∧ b = chr ' ' then some 0 else (separator (b :: rest)).map (· + 1)
  | _ => none

/-- The physical line at the front, without its end, and its length with it. -/
def physicalLine (rest : List Byte) : Option (List Byte × ℕ) :=
  (rest.findIdx? fun b => b == CR || b == LF).map fun lineEnd =>
    (rest.take lineEnd,
      if rest[lineEnd]? = some CR ∧ rest[lineEnd + 1]? = some LF then lineEnd + 2 else lineEnd + 1)

/-- Where the loop stands; `current` is its `section`. -/
structure Scan where
  sections : List RawManifestSection := []
  current : ManifestSection := []
  attributeNames : List (List Byte) := []
  sectionStart : ℕ := 0
  cursor : ℕ := 0
  headerCount : ℕ := 0
deriving DecidableEq

/-- An empty line ends a section. -/
def Scan.endSection (s : Scan) : Except String Scan :=
  if s.current = [] then .error "JAR manifest contains an empty section"
  else if s.current.any fun pair => !validUtf8 pair.2 then
    .error "JAR manifest unfolded header value is not UTF-8"
  else if MAX_MANIFEST_SECTIONS ≤ s.sections.length then
    .error s!"JAR manifest section count exceeds fixed limit {MAX_MANIFEST_SECTIONS}"
  else .ok { s with
    sections := s.sections ++ [⟨s.current, s.sectionStart, s.cursor⟩]
    current := []
    attributeNames := []
    sectionStart := s.cursor }

/-- A line that begins with a space goes on with the last value. -/
def Scan.continueValue (s : Scan) (continuation : List Byte) : Except String Scan :=
  match s.current.getLast? with
  | none => .error "JAR manifest has an orphan continuation line"
  | some (name, value) =>
    if MAX_MANIFEST_VALUE_BYTES < value.length + continuation.length then
      .error s!"JAR manifest unfolded value exceeds fixed limit {MAX_MANIFEST_VALUE_BYTES}"
    else if 0 ∈ continuation then .error "JAR manifest continuation contains NUL"
    else .ok { s with current := s.current.dropLast ++ [(name, value ++ continuation)] }

/-- Another line is a header. -/
def Scan.header (s : Scan) (line : List Byte) : Except String Scan :=
  match separator line with
  | none => .error "JAR manifest header does not use `Name: value` syntax"
  | some at_ =>
    let key := line.take at_
    let value := line.drop (at_ + 2)
    if validManifestHeaderName key = false then .error "JAR manifest contains an invalid header name"
    else if MAX_MANIFEST_VALUE_BYTES < value.length then
      .error s!"JAR manifest value exceeds fixed limit {MAX_MANIFEST_VALUE_BYTES}"
    else if 0 ∈ value then .error "JAR manifest header value contains NUL"
    else if key.map toAsciiUppercase ∈ s.attributeNames then
      .error s!"JAR manifest section repeats header {shown key}"
    else if MAX_MANIFEST_HEADERS < s.headerCount + 1 then
      .error s!"JAR manifest header count exceeds fixed limit {MAX_MANIFEST_HEADERS}"
    else .ok { s with
      current := s.current ++ [(key, value)]
      attributeNames := key.map toAsciiUppercase :: s.attributeNames
      headerCount := s.headerCount + 1 }

/-- A line of so many bytes. -/
def Scan.line (s : Scan) (line : List Byte) (length : ℕ) : Except String Scan :=
  let s := { s with cursor := s.cursor + length }
  match line with
  | [] => s.endSection
  | b :: continuation => if b = chr ' ' then s.continueValue continuation else s.header line

/-- The loop, for at most so many lines. -/
def scanLoop : ℕ → List Byte → Scan → Except String Scan
  | 0, _, s => .ok s
  | lines + 1, rest, s =>
    if rest = [] then .ok s
    else
      match physicalLine rest with
      | none => .error "JAR manifest physical line is not newline-terminated"
      | some (line, length) => s.line line length >>= scanLoop lines (rest.drop length)

/-- `manifest_sections_with_raw`. -/
def manifestSectionsWithRaw (body : List Byte) : Except String (List RawManifestSection) :=
  match scanLoop body.length body {} with
  | .error e => .error e
  | .ok s =>
    if s.current ≠ [] then
      .error "JAR manifest final section is not terminated by an empty line"
    else .ok s.sections

/-- `manifest_sections`. -/
def manifestSections (body : List Byte) : Except String (List ManifestSection) :=
  (manifestSectionsWithRaw body).map fun sections => sections.map RawManifestSection.attributes

end LibarchiveOxide.Jar.Manifest

/-! # The lines of a manifest

A file is its physical lines with their ends. The loop goes over them one by one (`scanLoop_lines`), and
a section is parsed from its own lines as it is parsed in the file (`Follows`). -/

namespace LibarchiveOxide.Jar.Manifest

open Core.Failure Core.Metadata Lib Lib.Slice

/-! ### Physical lines -/

/-- A line and its end. -/
abbrev PhysicalLine := List Byte × List Byte

/-- The bytes of lines. -/
def joined (lines : List PhysicalLine) : List Byte := lines.flatMap fun l => l.1 ++ l.2

/-- A line without line ends, and one of the three ends. -/
def IsLine (l : PhysicalLine) : Prop :=
  CR ∉ l.1 ∧ LF ∉ l.1 ∧ (l.2 = [CR] ∨ l.2 = [LF] ∨ l.2 = [CR, LF])

/-- These bytes do not make another end of the one in front. -/
def Apart (lineEnd rest : List Byte) : Prop := lineEnd = [CR] → rest.head? ≠ some LF

/-- **Lines as the loop finds them.** -/
inductive Lined : List PhysicalLine → Prop
  | nil : Lined []
  | cons {l : PhysicalLine} {lines : List PhysicalLine} (hl : IsLine l)
      (ha : Apart l.2 (joined lines)) (h : Lined lines) : Lined (l :: lines)

theorem joined_cons (l : PhysicalLine) (lines : List PhysicalLine) :
    joined (l :: lines) = l.1 ++ (l.2 ++ joined lines) := by
  simp [joined]

theorem joined_append (a b : List PhysicalLine) : joined (a ++ b) = joined a ++ joined b :=
  List.flatMap_append

theorem IsLine.pos {l : PhysicalLine} (h : IsLine l) : 0 < l.2.length := by
  obtain ⟨-, -, h | h | h⟩ := h
  · rw [h]; decide
  · rw [h]; decide
  · rw [h]; decide

/-- A line at the front is found. -/
theorem physicalLine_append {l : PhysicalLine} (hl : IsLine l) {rest : List Byte} (ha : Apart l.2 rest) :
    physicalLine (l.1 ++ (l.2 ++ rest)) = some (l.1, l.1.length + l.2.length) := by
  obtain ⟨line, lineEnd⟩ := l
  obtain ⟨hcr, hlf, hend⟩ := hl
  simp only at hcr hlf hend ha
  have hclear : ∀ b ∈ line, (b == CR || b == LF) = false := by
    intro b hb
    rw [Bool.or_eq_false_iff, beq_eq_false_iff_ne, beq_eq_false_iff_ne]
    exact ⟨fun h => hcr (h ▸ hb), fun h => hlf (h ▸ hb)⟩
  obtain ⟨b, more, hlineEnd, hb⟩ : ∃ b more, lineEnd = b :: more ∧ (b == CR || b == LF) = true := by
    rcases hend with h | h | h
    · exact ⟨CR, [], h, rfl⟩
    · exact ⟨LF, [], h, rfl⟩
    · exact ⟨CR, [LF], h, rfl⟩
  have hfind : (line ++ (lineEnd ++ rest)).findIdx? (fun b => b == CR || b == LF) = some line.length := by
    rw [List.findIdx?_append, List.findIdx?_eq_none_iff.mpr hclear, hlineEnd]
    simp [List.findIdx?_cons, hb]
  unfold physicalLine
  rw [hfind, Option.map_some, List.take_left]
  have h0 : (line ++ (lineEnd ++ rest))[line.length]? = (lineEnd ++ rest)[0]? := by
    rw [List.getElem?_append_right le_rfl, Nat.sub_self]
  have h1 : (line ++ (lineEnd ++ rest))[line.length + 1]? = (lineEnd ++ rest)[1]? := by
    rw [List.getElem?_append_right (by omega), Nat.add_sub_cancel_left]
  rw [h0, h1]
  have hne : LF ≠ CR := by decide
  rcases hend with rfl | rfl | rfl
  · have hnot := ha rfl
    rw [List.head?_eq_getElem?] at hnot
    simp [hnot]
  · simp [hne]
  · simp

/-- A line that is found is at the front. -/
theorem physicalLine_some {body line : List Byte} {length : ℕ} (h : physicalLine body = some (line, length)) :
    ∃ lineEnd, IsLine (line, lineEnd) ∧ body = line ++ (lineEnd ++ body.drop length) ∧
      Apart lineEnd (body.drop length) ∧ length = line.length + lineEnd.length := by
  obtain ⟨i, hi, hl⟩ := Option.map_eq_some_iff.mp h
  obtain ⟨hline, hlength⟩ := Prod.mk.inj hl
  obtain ⟨hlt, hp, hclear⟩ := List.findIdx?_eq_some_iff_getElem.mp hi
  have hlen : line.length = i := by rw [← hline, List.length_take, min_eq_left (Nat.le_of_lt hlt)]
  have hfree : ∀ b ∈ line, (b == CR || b == LF) = false := by
    intro b hb
    rw [← hline] at hb
    obtain ⟨j, hj, rfl⟩ := List.getElem_of_mem hb
    rw [List.getElem_take]
    rw [List.length_take] at hj
    simpa using hclear j (by omega)
  have hcr : CR ∉ line := fun hm => by simpa using hfree _ hm
  have hlf : LF ∉ line := fun hm => by simpa using hfree _ hm
  have hbody : body = line ++ body.drop i := by rw [← hline, List.take_append_drop]
  have hat : body[i]? = some body[i] := List.getElem?_eq_getElem hlt
  have hdrop : body.drop i = body[i] :: body.drop (i + 1) := List.drop_eq_getElem_cons hlt
  rw [Bool.or_eq_true, beq_iff_eq, beq_iff_eq] at hp
  by_cases htwo : body[i]? = some CR ∧ body[i + 1]? = some LF
  · rw [if_pos htwo] at hlength
    have hcrlf : body.drop i = CR :: LF :: body.drop (i + 2) := by
      rw [hdrop, List.drop_eq_getElem?_toList_append, htwo.2]
      rw [hat] at htwo
      rw [Option.some.inj htwo.1]
      rfl
    refine ⟨[CR, LF], ⟨hcr, hlf, .inr (.inr rfl)⟩, ?_, nofun, ?_⟩
    · rw [← hlength]
      exact hbody.trans (congrArg _ hcrlf)
    · rw [hlen, ← hlength]
      rfl
  · rw [if_neg htwo] at hlength
    refine ⟨[body[i]], ⟨hcr, hlf, ?_⟩, ?_, ?_, ?_⟩
    · rcases hp with hp | hp
      · rw [hp]; exact .inl rfl
      · rw [hp]; exact .inr (.inl rfl)
    · rw [← hlength]
      exact hbody.trans (congrArg _ hdrop)
    · intro hend
      rw [List.head?_eq_getElem?, List.getElem?_drop, ← hlength]
      intro hlf
      exact htwo ⟨by rw [hat, (List.cons.inj hend).1], by simpa using hlf⟩
    · rw [hlen, ← hlength]
      rfl

/-! ### The loop over lines -/

/-- The lines one after the other. -/
def scanLines (lines : List PhysicalLine) (s : Scan) : Except String Scan :=
  lines.foldlM (fun s l => s.line l.1 (l.1.length + l.2.length)) s

theorem scanLoop_lines : ∀ {lines : List PhysicalLine}, Lined lines → ∀ {rounds : ℕ} (s : Scan),
    (joined lines).length ≤ rounds → scanLoop rounds (joined lines) s = scanLines lines s
  | [], _, 0, s, _ => rfl
  | [], _, rounds + 1, s, _ => by
    rw [scanLoop, if_pos (show joined [] = [] from rfl)]
    rfl
  | l :: lines, .cons hl ha h, 0, s, hr => by
    have := hl.pos
    simp only [joined_cons, List.length_append] at hr
    omega
  | l :: lines, .cons hl ha h, rounds + 1, s, hr => by
    have hpos := hl.pos
    rw [joined_cons] at hr ⊢
    have hne : l.1 ++ (l.2 ++ joined lines) ≠ [] := by
      intro hnil
      rw [hnil] at hr
      simp only [List.append_eq_nil_iff] at hnil
      rw [hnil.2.1] at hpos
      exact absurd hpos (by decide)
    rw [scanLoop, if_neg hne, physicalLine_append hl ha]
    simp only [scanLines, List.foldlM_cons]
    refine congrArg _ (funext fun s' => ?_)
    have hdrop : (l.1 ++ (l.2 ++ joined lines)).drop (l.1.length + l.2.length) = joined lines := by
      rw [← List.append_assoc]
      exact List.drop_left' List.length_append
    rw [hdrop]
    refine scanLoop_lines h s' ?_
    simp only [List.length_append] at hr
    omega

/-- **A file that the loop gets through** is made of lines. -/
theorem lined_of_scanLoop : ∀ {rounds : ℕ} {body : List Byte} {s s' : Scan}, body.length ≤ rounds →
    scanLoop rounds body s = .ok s' → ∃ lines, Lined lines ∧ joined lines = body
  | 0, body, s, s', hr, _ => ⟨[], .nil, (List.eq_nil_of_length_eq_zero (Nat.le_zero.mp hr)).symm⟩
  | rounds + 1, body, s, s', hr, h => by
    rw [scanLoop] at h
    by_cases hb : body = []
    · exact ⟨[], .nil, hb.symm⟩
    · rw [if_neg hb] at h
      match hp : physicalLine body, h with
      | some (line, length), h =>
        obtain ⟨s₁, -, hrest⟩ := Result.bind_eq_ok.mp h
        obtain ⟨lineEnd, hl, hbody, hapart, hlen⟩ := physicalLine_some hp
        have hpos := hl.pos
        obtain ⟨lines, hlines, hj⟩ := lined_of_scanLoop (by
          rw [List.length_drop]
          simp only at hpos
          omega) hrest
        refine ⟨(line, lineEnd) :: lines, .cons hl (hj ▸ hapart) hlines, ?_⟩
        rw [joined_cons, hj]
        exact hbody.symm

theorem Lined.back : ∀ {a b : List PhysicalLine}, Lined (a ++ b) → Lined b
  | [], _, h => h
  | _ :: _, _, .cons _ _ h => h.back

theorem Lined.front : ∀ {a b : List PhysicalLine}, Lined (a ++ b) → Lined a
  | [], _, _ => .nil
  | l :: a, b, .cons hl ha h => by
    refine .cons hl (fun he => ?_) h.front
    have hne : (joined (a ++ b)).head? ≠ some LF := ha he
    rw [joined_append] at hne
    cases hj : joined a with
    | nil => nofun
    | cons x xs =>
      rw [hj] at hne
      exact hne

/-! ### A section by itself -/

/-- **The loop over the lines of a section** stands where the loop over the file does, but for what came
before the section. -/
structure Follows (s r : Scan) : Prop where
  current : r.current = s.current
  attributeNames : r.attributeNames = s.attributeNames
  sections : r.sections = []
  sectionStart : r.sectionStart = 0
  cursor : s.cursor = s.sectionStart + r.cursor
  headerCount : r.headerCount ≤ s.headerCount

variable {s s' r : Scan} {line : List Byte} {n : ℕ}

theorem header_cases (h : s.header line = .ok s') :
    ∃ key value, s' = { s with
        current := s.current ++ [(key, value)]
        attributeNames := key.map toAsciiUppercase :: s.attributeNames
        headerCount := s.headerCount + 1 } ∧
      ∀ r : Scan, r.attributeNames = s.attributeNames → r.headerCount ≤ s.headerCount →
        r.header line = .ok { r with
          current := r.current ++ [(key, value)]
          attributeNames := key.map toAsciiUppercase :: r.attributeNames
          headerCount := r.headerCount + 1 } := by
  unfold Scan.header at h
  match hsep : separator line, h with
  | some i, h =>
    simp only at h
    split_ifs at h with hkey hlen hnul hrep hcount
    obtain rfl := Except.ok.inj h
    refine ⟨line.take i, line.drop (i + 2), rfl, fun r hnames hle => ?_⟩
    unfold Scan.header
    simp only [hsep]
    rw [if_neg hkey, if_neg hlen, if_neg hnul, if_neg (by rw [hnames]; exact hrep), if_neg (by omega)]

theorem continueValue_cases (h : s.continueValue line = .ok s') :
    ∃ current, s' = { s with current := current } ∧ current ≠ [] ∧
      ∀ r : Scan, r.current = s.current → r.continueValue line = .ok { r with current := current } := by
  unfold Scan.continueValue at h
  match hlast : s.current.getLast?, h with
  | some (name, value), h =>
    simp only at h
    split_ifs at h with hlen hnul
    refine ⟨_, (Except.ok.inj h).symm, by simp, fun r hr => ?_⟩
    unfold Scan.continueValue
    rw [hr, hlast]
    simp only
    rw [if_neg hlen, if_neg hnul]

theorem endSection_cases (h : s.endSection = .ok s') :
    s' = { s with
      sections := s.sections ++ [⟨s.current, s.sectionStart, s.cursor⟩]
      current := []
      attributeNames := []
      sectionStart := s.cursor } ∧
    ∀ r : Scan, r.current = s.current → r.sections = [] → r.endSection = .ok { r with
      sections := [⟨s.current, r.sectionStart, r.cursor⟩]
      current := []
      attributeNames := []
      sectionStart := r.cursor } := by
  unfold Scan.endSection at h
  split_ifs at h with hnil hutf hcount
  refine ⟨(Except.ok.inj h).symm, fun r hr hs => ?_⟩
  unfold Scan.endSection
  rw [hr, hs, if_neg hnil, if_neg hutf, if_neg (by decide)]
  rfl

/-- What the loop over a section ends with. -/
def alone (section_ : ManifestSection) (length headers : ℕ) : Scan where
  sections := [⟨section_, 0, length⟩]
  sectionStart := length
  cursor := length
  headerCount := headers

/-- The loop over the file when a line of so many bytes has ended a section. -/
def Scan.closed (s : Scan) (n : ℕ) : Scan where
  sections := s.sections ++ [⟨s.current, s.sectionStart, s.cursor + n⟩]
  sectionStart := s.cursor + n
  cursor := s.cursor + n
  headerCount := s.headerCount

/-- **A line** is taken in both, or ends the section in both. -/
theorem Follows.step (hf : Follows s r) (h : s.line line n = .ok s') :
    (∃ r', r.line line n = .ok r' ∧ Follows s' r' ∧ s'.sections = s.sections ∧
      s'.sectionStart = s.sectionStart ∧ s'.current ≠ []) ∨
    r.line line n = .ok (alone s.current (r.cursor + n) r.headerCount) ∧ s' = s.closed n := by
  have hcursor := hf.cursor
  cases line with
  | nil =>
    obtain ⟨rfl, hr⟩ := endSection_cases h
    refine .inr ⟨(hr { r with cursor := r.cursor + n } hf.current hf.sections).trans ?_, rfl⟩
    simp [alone, hf.sectionStart]
  | cons b continuation =>
    simp only [Scan.line] at h ⊢
    by_cases hb : b = chr ' '
    · rw [if_pos hb] at h ⊢
      obtain ⟨current, rfl, hne, hr⟩ := continueValue_cases h
      refine .inl ⟨_, hr _ hf.current, ?_, rfl, rfl, hne⟩
      exact ⟨rfl, hf.attributeNames, hf.sections, hf.sectionStart, by simp only; omega, hf.headerCount⟩
    · rw [if_neg hb] at h ⊢
      obtain ⟨key, value, rfl, hr⟩ := header_cases h
      refine .inl ⟨_, hr _ hf.attributeNames hf.headerCount, ?_, rfl, rfl, by simp⟩
      exact ⟨by simp [hf.current], by simp [hf.attributeNames], hf.sections, hf.sectionStart,
        by simp only; omega, Nat.succ_le_succ hf.headerCount⟩

theorem line_cursor (h : s.line line n = .ok s') : s'.cursor = s.cursor + n := by
  cases line with
  | nil =>
    obtain ⟨rfl, -⟩ := endSection_cases h
    rfl
  | cons b continuation =>
    simp only [Scan.line] at h
    split_ifs at h
    · obtain ⟨current, rfl, -⟩ := continueValue_cases h
      rfl
    · obtain ⟨key, value, rfl, -⟩ := header_cases h
      rfl

theorem scanLines_cursor : ∀ {lines : List PhysicalLine} {s s' : Scan}, scanLines lines s = .ok s' →
    s'.cursor = s.cursor + (joined lines).length
  | [], s, s', h => by
    obtain rfl := Except.ok.inj h
    rfl
  | l :: lines, s, s', h => by
    obtain ⟨s₁, h1, h2⟩ := Result.bind_eq_ok.mp h
    rw [scanLines_cursor h2, line_cursor h1, joined_cons]
    simp only [List.length_append]
    omega

theorem scanLines_append (a b : List PhysicalLine) (s : Scan) :
    scanLines (a ++ b) s = scanLines a s >>= scanLines b :=
  List.foldlM_append

theorem scanLines_singleton (l : PhysicalLine) (s : Scan) :
    scanLines [l] s = s.line l.1 (l.1.length + l.2.length) :=
  bind_pure _

/-! ### Ranges -/

/-- Ranges one behind the other, from here to there. -/
def Tiles : ℕ → List RawManifestSection → ℕ → Prop
  | a, [], b => a = b
  | a, section_ :: sections, b =>
    section_.raw.1 = a ∧ a < section_.raw.2 ∧ Tiles section_.raw.2 sections b

/-- A section that lies at its range in these lines and is parsed from its own. -/
def Lies (lines : List PhysicalLine) (section_ : RawManifestSection) : Prop :=
  ∃ before own behind headers, lines = before ++ own ++ behind ∧
    section_.raw = ((joined before).length, (joined (before ++ own)).length) ∧
    scanLines own {} = .ok (alone section_.attributes (joined own).length headers)

/-- **The sections of a file** tile it, each parsed from its own lines. The lines of the section that is
open have been read as its own. -/
theorem scanLines_sections : ∀ (lines before opened : List PhysicalLine) (s r : Scan) {s' : Scan},
    scanLines opened {} = .ok r → Follows s r →
    s.sectionStart = (joined before).length → (s.current = [] → opened = []) →
    scanLines lines s = .ok s' → s'.current = [] → (∀ l ∈ lines, IsLine l) →
    ∃ sections, s'.sections = s.sections ++ sections ∧
      Tiles (joined before).length sections (joined (before ++ opened ++ lines)).length ∧
      ∀ section_ ∈ sections, Lies (before ++ opened ++ lines) section_
  | [], before, opened, s, r, _, hr, hf, hstart, hopen, h, hend, _ => by
    obtain rfl := Except.ok.inj h
    rw [hopen hend, List.append_nil, List.append_nil]
    exact ⟨[], (List.append_nil _).symm, rfl, nofun⟩
  | l :: lines, before, opened, s, r, _, hr, hf, hstart, hopen, h, hend, hall => by
    obtain ⟨s₁, h1, h2⟩ := Result.bind_eq_ok.mp h
    have hrest : ∀ l ∈ lines, IsLine l := fun l hl => hall l (List.mem_cons_of_mem _ hl)
    have hlines : before ++ opened ++ l :: lines = before ++ (opened ++ [l]) ++ lines := by simp
    have hcursor : r.cursor = (joined opened).length := by
      rw [scanLines_cursor hr]
      exact Nat.zero_add _
    have hown : (joined (opened ++ [l])).length = r.cursor + (l.1.length + l.2.length) := by
      rw [joined_append, joined_cons, hcursor]
      simp [joined]
    rw [hlines]
    rcases hf.step h1 with ⟨r', hr', hf', hsections, hstart', hne⟩ | ⟨hr', rfl⟩
    · have hopened : scanLines (opened ++ [l]) {} = .ok r' := by
        rw [scanLines_append, hr]
        exact (scanLines_singleton l r).trans hr'
      obtain ⟨sections, hs, ht, hlies⟩ := scanLines_sections lines _ _ _ _ hopened hf'
        (hstart'.trans hstart) (fun hc => absurd hc hne) h2 hend hrest
      exact ⟨sections, by rw [hs, hsections], ht, hlies⟩
    · -- the section ends here
      have hclosed : scanLines (opened ++ [l]) {} =
          .ok (alone s.current (joined (opened ++ [l])).length r.headerCount) := by
        rw [scanLines_append, hr, hown]
        exact (scanLines_singleton l r).trans hr'
      have hsCursor : s.cursor + (l.1.length + l.2.length) = (joined (before ++ (opened ++ [l]))).length := by
        rw [joined_append, List.length_append, hown, hf.cursor, hstart]
        omega
      obtain ⟨sections, hs, ht, hlies⟩ := scanLines_sections lines (before ++ (opened ++ [l])) []
        (s.closed (l.1.length + l.2.length)) {} rfl
        ⟨rfl, rfl, rfl, rfl, rfl, Nat.zero_le _⟩ hsCursor (fun _ => rfl) h2 hend hrest
      rw [List.append_nil] at ht hlies
      refine ⟨⟨s.current, s.sectionStart, s.cursor + (l.1.length + l.2.length)⟩ :: sections, ?_, ?_, ?_⟩
      · rw [hs, Scan.closed, List.append_assoc]
        rfl
      · refine ⟨hstart, ?_, ?_⟩
        · have hpos := (hall l List.mem_cons_self).pos
          simp only
          rw [← hstart, hf.cursor]
          omega
        · simp only
          rw [hsCursor]
          exact ht
      · intro section_ hmem
        rcases List.mem_cons.mp hmem with rfl | hmem
        · exact ⟨before, opened ++ [l], lines, r.headerCount, rfl, Prod.ext hstart hsCursor, hclosed⟩
        · exact hlies section_ hmem

theorem Lined.all : ∀ {lines : List PhysicalLine}, Lined lines → ∀ l ∈ lines, IsLine l
  | _ :: _, .cons hl _ _, _, .head _ => hl
  | _ :: _, .cons _ _ h, l, .tail _ hm => h.all l hm

/-- **The ranges tile the file**, and the bytes of each are the manifest of its section. -/
theorem ranges_tile {body : List Byte} {sections : List RawManifestSection}
    (h : manifestSectionsWithRaw body = .ok sections) :
    Tiles 0 sections body.length ∧ ∀ section_ ∈ sections,
      manifestSectionsWithRaw (window body section_.raw.1 section_.raw.2) =
        .ok [⟨section_.attributes, 0, section_.raw.2 - section_.raw.1⟩] := by
  unfold manifestSectionsWithRaw at h
  match hs : scanLoop body.length body {}, h with
  | .ok s, h =>
    simp only at h
    split_ifs at h with hcur
    obtain rfl := Except.ok.inj h
    obtain ⟨lines, hlines, rfl⟩ := lined_of_scanLoop le_rfl hs
    rw [scanLoop_lines hlines _ le_rfl] at hs
    obtain ⟨sections, hsec, ht, hlies⟩ := scanLines_sections lines [] [] _ {} rfl ⟨rfl, rfl, rfl, rfl, rfl, le_rfl⟩ rfl (fun _ => rfl) hs (not_not.mp hcur) hlines.all
    rw [List.nil_append, List.nil_append] at ht hlies
    obtain rfl : s.sections = sections := hsec
    refine ⟨ht, fun section_ hmem => ?_⟩
    obtain ⟨before, own, behind, headers, rfl, hraw, hown⟩ := hlies section_ hmem
    have hwindow : window (joined (before ++ own ++ behind)) section_.raw.1 section_.raw.2 = joined own := by
      rw [hraw, joined_append, joined_append, window_append_left (by rw [List.length_append]),
        window_append_right le_rfl, List.length_append]
      simp [window]
    have hlength : section_.raw.2 - section_.raw.1 = (joined own).length := by
      rw [hraw, joined_append, List.length_append, Nat.add_sub_cancel_left]
    have hlined : Lined own := by
      rw [List.append_assoc] at hlines
      exact hlines.back.front
    unfold manifestSectionsWithRaw
    rw [hwindow, scanLoop_lines hlined _ le_rfl, hown, hlength]
    rfl

end LibarchiveOxide.Jar.Manifest
