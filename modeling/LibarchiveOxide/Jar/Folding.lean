import LibarchiveOxide.Jar.Lines

/-! # Folded manifests

Sections as a writer lays them out: each value is cut anywhere into a first piece, on the line of its
name, and pieces on continuation lines. Every layout is read back as the sections it was made from. -/

namespace LibarchiveOxide.Jar.Manifest

open Core.Failure Core.Metadata Lib Lib.Slice

/-- A header with its value in pieces. -/
structure Header where
  name : List Byte
  first : List Byte
  folded : List (List Byte)

/-- The value. -/
def Header.value (h : Header) : List Byte := h.first ++ h.folded.flatten

/-- Its lines. -/
def Header.lines (h : Header) : List (List Byte) :=
  (h.name ++ chr ':' :: chr ' ' :: h.first) :: h.folded.map (chr ' ' :: ·)

/-- The lines of a section. -/
def sectionLines (headers : List Header) : List (List Byte) := headers.flatMap Header.lines ++ [[]]

/-- The names and values of a section. -/
def unfolded (headers : List Header) : ManifestSection := headers.map fun h => (h.name, h.value)

/-- The three newlines. -/
def newlines : List (List Byte) := [[CR], [LF], [CR, LF]]

/-- The bytes of a manifest. -/
def rendered (newline : List Byte) (sections : List (List Header)) : List Byte :=
  (sections.flatMap sectionLines).flatMap (· ++ newline)

/-- A valid name with a text that fits. -/
structure Header.Valid (h : Header) : Prop where
  name : validManifestHeaderName h.name = true
  utf8 : validUtf8 h.value = true
  cr : CR ∉ h.value
  lf : LF ∉ h.value
  nul : 0 ∉ h.value
  length : h.value.length ≤ MAX_MANIFEST_VALUE_BYTES

/-- Headers, at least one, whose names differ in more than their case. -/
structure ValidSection (headers : List Header) : Prop where
  ne_nil : headers ≠ []
  valid : ∀ h ∈ headers, h.Valid
  distinct : (headers.map fun h => h.name.map toAsciiUppercase).Nodup

/-- Sections within the limits. -/
structure Renderable (sections : List (List Header)) : Prop where
  valid : ∀ headers ∈ sections, ValidSection headers
  count : sections.length ≤ MAX_MANIFEST_SECTIONS
  headers : (sections.map List.length).sum ≤ MAX_MANIFEST_HEADERS

/-! ### Lines -/

/-- With the newline behind it. -/
def ended (newline : List Byte) (lines : List (List Byte)) : List PhysicalLine :=
  lines.map fun l => (l, newline)

theorem joined_ended (newline : List Byte) (lines : List (List Byte)) :
    joined (ended newline lines) = lines.flatMap (· ++ newline) := by
  simp [joined, ended, List.flatMap_map]

theorem lined_ended {newline : List Byte} (hn : newline ∈ newlines) : ∀ {lines : List (List Byte)},
    (∀ l ∈ lines, CR ∉ l ∧ LF ∉ l) → Lined (ended newline lines)
  | [], _ => .nil
  | l :: lines, h => by
    have hend : newline = [CR] ∨ newline = [LF] ∨ newline = [CR, LF] := by simpa [newlines] using hn
    obtain ⟨hcr, hlf⟩ := h l List.mem_cons_self
    refine .cons ⟨hcr, hlf, hend⟩ ?_ (lined_ended hn fun l hl => h l (List.mem_cons_of_mem _ hl))
    intro he
    obtain rfl : newline = [CR] := he
    -- the next line begins with a byte of its own, or it is its end that comes next
    match lines, h with
    | [], _ => nofun
    | [] :: _, _ => exact fun hh => absurd (Option.some.inj hh) (by decide)
    | (b :: l') :: _, h =>
      intro hh
      exact (h (b :: l') (by simp)).2 (by rw [← Option.some.inj hh]; exact List.mem_cons_self)

theorem name_clear {name : List Byte} (h : validManifestHeaderName name = true) {b : Byte} (hb : b ∈ name) :
    b ≠ chr ':' ∧ b ≠ chr ' ' ∧ b ≠ CR ∧ b ≠ LF := by
  unfold validManifestHeaderName at h
  rw [Bool.and_eq_true, List.all_eq_true] at h
  have hall := h.2 b hb
  refine ⟨?_, ?_, ?_, ?_⟩
  · rintro rfl
    exact absurd hall (by decide)
  · rintro rfl
    exact absurd hall (by decide)
  · rintro rfl
    exact absurd hall (by decide)
  · rintro rfl
    exact absurd hall (by decide)

theorem Header.Valid.lines_clear {h : Header} (hv : h.Valid) : ∀ l ∈ h.lines, CR ∉ l ∧ LF ∉ l := by
  have hcr := hv.cr
  have hlf := hv.lf
  simp only [Header.value, List.mem_append, not_or, List.mem_flatten, not_exists, not_and] at hcr hlf
  intro l hl
  rcases List.mem_cons.mp hl with rfl | hl
  · constructor
    · rw [List.mem_append]
      rintro (hm | hm)
      · exact (name_clear hv.name hm).2.2.1 rfl
      · rcases hm with _ | ⟨_, _ | ⟨_, hm⟩⟩
        exact hcr.1 hm
    · rw [List.mem_append]
      rintro (hm | hm)
      · exact (name_clear hv.name hm).2.2.2 rfl
      · rcases hm with _ | ⟨_, _ | ⟨_, hm⟩⟩
        exact hlf.1 hm
  · obtain ⟨piece, hp, rfl⟩ := List.mem_map.mp hl
    constructor
    · rintro (_ | ⟨_, hm⟩)
      exact hcr.2 piece hp hm
    · rintro (_ | ⟨_, hm⟩)
      exact hlf.2 piece hp hm

theorem separator_name {first : List Byte} : ∀ {name : List Byte}, (∀ b ∈ name, b ≠ chr ':') →
    separator (name ++ chr ':' :: chr ' ' :: first) = some name.length
  | [], _ => rfl
  | [a], h => by
    have ha := h a List.mem_cons_self
    simp [separator, ha]
  | a :: b :: name, h => by
    have ha := h a List.mem_cons_self
    have ih := @separator_name first (b :: name) fun x hx => h x (List.mem_cons_of_mem a hx)
    simp only [List.cons_append] at ih ⊢
    rw [separator, if_neg fun hc => ha hc.1, ih]
    rfl

/-! ### Values -/

variable (newline : List Byte)

/-- After a line of so many bytes that goes on with the section. -/
def Scan.goesOn (s : Scan) (n : ℕ) (current : ManifestSection) : Scan :=
  { s with cursor := s.cursor + n, current := current }

/-- After a line of so many bytes with a header. -/
def Scan.withHeader (s : Scan) (n : ℕ) (key value : List Byte) : Scan where
  sections := s.sections
  current := s.current ++ [(key, value)]
  attributeNames := key.map toAsciiUppercase :: s.attributeNames
  sectionStart := s.sectionStart
  cursor := s.cursor + n
  headerCount := s.headerCount + 1

/-- Continuation lines go on with the last value. -/
theorem scan_folded : ∀ (folded : List (List Byte)) (s : Scan) {current : ManifestSection}
    {name value : List Byte}, s.current = current ++ [(name, value)] →
    value.length + folded.flatten.length ≤ MAX_MANIFEST_VALUE_BYTES → 0 ∉ folded.flatten →
    ∃ s', scanLines (ended newline (folded.map (chr ' ' :: ·))) s = .ok s' ∧
      s'.sections = s.sections ∧ s'.current = current ++ [(name, value ++ folded.flatten)] ∧
      s'.attributeNames = s.attributeNames ∧ s'.headerCount = s.headerCount
  | [], s, current, name, value, hs, _, _ => ⟨s, rfl, rfl, by simpa using hs, rfl, rfl⟩
  | piece :: folded, s, current, name, value, hs, hlen, hnul => by
    simp only [List.flatten_cons, List.length_append, List.mem_append, not_or] at hlen hnul
    have hstep : s.line (chr ' ' :: piece) ((chr ' ' :: piece).length + newline.length) =
        .ok (s.goesOn ((chr ' ' :: piece).length + newline.length)
          (current ++ [(name, value ++ piece)])) := by
      simp only [Scan.line, if_true, Scan.continueValue, hs, List.getLast?_concat, List.dropLast_concat]
      rw [if_neg (by omega), if_neg hnul.1]
      rfl
    obtain ⟨s', h1, h2, h3, h4, h5⟩ := scan_folded folded (s.goesOn ((chr ' ' :: piece).length + newline.length)
      (current ++ [(name, value ++ piece)])) rfl (by rw [List.length_append]; omega) hnul.2
    refine ⟨s', ?_, h2, ?_, h4, h5⟩
    · exact Result.bind_eq_ok.mpr ⟨_, hstep, h1⟩
    · rw [h3, List.flatten_cons, List.append_assoc]

/-- **A header** is added to the section. -/
theorem scan_header {h : Header} (hv : h.Valid) {s : Scan}
    (hnew : h.name.map toAsciiUppercase ∉ s.attributeNames)
    (hcount : s.headerCount + 1 ≤ MAX_MANIFEST_HEADERS) :
    ∃ s', scanLines (ended newline h.lines) s = .ok s' ∧ s'.sections = s.sections ∧
      s'.current = s.current ++ [(h.name, h.value)] ∧
      s'.attributeNames = h.name.map toAsciiUppercase :: s.attributeNames ∧
      s'.headerCount = s.headerCount + 1 := by
  have hlen := hv.length
  have hnul := hv.nul
  simp only [Header.value, List.length_append, List.mem_append, not_or] at hlen hnul
  have hsep := @separator_name h.first h.name fun b hb => (name_clear hv.name hb).1
  obtain ⟨b, name, hname⟩ : ∃ b name, h.name = b :: name := by
    cases hn : h.name with
    | nil =>
      have := hv.name
      rw [hn] at this
      exact absurd this (by decide)
    | cons b name => exact ⟨b, name, rfl⟩
  have hspace : b ≠ chr ' ' := (name_clear hv.name (hname ▸ List.mem_cons_self)).2.1
  have htake : (h.name ++ chr ':' :: chr ' ' :: h.first).take h.name.length = h.name := List.take_left
  have hdrop : (h.name ++ chr ':' :: chr ' ' :: h.first).drop (h.name.length + 2) = h.first := by
    rw [← List.drop_drop, List.drop_left]
    rfl
  have hstep (n : ℕ) : s.line (h.name ++ chr ':' :: chr ' ' :: h.first) n =
      .ok (s.withHeader n h.name h.first) := by
    have hheader : s.line (h.name ++ chr ':' :: chr ' ' :: h.first) n =
        ({ s with cursor := s.cursor + n } : Scan).header (h.name ++ chr ':' :: chr ' ' :: h.first) := by
      rw [hname, List.cons_append, Scan.line]
      exact if_neg hspace
    rw [hheader, Scan.header, hsep]
    simp only [htake, hdrop, hv.name]
    rw [if_neg (by decide), if_neg (by omega), if_neg hnul.1, if_neg hnew, if_neg (by omega)]
    rfl
  obtain ⟨s', h1, h2, h3, h4, h5⟩ := scan_folded newline h.folded
    (s.withHeader ((h.name ++ chr ':' :: chr ' ' :: h.first).length + newline.length) h.name h.first)
    rfl hlen hnul.2
  refine ⟨s', Result.bind_eq_ok.mpr ⟨_, hstep _, h1⟩, h2, h3, h4, h5⟩

/-- The headers of a section. -/
theorem scan_headers : ∀ (headers : List Header) {s : Scan}, (∀ h ∈ headers, h.Valid) →
    (headers.map fun h => h.name.map toAsciiUppercase).Nodup →
    (∀ h ∈ headers, h.name.map toAsciiUppercase ∉ s.attributeNames) →
    s.headerCount + headers.length ≤ MAX_MANIFEST_HEADERS →
    ∃ s', scanLines (ended newline (headers.flatMap Header.lines)) s = .ok s' ∧
      s'.sections = s.sections ∧ s'.current = s.current ++ unfolded headers ∧
      s'.headerCount = s.headerCount + headers.length
  | [], s, _, _, _, _ => ⟨s, rfl, rfl, (List.append_nil _).symm, rfl⟩
  | h :: headers, s, hv, hd, hnew, hcount => by
    rw [List.map_cons, List.nodup_cons] at hd
    rw [List.length_cons] at hcount ⊢
    obtain ⟨s₁, h1, h2, h3, h4, h5⟩ := scan_header newline (hv h List.mem_cons_self)
      (hnew h List.mem_cons_self) (by omega)
    obtain ⟨s₂, k1, k2, k3, k4⟩ := scan_headers headers
      (fun x hx => hv x (List.mem_cons_of_mem _ hx)) hd.2
      (by
        intro x hx
        rw [h4, List.mem_cons, not_or]
        refine ⟨fun he => hd.1 (List.mem_map.mpr ⟨x, hx, he⟩), hnew x (List.mem_cons_of_mem _ hx)⟩)
      (by omega)
    refine ⟨s₂, ?_, k2.trans h2, ?_, by omega⟩
    · rw [List.flatMap_cons, ended, List.map_append, scanLines_append]
      exact Result.bind_eq_ok.mpr ⟨s₁, h1, k1⟩
    · rw [k3, h3, List.append_assoc]
      rfl

/-- **A section** is added to the file. -/
theorem scan_section {headers : List Header} (hv : ValidSection headers) {s : Scan} (hs : s.current = [])
    (hnames : s.attributeNames = []) (hcount : s.headerCount + headers.length ≤ MAX_MANIFEST_HEADERS)
    (hmax : s.sections.length < MAX_MANIFEST_SECTIONS) :
    ∃ s' raw, scanLines (ended newline (sectionLines headers)) s = .ok s' ∧
      s'.sections = s.sections ++ [⟨unfolded headers, raw⟩] ∧ s'.current = [] ∧ s'.attributeNames = [] ∧
      s'.headerCount = s.headerCount + headers.length := by
  obtain ⟨s₁, h1, h2, h3, h4⟩ := scan_headers newline headers hv.valid hv.distinct
    (by rw [hnames]; exact fun _ _ => List.not_mem_nil) hcount
  rw [hs, List.nil_append] at h3
  have hne : unfolded headers ≠ [] := by simpa [unfolded] using hv.ne_nil
  have hutf : ((unfolded headers).any fun pair => !validUtf8 pair.2) = false := by
    rw [List.any_eq_false]
    intro pair hp
    obtain ⟨h, hh, rfl⟩ := List.mem_map.mp hp
    simp [(hv.valid h hh).utf8]
  have hend (n : ℕ) : s₁.line [] n = .ok (s₁.closed n) := by
    simp only [Scan.line, Scan.endSection, h3]
    rw [if_neg hne, if_neg (by simp [hutf]), if_neg (by rw [h2]; omega), ← h3]
    rfl
  refine ⟨s₁.closed ((([] : List Byte)).length + newline.length), (s₁.sectionStart,
    s₁.cursor + ((([] : List Byte)).length + newline.length)), ?_, ?_, rfl, rfl, h4⟩
  · rw [sectionLines, ended, List.map_append, scanLines_append]
    exact Result.bind_eq_ok.mpr ⟨s₁, h1, (scanLines_singleton _ _).trans (hend _)⟩
  · rw [Scan.closed, h2, h3]

/-- The sections of a file. -/
theorem scan_sections : ∀ (sections : List (List Header)) (s : Scan),
    (∀ headers ∈ sections, ValidSection headers) → s.current = [] → s.attributeNames = [] →
    s.headerCount + (sections.map List.length).sum ≤ MAX_MANIFEST_HEADERS →
    s.sections.length + sections.length ≤ MAX_MANIFEST_SECTIONS →
    ∃ s', scanLines (ended newline (sections.flatMap sectionLines)) s = .ok s' ∧ s'.current = [] ∧
      s'.sections.map RawManifestSection.attributes =
        s.sections.map RawManifestSection.attributes ++ sections.map unfolded
  | [], s, _, hs, _, _, _ => ⟨s, rfl, hs, (List.append_nil _).symm⟩
  | headers :: sections, s, hv, hs, hnames, hcount, hmax => by
    simp only [List.map_cons, List.sum_cons, List.length_cons] at hcount hmax
    obtain ⟨s₁, raw, h1, h2, h3, h4, h5⟩ := scan_section newline (hv headers List.mem_cons_self) hs hnames
      (by omega) (by omega)
    obtain ⟨s₂, k1, k2, k3⟩ := scan_sections sections s₁ (fun x hx => hv x (List.mem_cons_of_mem _ hx)) h3 h4
      (by omega) (by rw [h2, List.length_append, List.length_singleton]; omega)
    refine ⟨s₂, ?_, k2, ?_⟩
    · rw [List.flatMap_cons, ended, List.map_append, scanLines_append]
      exact Result.bind_eq_ok.mpr ⟨s₁, h1, k1⟩
    · rw [k3, h2]
      simp

theorem sections_clear {sections : List (List Header)} (h : ∀ headers ∈ sections, ValidSection headers) :
    ∀ l ∈ sections.flatMap sectionLines, CR ∉ l ∧ LF ∉ l := by
  intro l hl
  obtain ⟨headers, hs, hl⟩ := List.mem_flatMap.mp hl
  rcases List.mem_append.mp hl with hl | hl
  · obtain ⟨x, hx, hl⟩ := List.mem_flatMap.mp hl
    exact ((h headers hs).valid x hx).lines_clear l hl
  · rw [List.mem_singleton.mp hl]
    exact ⟨List.not_mem_nil, List.not_mem_nil⟩

/-- **Manifests are read back**, however their values are folded, and the ranges of every manifest that is
accepted tile it into the manifests of its sections. -/
theorem manifest_sections_exact :
    (∀ newline ∈ newlines, ∀ sections, Renderable sections →
      (manifestSectionsWithRaw (rendered newline sections)).map
        (fun found => found.map RawManifestSection.attributes) = .ok (sections.map unfolded)) ∧
    ∀ body sections, manifestSectionsWithRaw body = .ok sections → Tiles 0 sections body.length ∧
      ∀ section_ ∈ sections, manifestSectionsWithRaw (window body section_.raw.1 section_.raw.2) =
        .ok [⟨section_.attributes, 0, section_.raw.2 - section_.raw.1⟩] := by
  refine ⟨fun newline hn sections h => ?_, fun body sections h => ranges_tile h⟩
  have hlined := lined_ended hn (sections_clear h.valid)
  have hheaders := h.headers
  have hcount := h.count
  obtain ⟨s, h1, h2, h3⟩ := scan_sections newline sections {} h.valid rfl rfl
    (by simpa using hheaders) (by simpa using hcount)
  have hbody : rendered newline sections = joined (ended newline (sections.flatMap sectionLines)) :=
    (joined_ended _ _).symm
  unfold manifestSectionsWithRaw
  rw [hbody, scanLoop_lines hlined _ le_rfl, h1]
  simp only [h2, ne_eq, not_true_eq_false, if_false]
  exact congrArg _ h3

/-- A section of two headers, the second one cut inside a character. -/
def accented : List Header := [⟨bstr "A", bstr "1", []⟩, ⟨bstr "B", [0xc3], [[0xa9]]⟩]

/-- It is read back from lines that end with CR LF, and the file is its only range. -/
theorem manifest_sections_exact_accented :
    (manifestSectionsWithRaw (rendered [CR, LF] [accented])).map
        (fun found => found.map RawManifestSection.attributes) =
      .ok [[(bstr "A", bstr "1"), (bstr "B", [0xc3, 0xa9])]] ∧
    Tiles 0 [⟨[(bstr "A", bstr "1"), (bstr "B", [0xc3, 0xa9])], 0, 18⟩]
      (rendered [CR, LF] [accented]).length := by
  have hvalid : ValidSection accented := by
    refine ⟨by decide, ?_, by decide⟩
    simp only [accented, List.mem_cons, List.not_mem_nil, or_false, forall_eq_or_imp, forall_eq]
    exact ⟨⟨by decide, by decide, by decide, by decide, by decide, by decide⟩,
      ⟨by decide, by decide, by decide, by decide, by decide, by decide⟩⟩
  refine ⟨manifest_sections_exact.1 [CR, LF] (by decide) [accented]
    ⟨by simpa using hvalid, by decide, by decide⟩, ?_⟩
  exact (manifest_sections_exact.2 (rendered [CR, LF] [accented]) _ (by decide +kernel)).1

end LibarchiveOxide.Jar.Manifest
