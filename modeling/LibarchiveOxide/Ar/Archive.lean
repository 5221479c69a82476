import LibarchiveOxide.Ar.Encoder
import LibarchiveOxide.Ar.Meaning
import LibarchiveOxide.Ar.Writing

/-! # Written members, as they are read

What the decoder makes of the header of a written member depends on its name: it announces the
member, skips it as a table (`Skipped`) or fails (`Refused`). -/

namespace LibarchiveOxide.Ar.Archive

open Core.Failure Core.Budget Core.Metadata Core.Protocol Core.Drive Core.Meaning Ar.Decoder
open Ar.Decoder.ArDecoder Ar.Encoder Ar.HeaderLemmas Ar.Meaning Ar.Writing Lib.Machine Lib.Radix
open Lib.Result

/-- The machine that gives the ar decoder all of its stream. -/
abbrev reader : Reader ArDecoder := whole ArDecoder.step

/-- A decoder in front of a member, with the rest of its stream. -/
structure Ready (d : ArDecoder) (S : List Byte) : Prop where
  limits : d.limits = .unlimited
  state : d.state = .header
  pending : d.pending = []
  thin : d.thin = false
  total : d.total + S.length ≤ u64Max
  entries : d.entries + S.length ≤ u64Max

/-- The metadata of a member as it is read back. -/
def metadataBack (name : List Byte) (size : ℕ) (fields : ArFields) : EntryMetadata where
  kind := .file
  path := .fromBytes name
  size := some (UInt64.ofNat size)
  mode := some fields.mode
  owner := { uid := some fields.uid, gid := some fields.gid }
  times := { modified := fields.mtime }

/-- The decoder that has announced a member. -/
def opened (d : ArDecoder) (size padding : ℕ) : ArDecoder :=
  { d with pending := [], entries := d.entries + 1, state := .data size padding }

section
variable {d : ArDecoder} {S h : List Byte}

theorem reader_ok {s : DecodeStep} {d' : ArDecoder} (hs : d.step S 1 .end = .ok (s, d'))
    (hd : s.event ≠ .done) : reader (d, S) = .next (atoms s.event) (d', S.drop s.consumed) := by
  simp only [reader, whole, hs, if_neg hd]

theorem reader_error {e : ArchiveError} (hs : d.step S 1 .end = .error e) :
    reader (d, S) = .halt .fail := by
  simp only [reader, whole, hs]

theorem Ready.step_member (hd : Ready d (h ++ S)) (hlen : h.length = headerLen) :
    d.step (h ++ S) 1 .end = d.stepMember headerLen h := by
  have hne : h ≠ [] := by
    rintro rfl
    cases hlen
  have hall : (h ++ S).length = headerLen + S.length := by
    rw [List.length_append, hlen]
  have htake : (h ++ S).take headerLen = h := by rw [← hlen, List.take_left]
  have hself : ({ d with pending := [] } : ArDecoder) = d := by rw [← hd.pending]
  rw [step_header hd.state, stepHeader]
  dsimp only
  rw [hd.pending, List.drop_zero, if_neg (by simp [hne]), List.length_nil, Nat.sub_zero, hall,
    Nat.min_eq_left (Nat.le_add_right _ _), htake, List.nil_append, if_neg (by omega), Nat.zero_add]
  exact congrArg (fun d : ArDecoder => d.stepMember headerLen h) hself

theorem Ready.done (hd : Ready d []) : reader (d, []) = .halt .done := by
  have hs : d.step [] 1 .end = .ok (⟨0, 0, .done⟩, { d with state := .done }) := by
    rw [step_header hd.state, stepHeader]
    dsimp only
    rw [hd.pending]
    rfl
  simp only [reader, whole, hs, if_true]

theorem openMember_ok (hl : d.limits = .unlimited) (ht : d.thin = false)
    (he : d.entries + 1 ≤ u64Max) (hp : d.pending = []) (k size padding : ℕ) (name : List Byte)
    (fields : ArFields) : d.openMember k name size padding fields =
      .ok (⟨k, 0, .entry (metadataBack name size fields)⟩, opened d size padding) := by
  have hm : d.metadata name size fields = .ok (metadataBack name size fields) := by
    rw [ArDecoder.metadata, hl, ht]
    rfl
  have hc : d.countEntry = .ok { d with entries := d.entries + 1 } := by
    rw [countEntry, checkedAdd_of_le he, hl]
    simp only [okOr_some, ok_bind]
    rfl
  rw [openMember, hm, hc]
  simp only [ok_bind, ht, opened, hp]
  rfl

/-- **A payload is read to its end.** -/
theorem steps_payload {body pad : List Byte} (hl : d.limits = .unlimited)
    (hs : d.state = .data body.length pad.length)
    (ht : d.total + (body ++ (pad ++ S)).length ≤ u64Max) :
    Steps reader (d, body ++ (pad ++ S)) (body.map .byte ++ [.endEntry])
      ({ d with total := d.total + body.length, state := .header }, S) := by
  have hend : ∀ {d : ArDecoder}, d.state = .data 0 pad.length →
      reader (d, pad ++ S) = .next [.endEntry] ({ d with state := .header }, S) := by
    intro d hs
    have hstep : d.step (pad ++ S) 1 .end = .ok (⟨pad.length, 0, .endEntry⟩, { d with state := .header }) := by
      rw [step_endEntry (.inr hs), stepEndEntry, if_neg (by rw [List.length_append]; omega)]
    rw [reader_ok hstep (by simp), List.drop_left, atoms]
  by_cases hb : body = []
  · subst hb
    exact .single (hend hs)
  · have hpos : 0 < body.length := List.length_pos_iff.mpr hb
    have hmin : min (body ++ (pad ++ S)).length body.length = body.length := by
      rw [List.length_append]
      omega
    have hdata := @step_data_ok _ (body ++ (pad ++ S)) .end _ _ hs hl hpos (by simp [hb]) ht 1
    rw [hmin, List.take_left, Nat.sub_self] at hdata
    have hfirst := reader_ok hdata (by simp)
    rw [List.drop_left, atoms] at hfirst
    exact .head hfirst (.single (hend rfl))

/-! ### Names -/

variable {name : List Byte}

/-- Names that are read as a table. -/
def Skipped (name : List Byte) : Prop := name = bstr "/" ∨ name = bstr "/SYM64"

/-- Names that are read as a reference. -/
def Refused (name : List Byte) : Prop :=
  name = bstr "#1" ∨ (bstr "#1/").isPrefixOf name = true ∨
    ∃ digit rest, name = chr '/' :: digit :: rest ∧ chr '0' ≤ digit ∧ digit ≤ chr '9'

/-- The name is in the header of the member, and the decoder has a meaning of its own for it. -/
def Reserved (name : List Byte) : Prop := inlineName name = false ∧ (Skipped name ∨ Refused name)

theorem stepMember_eq (m : EntryMetadata) (total : ℕ) :
    d.stepMember headerLen (memberHeader m total) =
      (let size := leading 10 10 total
       let rawName := rtrim (field (memberHeader m total) fName) (chr ' ')
       if rawName = bstr "//" ∨ rawName = bstr "/" ∨ rawName = bstr "/SYM64/" then do
         if rawName = bstr "//" ∧ exceeds size d.limits.metadataBytes then
           throw (arError .limit "GNU string table exceeds metadata budget")
         return (⟨headerLen, 0, .needInput⟩, { d with
           stringTable := if rawName = bstr "//" then [] else d.stringTable
           state := .special size (size % 2) (rawName == bstr "//") })
       else if (bstr "#1/").isPrefixOf rawName then do
         let nameLength ← liftError (parseDecimal (rawName.drop 3) >>= usizeOf)
         if size < nameLength then throw (arError .malformed "BSD name is longer than member")
         if exceeds nameLength d.limits.pathBytes then
           throw (arError .limit "BSD pathname exceeds configured limit")
         return (⟨headerLen, 0, .needInput⟩, { d with
           pending := [], state := .bsdName nameLength (size - nameLength) (size % 2) (fieldsBack m) })
       else do
         d.openMember headerLen (← liftError (memberName d.stringTable rawName)) size (size % 2)
           (fieldsBack m)) := by
  have hsize : liftError (parseDecimal (rtrim (field (memberHeader m total) fSize) (chr ' ')) >>=
      usizeOf) = .ok (leading 10 10 total) := by
    rw [size_memberHeader]
    rfl
  rw [stepMember, fieldsOf_memberHeader, ok_bind, hsize, ok_bind]

/-- Slashes are no digits. -/
theorem parseDigits_slash {radix : ℕ} {message : String} : ∀ {bytes : List Byte} {val : ℕ},
    chr '/' ∈ bytes → ∃ e, parseDigits radix message val bytes = .error e
  | [], _, h => by cases h
  | b :: bytes, val, h => by
    rw [parseDigits]
    by_cases hb : chr '0' ≤ b ∧ (b - chr '0').toNat < radix
    · rw [if_pos hb]
      have hne : chr '/' ≠ b := by
        rintro rfl
        exact absurd hb.1 (by decide)
      cases (checkedMul val radix).bind (checkedAdd · (b - chr '0').toNat) with
      | none => exact ⟨_, rfl⟩
      | some v => exact parseDigits_slash ((List.mem_cons.mp h).resolve_left hne)
    · rw [if_neg hb]
      exact ⟨_, rfl⟩

theorem parseDecimal_slash (bytes : List Byte) :
    ∃ e, parseDecimal (bytes ++ [chr '/']) = .error e := by
  rw [parseDecimal, if_neg (by simp)]
  exact parseDigits_slash (List.mem_append_right _ List.mem_cons_self)

theorem append_slash_eq {other : List Byte} :
    name ++ [chr '/'] = other ++ [chr '/'] ↔ name = other := List.append_left_inj _

/-- The names of the tables, in front of their slash. -/
theorem table_iff (hne : name ≠ []) :
    (name ++ [chr '/'] = bstr "//" ∨ name ++ [chr '/'] = bstr "/" ∨
      name ++ [chr '/'] = bstr "/SYM64/") ↔ Skipped name := by
  have h1 : bstr "//" = bstr "/" ++ [chr '/'] := by decide
  have h2 : ¬ name ++ [chr '/'] = bstr "/" := by
    intro h
    have hempty : name ++ [chr '/'] = [] ++ [chr '/'] := h
    exact hne (append_slash_eq.mp hempty)
  have h3 : bstr "/SYM64/" = bstr "/SYM64" ++ [chr '/'] := by decide
  simp only [h1, h2, h3, append_slash_eq, false_or, Skipped]

/-- The names that look like a BSD name, in front of their slash. -/
theorem bsd_iff : (bstr "#1/").isPrefixOf (name ++ [chr '/']) = true ↔
    name = bstr "#1" ∨ (bstr "#1/").isPrefixOf name = true := by
  have hsplit : bstr "#1/" = bstr "#1" ++ [chr '/'] := by decide
  rw [List.isPrefixOf_iff_prefix, List.isPrefixOf_iff_prefix]
  refine ⟨?_, ?_⟩
  · intro h
    rcases List.prefix_concat_iff.mp h with h | h
    · rw [hsplit] at h
      exact .inl (append_slash_eq.mp h.symm)
    · exact .inr h
  · rintro (rfl | h)
    · exact ⟨[], by decide⟩
    · exact h.trans (List.prefix_append _ _)

/-- What looks like the length of a BSD name is none. -/
theorem bsd_length (h : name = bstr "#1" ∨ (bstr "#1/").isPrefixOf name = true) :
    ∃ e, parseDecimal ((name ++ [chr '/']).drop 3) = .error e := by
  rcases h with rfl | h
  · exact ⟨_, rfl⟩
  · obtain ⟨t, rfl⟩ := List.isPrefixOf_iff_prefix.mp h
    exact parseDecimal_slash t

theorem memberName_refused {table : List Byte} {digit : Byte} {rest : List Byte}
    (h : chr '0' ≤ digit ∧ digit ≤ chr '9') :
    ∃ e, memberName table ((chr '/' :: digit :: rest) ++ [chr '/']) = .error e := by
  obtain ⟨e, he⟩ := parseDecimal_slash (digit :: rest)
  refine ⟨e, ?_⟩
  simp only [List.cons_append, memberName, h, and_self, if_true]
  rw [List.cons_append] at he
  rw [he]
  rfl

theorem memberName_plain {table : List Byte} (hne : name ≠ [])
    (h : ¬ ∃ digit rest, name = chr '/' :: digit :: rest ∧ chr '0' ≤ digit ∧ digit ≤ chr '9') :
    memberName table (name ++ [chr '/']) = .ok name := by
  have hstrip : stripSlash (name ++ [chr '/']) = name := by
    rw [stripSlash, List.getLast?_concat, if_pos rfl, List.dropLast_concat]
  match name, hne with
  | [c], _ =>
    have hslash : ¬ (c = chr '/' ∧ chr '0' ≤ chr '/' ∧ chr '/' ≤ chr '9') := by
      rintro ⟨-, h0, -⟩
      exact absurd h0 (by decide)
    rw [List.singleton_append] at hstrip ⊢
    rw [memberName, if_neg hslash, hstrip]
  | c :: digit :: rest, _ =>
    have hdigit : ¬ (c = chr '/' ∧ chr '0' ≤ digit ∧ digit ≤ chr '9') := by
      rintro ⟨rfl, hd⟩
      exact h ⟨digit, rest, rfl, hd⟩
    simp only [List.cons_append] at hstrip ⊢
    rw [memberName, if_neg hdigit, hstrip]

/-! ### The header of a member -/

variable {m : EntryMetadata} {total : ℕ}

/-- The decoder in a table. -/
def inTable (d : ArDecoder) (bytes : List Byte) (size : ℕ) (table : Bool) : ArDecoder :=
  { d with stringTable := bytes, state := .special size (size % 2) table }

theorem Ready.reader_skipped (hd : Ready d (memberHeader m total ++ S))
    (hshort : inlineName m.path.raw = false) (hs : Skipped m.path.raw) :
    ∃ bytes table, reader (d, memberHeader m total ++ S) =
      .next [] (inTable d bytes (leading 10 10 total) table, S) := by
  have hne : m.path.raw ≠ [] := by
    intro h
    rcases hs with h' | h' <;> rw [h] at h' <;> exact absurd h' (by decide)
  have hlen := length_memberHeader m total
  have hlim : ∀ n, exceeds n d.limits.metadataBytes = false := by
    intro n
    rw [hd.limits]
    rfl
  have hstep := hd.step_member hlen
  rw [stepMember_eq, rawName_short total hshort] at hstep
  dsimp only at hstep
  rw [if_pos ((table_iff hne).mpr hs)] at hstep
  simp only [hlim, Bool.false_eq_true, and_false, if_false] at hstep
  refine ⟨if m.path.raw ++ [chr '/'] = bstr "//" then [] else d.stringTable,
    m.path.raw ++ [chr '/'] == bstr "//", ?_⟩
  rw [reader_ok hstep (by simp), ← hlen, List.drop_left]
  rfl

theorem Ready.reader_refused (hd : Ready d (memberHeader m total ++ S)) (hne : m.path.raw ≠ [])
    (hshort : inlineName m.path.raw = false) (hs : ¬ Skipped m.path.raw) (hr : Refused m.path.raw) :
    reader (d, memberHeader m total ++ S) = .halt .fail := by
  have hstep := hd.step_member (length_memberHeader m total)
  rw [stepMember_eq, rawName_short total hshort] at hstep
  dsimp only at hstep
  rw [if_neg (mt (table_iff hne).mp hs)] at hstep
  by_cases hbsd : m.path.raw = bstr "#1" ∨ (bstr "#1/").isPrefixOf m.path.raw = true
  · obtain ⟨e, he⟩ := bsd_length hbsd
    rw [if_pos (bsd_iff.mpr hbsd), he] at hstep
    exact reader_error hstep
  · rw [if_neg (mt bsd_iff.mp hbsd)] at hstep
    rw [not_or] at hbsd
    obtain ⟨digit, rest, hname, hdigit⟩ := (hr.resolve_left hbsd.1).resolve_left hbsd.2
    obtain ⟨e, he⟩ := memberName_refused hdigit
    rw [hname, he] at hstep
    exact reader_error hstep

theorem Ready.reader_short (hd : Ready d (memberHeader m total ++ S)) (hne : m.path.raw ≠ [])
    (hshort : inlineName m.path.raw = false) (hres : ¬ Reserved m.path.raw) :
    reader (d, memberHeader m total ++ S) =
      .next [.entry (metadataBack m.path.raw (leading 10 10 total) (fieldsBack m))]
        (opened d (leading 10 10 total) (leading 10 10 total % 2), S) := by
  have hlen := length_memberHeader m total
  obtain ⟨hs, hr⟩ := not_or.mp (fun h => hres ⟨hshort, h⟩)
  obtain ⟨h1, hr⟩ := not_or.mp hr
  obtain ⟨h2, h3⟩ := not_or.mp hr
  have hent := hd.entries
  rw [List.length_append, hlen] at hent
  have hstep := hd.step_member hlen
  rw [stepMember_eq, rawName_short total hshort] at hstep
  dsimp only at hstep
  rw [if_neg (mt (table_iff hne).mp hs), if_neg (mt bsd_iff.mp (not_or.mpr ⟨h1, h2⟩)),
    memberName_plain hne h3] at hstep
  simp only [liftError, mapError_ok, ok_bind] at hstep
  rw [openMember_ok hd.limits hd.thin (by simp only [headerLen] at hent; omega) hd.pending] at hstep
  rw [reader_ok hstep (by simp), ← hlen, List.drop_left]
  rfl

/-- The decoder in front of a BSD name. -/
def inName (d : ArDecoder) (len size padding : ℕ) (fields : ArFields) : ArDecoder :=
  { d with pending := [], state := .bsdName len size padding fields }

theorem Ready.reader_inline (hd : Ready d (memberHeader m total ++ S))
    (hlong : inlineName m.path.raw = true) :
    reader (d, memberHeader m total ++ S) =
      if leading 10 10 total < leading 10 13 m.path.raw.length then .halt .fail
      else .next [] (inName d (leading 10 13 m.path.raw.length)
        (leading 10 10 total - leading 10 13 m.path.raw.length) (leading 10 10 total % 2)
        (fieldsBack m), S) := by
  have hlen := length_memberHeader m total
  set digits := (radixBytes m.path.raw.length 10).take 13 with hdigits
  have htable : ¬ (bstr "#1/" ++ digits = bstr "//" ∨ bstr "#1/" ++ digits = bstr "/" ∨
      bstr "#1/" ++ digits = bstr "/SYM64/") := by
    have hhead : (bstr "#1/" ++ digits).head? = some (chr '#') := rfl
    rintro (h | h | h)
    · rw [h] at hhead
      exact absurd hhead (by decide)
    · rw [h] at hhead
      exact absurd hhead (by decide)
    · rw [h] at hhead
      exact absurd hhead (by decide)
  have hbsd : (bstr "#1/").isPrefixOf (bstr "#1/" ++ digits) = true :=
    List.isPrefixOf_iff_prefix.mpr (List.prefix_append _ _)
  have hparse : liftError (parseDecimal digits >>= usizeOf) =
      .ok (leading 10 13 m.path.raw.length) := by
    have hlt : leading 10 13 m.path.raw.length < 10 ^ 13 := leading_lt (by decide)
    have hmax : u64Max = 2 ^ 64 - 1 := rfl
    rw [hdigits, parseDecimal_radixBytes (by decide) (by decide), ok_bind, usizeOf,
      if_pos (by omega)]
    rfl
  have hlim : ∀ n, exceeds n d.limits.pathBytes = false := by
    intro n
    rw [hd.limits]
    rfl
  have hstep := hd.step_member hlen
  rw [stepMember_eq, rawName_inline total hlong, ← hdigits] at hstep
  dsimp only at hstep
  have hdrop : (bstr "#1/" ++ digits).drop 3 = digits := rfl
  rw [if_neg htable, if_pos hbsd, hdrop, hparse, ok_bind] at hstep
  split_ifs with hlt
  · rw [if_pos hlt] at hstep
    exact reader_error hstep
  · rw [if_neg hlt] at hstep
    simp only [hlim, Bool.false_eq_true, if_false] at hstep
    rw [reader_ok hstep (by simp), ← hlen, List.drop_left]
    rfl

theorem reader_name {len size padding : ℕ} {fields : ArFields} (hl : d.limits = .unlimited)
    (ht : d.thin = false) (he : d.entries + 1 ≤ u64Max) :
    reader (inName d len size padding fields, S) =
      if S.length < len then .halt .fail
      else .next [.entry (metadataBack (S.take len) size fields)]
        (opened d size padding, S.drop len) := by
  have hstep : (inName d len size padding fields).step S 1 .end = _ := step_bsdName rfl 1
  rw [stepBsdName_eq] at hstep
  split_ifs with hlt
  · rw [if_pos (by omega)] at hstep
    exact reader_error hstep
  · have hopen := openMember_ok (d := { inName d len size padding fields with pending := [] })
      hl ht he rfl len size padding (S.take len) fields
    rw [if_neg (by omega)] at hstep
    rw [reader_ok (hstep.trans hopen) (by simp)]
    rfl

theorem reader_table {bytes : List Byte} {size : ℕ} {table : Bool} {T : List Byte}
    (hlen : T.length = size + size % 2) :
    ∃ tbl, reader (inTable d bytes size table, T ++ S) =
      .next [] ({ d with stringTable := tbl, state := .header }, S) := by
  have hstep : (inTable d bytes size table).step (T ++ S) 1 .end = _ := step_special rfl 1
  rw [stepSpecial_eq, List.length_append, if_neg (by omega), if_neg (by omega)] at hstep
  refine ⟨if table then bytes ++ (T ++ S).take size else bytes, ?_⟩
  rw [reader_ok hstep (by simp), ← hlen, List.drop_left]
  rfl

end

end LibarchiveOxide.Ar.Archive
