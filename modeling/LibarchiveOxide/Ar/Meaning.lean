import LibarchiveOxide.Ar.Discipline
import LibarchiveOxide.Core.Meaning

/-! # The ar decoder does not depend on the chunking

A step on a part of the stream agrees with the step on all of it (`agrees_step`): it takes the part
in, or it has all it needs. -/

namespace LibarchiveOxide.Ar.Meaning

open Core.Failure Core.Budget Core.Metadata Core.Protocol Core.Drive Core.Meaning Lib.Slice
open Lib.Result Ar.Decoder Ar.Decoder.ArDecoder Ar.Discipline

/-- A decoder in a run before `Done`, with the rest of its stream. -/
structure Running (d : ArDecoder) (S : List Byte) : Prop where
  limits : d.limits = .unlimited
  pending : Pending d
  total : d.total + S.length ≤ u64Max
  state : d.state ≠ .done

section
variable {d : ArDecoder} {input rest : List Byte} {eoi : EndOfInput}

theorem starved_more (k : ℕ) (what : String) :
    d.starved .more k what = .ok (⟨k, 0, .needInput⟩, d) := if_neg (by decide)

variable {outputLen : ℕ}

/-- At the end of input the part is the whole. -/
theorem agrees_end : Agrees step d (input ++ []) (d.step input outputLen .end) := by
  rw [List.append_nil]
  exact .same rfl

/-! ### Headers -/

theorem openMember_shifted (k c : ℕ) (name : List Byte) (size padding : ℕ) (fields : ArFields) :
    d.openMember (c + k) name size padding fields =
      shifted k (d.openMember c name size padding fields) := by
  simp only [openMember, shifted_bind]
  rfl

/-- A member is opened alike in every state. -/
theorem openMember_state (s : ArDecoderState) (c : ℕ) (name : List Byte) (size padding : ℕ)
    (fields : ArFields) : ({ d with state := s } : ArDecoder).openMember c name size padding fields =
      d.openMember c name size padding fields := by
  unfold openMember countEntry
  cases checkedAdd d.entries 1 with
  | none => rfl
  | some n =>
    simp only [okOr_some, ok_bind]
    split_ifs
    · rfl
    · rfl

theorem stepMember_shifted (k c : ℕ) (header : List Byte) :
    d.stepMember (c + k) header = shifted k (d.stepMember c header) := by
  simp only [stepMember, shifted_bind, shifted_ite, openMember_shifted]
  rfl

theorem starved_shifted (k c : ℕ) (what : String) :
    d.starved eoi (c + k) what = shifted k (d.starved eoi c what) := by
  unfold starved
  rw [shifted_ite]
  rfl

theorem stepHeader_shifted (k : ℕ) :
    d.stepHeader input eoi k = shifted k (d.stepHeader (input.drop k) eoi 0) := by
  unfold stepHeader
  simp only [List.drop_zero, Nat.zero_add, shifted_ite, Nat.add_comm k, stepMember_shifted,
    starved_shifted, shifted_ok]

/-- Too little input for a header is taken in. -/
theorem stepHeader_absorbed (hlen : d.pending.length + input.length < headerLen) :
    d.stepHeader (input ++ rest) .end 0 =
      shifted input.length
        (({ d with pending := d.pending ++ input } : ArDecoder).stepHeader rest .end 0) := by
  have hfill := fill_append (p := d.pending) (l := input) (n := headerLen) (by omega) rest
  have hcount : min (headerLen - d.pending.length) (input ++ rest).length =
      min (headerLen - (d.pending ++ input).length) rest.length + input.length := by
    rw [List.length_append, List.length_append]
    omega
  have hempty : (d.pending.isEmpty = true ∧ (input ++ rest).isEmpty = true ∧ True) ↔
      ((d.pending ++ input).isEmpty = true ∧ rest.isEmpty = true ∧ True) := by
    simp only [List.isEmpty_iff, List.append_eq_nil_iff, and_assoc]
  unfold stepHeader
  simp only [List.drop_zero, Nat.zero_add, take_min_length, hfill]
  rw [hcount]
  by_cases hdone : (d.pending ++ input).isEmpty = true ∧ rest.isEmpty = true ∧ True
  · rw [if_pos (hempty.mpr hdone), if_pos hdone]
    have hnil : d.pending = [] ∧ input = [] := by simpa using hdone.1
    rw [hnil.1, hnil.2]
    rfl
  · rw [if_neg (hdone ∘ hempty.mp), if_neg hdone, shifted_ite, starved_shifted, stepMember_shifted]

/-- Enough input for a header decides the step. -/
theorem stepHeader_same (hlen : headerLen ≤ d.pending.length + input.length)
    (hpos : d.pending.length < headerLen) :
    d.stepHeader (input ++ rest) .end 0 = d.stepHeader input eoi 0 := by
  have hne : input ≠ [] := by
    rintro rfl
    rw [List.length_nil] at hlen
    omega
  have htake : (input ++ rest).take (headerLen - d.pending.length) =
      input.take (headerLen - d.pending.length) := List.take_append_of_le_length (by omega)
  have hfull : ¬ (d.pending ++ input.take (headerLen - d.pending.length)).length < headerLen := by
    rw [List.length_append, List.length_take]
    omega
  unfold stepHeader
  simp only [List.drop_zero, Nat.zero_add, take_min_length, htake]
  rw [if_neg (by simp [hne]), if_neg hfull, if_neg (by simp [hne]), if_neg hfull]
  congr 1
  rw [List.length_append]
  omega

/-- The step at a header on a part of the stream and on all of it. -/
theorem stepHeader_agrees (hpos : d.pending.length < headerLen) (hend : eoi = .end → rest = []) :
    d.stepHeader (input ++ rest) .end 0 = d.stepHeader input eoi 0 ∨
      (d.stepHeader input eoi 0 =
          .ok (⟨input.length, 0, .needInput⟩, { d with pending := d.pending ++ input }) ∧
        d.stepHeader (input ++ rest) .end 0 = shifted input.length
          (({ d with pending := d.pending ++ input } : ArDecoder).stepHeader rest .end 0)) := by
  by_cases hlen : headerLen ≤ d.pending.length + input.length
  · exact .inl (stepHeader_same hlen hpos)
  cases eoi with
  | «end» =>
    rw [hend rfl, List.append_nil]
    exact .inl rfl
  | more =>
    refine .inr ⟨?_, stepHeader_absorbed (by omega)⟩
    have htake : input.take (headerLen - d.pending.length) = input :=
      List.take_of_length_le (by omega)
    unfold stepHeader
    simp only [List.drop_zero, Nat.zero_add, take_min_length, htake]
    rw [if_neg (by simp), if_pos (by rw [List.length_append]; omega), starved_more]
    congr 3
    omega

theorem step_header (hs : d.state = .header) (n : ℕ) :
    d.step input n eoi = d.stepHeader input eoi 0 := by
  rw [step, hs]

theorem step_magic (hs : d.state = .magic) (n : ℕ) : d.step input n eoi = d.stepMagic input eoi := by
  rw [step, hs]

theorem agrees_header (hs : d.state = .header) (hp : Pending d) (hend : eoi = .end → rest = []) :
    Agrees step d (input ++ rest) (d.step input outputLen eoi) := by
  have hpos : d.pending.length < headerLen := by
    rw [Pending, hs] at hp
    exact hp
  rw [step_header hs]
  rcases @stepHeader_agrees _ input _ _ hpos hend with h | ⟨h, h'⟩
  · exact .same ((step_header hs 1).trans h)
  · rw [h]
    refine .absorbed ?_
    rw [step_header hs, h', List.drop_left]
    exact congrArg _ (step_header (d := { d with pending := d.pending ++ input }) hs 1).symm

theorem agrees_magic (hs : d.state = .magic) (hp : Pending d) (hend : eoi = .end → rest = []) :
    Agrees step d (input ++ rest) (d.step input outputLen eoi) := by
  have hpos : d.pending.length < magic.length := by
    rw [Pending, hs] at hp
    exact hp
  by_cases hlen : d.pending.length + input.length < magic.length
  · cases eoi with
    | «end» =>
      rw [hend rfl]
      exact agrees_end
    | more =>
      -- too little input for the magic is taken in
      have hfill := fill_append (p := d.pending) (l := input) (n := magic.length) (by omega) rest
      have hcount : min (magic.length - d.pending.length) (input ++ rest).length =
          min (magic.length - (d.pending ++ input).length) rest.length + input.length := by
        rw [List.length_append, List.length_append]
        omega
      have htake : input.take (magic.length - d.pending.length) = input :=
        List.take_of_length_le (by omega)
      have hpart : d.step input outputLen .more =
          .ok (⟨input.length, 0, .needInput⟩, { d with pending := d.pending ++ input }) := by
        rw [step_magic hs, stepMagic]
        simp only [take_min_length, htake]
        rw [if_pos (by rw [List.length_append]; omega), starved_more]
        congr 3
        omega
      rw [hpart]
      refine .absorbed ?_
      have hwhole := @step_magic { d with pending := d.pending ++ input } rest .end hs 1
      rw [step_magic hs, List.drop_left, hwhole, stepMagic, stepMagic]
      simp only [take_min_length, hfill]
      rw [hcount, shifted_ite, shifted_ite, starved_shifted, shifted_error, stepHeader_shifted,
        @stepHeader_shifted _ rest, shifted_shifted]
      congr 4
      rw [Nat.add_comm, List.drop_length_add_append]
  · -- the magic is complete; the rest is the step at a header
    have hle : magic.length - d.pending.length ≤ input.length := by omega
    have htake : (input ++ rest).take (magic.length - d.pending.length) =
        input.take (magic.length - d.pending.length) := List.take_append_of_le_length hle
    have hfull : ¬ (d.pending ++ input.take (magic.length - d.pending.length)).length <
        magic.length := by
      rw [List.length_append, List.length_take]
      omega
    have hcount : ∀ l : List Byte, magic.length - d.pending.length ≤ l.length →
        min (magic.length - d.pending.length) l.length = magic.length - d.pending.length := by
      intro l hl
      omega
    rw [step_magic hs, stepMagic]
    simp only [take_min_length]
    rw [hcount input hle, if_neg hfull]
    split_ifs with hbad
    · refine .same ?_
      rw [step_magic hs, stepMagic]
      simp only [take_min_length, htake]
      rw [if_neg hfull, if_pos hbad]
    · have hwhole : d.step (input ++ rest) 1 .end =
          ({ d with
            thin := d.pending ++ input.take (magic.length - d.pending.length) == thinMagic
            pending := [], state := .header } : ArDecoder).stepHeader (input ++ rest) .end
              (magic.length - d.pending.length) := by
        rw [step_magic hs, stepMagic]
        simp only [take_min_length, htake]
        rw [if_neg hfull, if_neg hbad, hcount _ (by rw [List.length_append]; omega)]
      generalize (d.pending ++ input.take (magic.length - d.pending.length) == thinMagic) = thin
        at hwhole ⊢
      generalize hd0 : ({ d with thin, pending := [], state := .header } : ArDecoder) = d0 at hwhole ⊢
      rw [stepHeader_shifted, List.drop_append_of_le_length hle] at hwhole
      rw [stepHeader_shifted]
      have hs0 : d0.state = .header ∧ d0.pending = [] := by
        rw [← hd0]
        exact ⟨rfl, rfl⟩
      rcases @stepHeader_agrees d0 (input.drop (magic.length - d.pending.length)) _ _
        (by rw [hs0.2]; decide) hend with h | ⟨h, h'⟩
      · refine .same ?_
        rw [hwhole, h]
      · rw [h]
        refine .absorbed ?_
        have hlen : (input.drop (magic.length - d.pending.length)).length +
            (magic.length - d.pending.length) = input.length := by
          rw [List.length_drop]
          omega
        have hrest := @step_header { d0 with
          pending := d0.pending ++ input.drop (magic.length - d.pending.length) } rest .end hs0.1
          1
        rw [hwhole, h', shifted_shifted]
        simp only [hlen, List.drop_left, hrest]

/-! ### Members -/

variable {padding remaining : ℕ}

theorem step_endEntry (hs : d.state = .endEntry padding ∨ d.state = .data 0 padding) (n : ℕ) :
    d.step input n eoi = d.stepEndEntry input eoi padding := by
  rcases hs with hs | hs
  · rw [step, hs]
  · rw [step, hs]
    exact if_pos rfl

theorem agrees_endEntry (hs : d.state = .endEntry padding ∨ d.state = .data 0 padding)
    (hend : eoi = .end → rest = []) :
    Agrees step d (input ++ rest) (d.step input outputLen eoi) := by
  cases eoi with
  | «end» =>
    rw [hend rfl]
    exact agrees_end
  | more =>
    rw [step_endEntry hs]
    by_cases hlt : input.length < padding
    · rw [stepEndEntry, if_pos hlt, starved_more]
      refine .absorbed ?_
      rw [shifted_zero, List.drop_zero, step_endEntry hs,
        step_endEntry (d := { d with state := .endEntry padding }) (.inl rfl)]
      rfl
    · refine .same ?_
      rw [step_endEntry hs, stepEndEntry, stepEndEntry, if_neg hlt,
        if_neg (by rw [List.length_append]; omega)]

theorem step_data (hs : d.state = .data remaining padding) (n : ℕ) :
    d.step input n eoi = d.stepData input eoi remaining padding := by
  rw [step, hs]

/-- Data within the budgets. -/
theorem step_data_ok (hs : d.state = .data remaining padding) (hl : d.limits = .unlimited)
    (hr : 0 < remaining) (hi : input ≠ []) (ht : d.total + input.length ≤ u64Max) (n : ℕ) :
    d.step input n eoi = .ok (⟨min input.length remaining, 0,
        .data (input.take (min input.length remaining))⟩, { d with
      total := d.total + min input.length remaining
      state := .data (remaining - min input.length remaining) padding }) := by
  rw [step_data hs, stepData, if_neg (by omega), if_neg (by simpa using hi)]
  dsimp only
  rw [checkedAdd_of_le (by omega), hl]
  rfl

theorem agrees_data (h : Running d (input ++ rest)) (hs : d.state = .data remaining padding)
    (hr : 0 < remaining) (hend : eoi = .end → rest = []) :
    Agrees step d (input ++ rest) (d.step input outputLen eoi) := by
  cases eoi with
  | «end» =>
    rw [hend rfl]
    exact agrees_end
  | more =>
    have htotal := h.total
    rw [List.length_append] at htotal
    by_cases hi : input = []
    · rw [step_data hs, stepData, if_neg (by omega), if_pos (by simp [hi]), starved_more]
      refine .absorbed ?_
      rw [shifted_zero, List.drop_zero]
    rw [step_data_ok hs h.limits hr hi (by omega)]
    have hwhole := @step_data_ok _ (input ++ rest) .end _ _ hs h.limits hr (by simp [hi])
      (by rw [List.length_append]; omega) 1
    rw [List.length_append] at hwhole
    by_cases hmore : input.length < remaining ∧ rest ≠ []
    · -- the rest of the stream has more of the same data
      have hk : min input.length remaining = input.length := by omega
      rw [hk]
      have hpart := @step_data_ok { d with
          total := d.total + input.length, state := .data (remaining - input.length) padding }
        rest .end _ _ rfl h.limits (by omega) hmore.2 (by simp only; omega) 1
      have hsum : min (input.length + rest.length) remaining =
          input.length + min rest.length (remaining - input.length) := by omega
      rw [hsum] at hwhole
      have htake : input.take input.length = (input ++ rest).take input.length := by
        rw [List.take_length, List.take_left]
      rw [htake]
      refine .data (r := 0) hwhole ?_
      rw [List.drop_left, hpart]
      simp only [Nat.sub_sub, Nat.add_assoc]
    · have hk : min (input.length + rest.length) remaining = min input.length remaining := by
        by_cases hr' : rest = []
        · rw [hr', List.length_nil, Nat.add_zero]
        · have : ¬ input.length < remaining := fun hlt => hmore ⟨hlt, hr'⟩
          omega
      refine .same ?_
      rw [hwhole, hk, List.take_append_of_le_length (by omega)]

theorem step_special {table : Bool} (hs : d.state = .special remaining padding table) (n : ℕ) :
    d.step input n eoi = d.stepSpecial input eoi remaining padding table := by
  rw [step, hs]

/-- The decoder after some bytes of a special member. -/
def tabled (d : ArDecoder) (bytes : List Byte) (remaining padding : ℕ) (table : Bool) : ArDecoder :=
  { d with
    stringTable := if table then d.stringTable ++ bytes else d.stringTable
    state := .special remaining padding table }

theorem stepSpecial_eq (remaining padding : ℕ) (table : Bool) :
    d.stepSpecial input eoi remaining padding table =
      if remaining - input.length ≠ 0 then
        (tabled d input (remaining - input.length) padding table).starved eoi input.length
          "truncated special member"
      else if input.length - remaining < padding then
        (tabled d (input.take remaining) 0 padding table).starved eoi remaining
          "truncated special-member padding"
      else .ok (⟨remaining + padding, 0, .needInput⟩, { tabled d (input.take remaining) 0 padding table with
        state := .header }) := by
  unfold stepSpecial tabled
  by_cases hle : remaining ≤ input.length
  · have hzero : ¬ (0 ≠ 0) := fun h => h rfl
    simp only [min_eq_left hle, Nat.sub_self, Nat.sub_eq_zero_of_le hle, if_neg hzero]
  · have hlt : input.length ≤ remaining := by omega
    have hne : remaining - input.length ≠ 0 := by omega
    simp only [min_eq_right hlt, List.take_length, if_pos hne]

theorem agrees_special {table : Bool} (hs : d.state = .special remaining padding table)
    (hend : eoi = .end → rest = []) :
    Agrees step d (input ++ rest) (d.step input outputLen eoi) := by
  cases eoi with
  | «end» =>
    rw [hend rfl]
    exact agrees_end
  | more =>
    rw [step_special hs, stepSpecial_eq]
    split_ifs with hleft hpad
    · rw [starved_more]
      refine .absorbed ?_
      rw [List.drop_left, step_special hs,
        step_special (d := tabled d input (remaining - input.length) padding table) rfl,
        stepSpecial_eq, stepSpecial_eq, List.length_append]
      have htab : ∀ (bytes : List Byte) (n : ℕ), tabled (tabled d input (remaining - input.length)
          padding table) bytes n padding table = tabled d (input ++ bytes) n padding table := by
        intro bytes n
        unfold tabled
        cases table <;> simp
      have htake : (input ++ rest).take remaining = input ++ rest.take (remaining - input.length) := by
        rw [List.take_append, List.take_of_length_le (by omega)]
      simp only [htab, htake, shifted_ite, ← starved_shifted, shifted_ok, Nat.sub_sub]
      have h1 : input.length + rest.length - remaining = rest.length - (remaining - input.length) := by
        omega
      have h2 : remaining - input.length + input.length = remaining := by omega
      have h3 : remaining - input.length + padding + input.length = remaining + padding := by omega
      rw [h1, h2, h3, Nat.add_comm rest.length]
    · rw [starved_more]
      refine .absorbed ?_
      have hle : remaining ≤ input.length := by omega
      rw [step_special hs, List.drop_append_of_le_length hle,
        step_special (d := tabled d (input.take remaining) 0 padding table) rfl,
        stepSpecial_eq, stepSpecial_eq, List.length_append, List.length_append, List.length_drop]
      have htab : tabled (tabled d (input.take remaining) 0 padding table) [] 0 padding table =
          tabled d (input.take remaining) 0 padding table := by
        unfold tabled
        cases table <;> simp
      have hnone : ¬ remaining - (input.length + rest.length) ≠ 0 := by omega
      have hnone' : ¬ 0 - (input.length - remaining + rest.length) ≠ 0 := by omega
      rw [if_neg hnone, if_neg hnone', List.take_append_of_le_length hle, List.take_zero, htab,
        shifted_ite, ← starved_shifted, shifted_ok]
      simp only [Nat.zero_add, Nat.sub_zero]
      have h1 : input.length + rest.length - remaining = input.length - remaining + rest.length := by
        omega
      rw [h1, Nat.add_comm padding]
    · refine .same ?_
      have hle : remaining ≤ input.length := by omega
      rw [step_special hs, stepSpecial_eq, List.length_append, if_neg (by omega), if_neg (by omega),
        List.take_append_of_le_length hle]

theorem step_bsdName {bodySize : ℕ} {fields : ArFields}
    (hs : d.state = .bsdName remaining bodySize padding fields) (n : ℕ) :
    d.step input n eoi = d.stepBsdName input eoi remaining bodySize padding fields := by
  rw [step, hs]

/-- The decoder after some bytes of a BSD name. -/
def named (d : ArDecoder) (bytes : List Byte) (remaining bodySize padding : ℕ) (fields : ArFields) :
    ArDecoder :=
  { d with pending := d.pending ++ bytes, state := .bsdName remaining bodySize padding fields }

theorem stepBsdName_eq (remaining bodySize padding : ℕ) (fields : ArFields) :
    d.stepBsdName input eoi remaining bodySize padding fields =
      if remaining - input.length ≠ 0 then
        (named d input (remaining - input.length) bodySize padding fields).starved eoi input.length
          "truncated BSD inline name"
      else ({ d with pending := [] } : ArDecoder).openMember remaining
        (d.pending ++ input.take remaining) bodySize padding fields := by
  unfold stepBsdName named
  by_cases hle : remaining ≤ input.length
  · simp only [min_eq_left hle, Nat.sub_self, Nat.sub_eq_zero_of_le hle]
    rfl
  · have hlt : input.length ≤ remaining := by omega
    have hne : remaining - input.length ≠ 0 := by omega
    simp only [min_eq_right hlt, List.take_length, if_pos hne]

theorem agrees_bsdName {bodySize : ℕ} {fields : ArFields}
    (hs : d.state = .bsdName remaining bodySize padding fields) (hend : eoi = .end → rest = []) :
    Agrees step d (input ++ rest) (d.step input outputLen eoi) := by
  cases eoi with
  | «end» =>
    rw [hend rfl]
    exact agrees_end
  | more =>
    rw [step_bsdName hs, stepBsdName_eq]
    split_ifs with hleft
    · rw [starved_more]
      refine .absorbed ?_
      rw [List.drop_left, step_bsdName hs,
        step_bsdName (d := named d input (remaining - input.length) bodySize padding fields) rfl,
        stepBsdName_eq, stepBsdName_eq, List.length_append, shifted_ite, ← starved_shifted,
        ← openMember_shifted, Nat.sub_sub, Nat.add_comm rest.length]
      have htake : (input ++ rest).take remaining = input ++ rest.take (remaining - input.length) := by
        rw [List.take_append, List.take_of_length_le (by omega)]
      have h1 : remaining - input.length + input.length = remaining := by omega
      rw [htake, h1]
      simp only [named, List.append_assoc]
      congr 1
      exact (openMember_state (d := { d with pending := [] }) _ _ _ _ _ _).symm
    · refine .same ?_
      have hle : remaining ≤ input.length := by omega
      rw [step_bsdName hs, stepBsdName_eq, List.length_append, if_neg (by omega),
        List.take_append_of_le_length hle]

/-- **A step on a part of the stream agrees with the step on all of it.** -/
theorem agrees_step (h : Running d (input ++ rest)) (hend : eoi = .end → rest = []) :
    Agrees step d (input ++ rest) (d.step input outputLen eoi) := by
  cases hs : d.state with
  | magic => exact agrees_magic hs h.pending hend
  | header => exact agrees_header hs h.pending hend
  | special remaining padding table => exact agrees_special hs hend
  | bsdName remaining bodySize padding fields => exact agrees_bsdName hs hend
  | data remaining padding =>
    rcases Nat.eq_zero_or_pos remaining with rfl | hr
    · exact agrees_endEntry (.inr hs) hend
    · exact agrees_data h hs hr hend
  | endEntry padding => exact agrees_endEntry (.inl hs) hend
  | done => exact absurd hs h.state

theorem AtHeader.keeps {d0 : ArDecoder} {k : ℕ} (h : AtHeader d input k d0) :
    d0.limits = d.limits ∧ d0.total = d.total ∧ d0.state = .header := by
  cases h with
  | here hs => exact ⟨rfl, rfl, hs⟩
  | magic => exact ⟨rfl, rfl, rfl⟩

theorem Opened.keeps {d' : ArDecoder} {m : EntryMetadata} {size : ℕ}
    (h : Opened d m size padding d') :
    d'.limits = d.limits ∧ d'.total = d.total ∧ d'.state ≠ .done := by
  rw [h.after]
  refine ⟨rfl, rfl, ?_⟩
  cases d.thin with
  | false => simp
  | true => simp

/-- What a step keeps, and that the account of data grows by what it takes at most. -/
theorem step_keeps {st : DecodeStep} {d' : ArDecoder} (hd : d.state ≠ .done)
    (hs : d.step input outputLen eoi = .ok (st, d')) (hdone : st.event ≠ .done) :
    d'.limits = d.limits ∧ d'.total ≤ d.total + st.consumed ∧ d'.state ≠ .done := by
  cases stepped_of_step hs with
  | finished => exact absurd rfl hdone
  | done => exact absurd rfl hdone
  | data => exact ⟨rfl, le_rfl, by simp⟩
  | dataStarved => exact ⟨rfl, le_rfl, hd⟩
  | endEntry => exact ⟨rfl, Nat.le_add_right _ _, by simp⟩
  | endStarved => exact ⟨rfl, le_rfl, by simp⟩
  | special => exact ⟨rfl, Nat.le_add_right _ _, by simp⟩
  | specialEnd => exact ⟨rfl, Nat.le_add_right _ _, by simp⟩
  | bsdName => exact ⟨rfl, Nat.le_add_right _ _, by simp⟩
  | bsdNameEnd _ _ _ _ _ _ _ ho =>
    obtain ⟨hl, ht, hst⟩ := Opened.keeps ho
    exact ⟨hl, ht.le.trans (Nat.le_add_right _ _), hst⟩
  | magicStarved => exact ⟨rfl, Nat.le_add_right _ _, hd⟩
  | headerStarved k ha =>
    obtain ⟨hl, ht, hst⟩ := AtHeader.keeps ha
    exact ⟨hl, ht.le.trans (Nat.le_add_right _ _), by simp [hst]⟩
  | openSpecial k j size table bytes ha =>
    obtain ⟨hl, ht, -⟩ := AtHeader.keeps ha
    exact ⟨hl, ht.le.trans (Nat.le_add_right _ _), by simp⟩
  | openName k j remaining bodySize padding fields ha =>
    obtain ⟨hl, ht, -⟩ := AtHeader.keeps ha
    exact ⟨hl, ht.le.trans (Nat.le_add_right _ _), by simp⟩
  | openMember k j size m ha _ _ _ ho =>
    obtain ⟨hl, ht, -⟩ := AtHeader.keeps ha
    obtain ⟨hl', ht', hst⟩ := Opened.keeps ho
    exact ⟨hl'.trans hl, (ht'.trans ht).le.trans (Nat.le_add_right _ _), hst⟩

/-- **The ar decoder is faithful** to itself on whole streams. -/
theorem ar_faithful : Faithful ArDecoder.step (whole ArDecoder.step) Running := by
  refine faithful_of_agrees ?_ agrees_step
  intro d input rest outputLen eoi st d' h hs hdone
  have hk := step_consumed_le hs
  obtain ⟨hl, ht, hst⟩ := step_keeps h.state hs hdone
  have htotal := h.total
  refine ⟨hk, hl.trans h.limits, pending_step h.pending hs, ?_, hst⟩
  rw [List.length_append] at htotal
  rw [List.length_drop, List.length_append]
  omega

end

theorem running_new {B : List Byte} (hB : B.length ≤ u64Max) :
    Running (ArDecoder.new .unlimited) B where
  limits := rfl
  pending := by
    show ([] : List Byte).length < magic.length
    decide
  total := by
    show 0 + B.length ≤ u64Max
    omega
  state := by simp [ArDecoder.new]

end LibarchiveOxide.Ar.Meaning
