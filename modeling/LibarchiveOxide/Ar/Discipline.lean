import LibarchiveOxide.Ar.Decoder
import LibarchiveOxide.Core.Drive
import LibarchiveOxide.Core.Grammar
import LibarchiveOxide.Lib.Result

/-! # What a step of the ar decoder can do -/

namespace LibarchiveOxide.Ar.Decoder

open Core.Failure Core.Budget Core.Metadata Core.Protocol Core.Drive Lib.Result

namespace ArDecoder

variable {d d' d0 : ArDecoder} {input : List Byte} {outputLen : ℕ} {eoi : EndOfInput}
  {st : DecodeStep}

/-- A member was announced. -/
structure Opened (d : ArDecoder) (m : EntryMetadata) (size padding : ℕ) (d' : ArDecoder) : Prop where
  size_eq : m.size = some (UInt64.ofNat size)
  size_within : Within size d.limits.entryBytes
  path_within : Within m.path.raw.length d.limits.pathBytes
  thin_marked : d.thin = true → thinExtension ∈ m.extensions
  entries_le : d.entries + 1 ≤ u64Max
  entries_within : Within (d.entries + 1) d.limits.entries
  after : d' = { d with
    entries := d.entries + 1, state := if d.thin then .endEntry 0 else .data size padding }

/-- The decoder after the global magic, of which `k` bytes were in the input, or the decoder itself
if it has read it before. -/
inductive AtHeader (d : ArDecoder) (input : List Byte) : ℕ → ArDecoder → Prop
  | here (hs : d.state = .header) : AtHeader d input 0 d
  | magic (hs : d.state = .magic) (thin : Bool) (k : ℕ) (hk : k ≤ input.length)
      (hlen : magic.length ≤ d.pending.length + k) :
      AtHeader d input k { d with thin, pending := [], state := .header }

/-- The ways a step can succeed. -/
inductive Stepped (d : ArDecoder) (input : List Byte) (eoi : EndOfInput) :
    DecodeStep → ArDecoder → Prop
  | finished (hs : d.state = .done) (hi : input = []) : Stepped d input eoi ⟨0, 0, .done⟩ d
  | data (remaining padding k : ℕ) (hs : d.state = .data remaining padding)
      (hk : k = min input.length remaining) (hpos : 0 < k) (hmax : d.total + k ≤ u64Max)
      (hw : Within (d.total + k) d.limits.decodedTotal) :
      Stepped d input eoi ⟨k, 0, .data (input.take k)⟩ { d with
        total := d.total + k, state := .data (remaining - k) padding }
  | dataStarved (remaining padding : ℕ) (hs : d.state = .data remaining padding) (hi : input = [])
      (he : eoi = .more) : Stepped d input eoi ⟨0, 0, .needInput⟩ d
  | endEntry (padding : ℕ) (hs : d.state = .endEntry padding ∨ d.state = .data 0 padding)
      (hle : padding ≤ input.length) :
      Stepped d input eoi ⟨padding, 0, .endEntry⟩ { d with state := .header }
  | endStarved (padding : ℕ) (hs : d.state = .endEntry padding ∨ d.state = .data 0 padding)
      (hlt : input.length < padding) (he : eoi = .more) :
      Stepped d input eoi ⟨0, 0, .needInput⟩ { d with state := .endEntry padding }
  | special (remaining padding k : ℕ) (table : Bool) (bytes : List Byte)
      (hs : d.state = .special remaining padding table) (hk : k = min remaining input.length)
      (hleft : 0 < remaining - k ∨ input.length - k < padding) (he : eoi = .more) :
      Stepped d input eoi ⟨k, 0, .needInput⟩ { d with
        stringTable := bytes, state := .special (remaining - k) padding table }
  | specialEnd (remaining padding : ℕ) (table : Bool) (bytes : List Byte)
      (hs : d.state = .special remaining padding table) (hle : remaining + padding ≤ input.length) :
      Stepped d input eoi ⟨remaining + padding, 0, .needInput⟩ { d with
        stringTable := bytes, state := .header }
  | bsdName (remaining bodySize padding : ℕ) (fields : ArFields)
      (hs : d.state = .bsdName remaining bodySize padding fields) (hlt : input.length < remaining)
      (he : eoi = .more) :
      Stepped d input eoi ⟨input.length, 0, .needInput⟩ { d with
        pending := d.pending ++ input
        state := .bsdName (remaining - input.length) bodySize padding fields }
  | bsdNameEnd (remaining bodySize padding : ℕ) (fields : ArFields) (m : EntryMetadata)
      {d' : ArDecoder} (hs : d.state = .bsdName remaining bodySize padding fields)
      (hle : remaining ≤ input.length) (ho : Opened { d with pending := [] } m bodySize padding d') :
      Stepped d input eoi ⟨remaining, 0, .entry m⟩ d'
  | magicStarved (hs : d.state = .magic) (hlt : d.pending.length + input.length < magic.length)
      (he : eoi = .more) :
      Stepped d input eoi ⟨input.length, 0, .needInput⟩ { d with pending := d.pending ++ input }
  | done (k : ℕ) {d0 : ArDecoder} (ha : AtHeader d input k d0) (hp : d0.pending = [])
      (hi : input.length = k) (he : eoi = .end) :
      Stepped d input eoi ⟨k, 0, .done⟩ { d0 with state := .done }
  | headerStarved (k : ℕ) {d0 : ArDecoder} (ha : AtHeader d input k d0)
      (hlt : d0.pending.length + (input.length - k) < headerLen) (he : eoi = .more) :
      Stepped d input eoi ⟨input.length, 0, .needInput⟩ { d0 with
        pending := d0.pending ++ input.drop k }
  | openSpecial (k j size : ℕ) (table : Bool) (bytes : List Byte) {d0 : ArDecoder}
      (ha : AtHeader d input k d0) (hj : j = headerLen - d0.pending.length)
      (hle : k + j ≤ input.length) :
      Stepped d input eoi ⟨k + j, 0, .needInput⟩ { d0 with
        pending := [], stringTable := bytes, state := .special size (size % 2) table }
  | openName (k j remaining bodySize padding : ℕ) (fields : ArFields) {d0 : ArDecoder}
      (ha : AtHeader d input k d0) (hj : j = headerLen - d0.pending.length)
      (hle : k + j ≤ input.length) (hmax : bodySize ≤ u64Max) (hpad : padding ≤ 1) :
      Stepped d input eoi ⟨k + j, 0, .needInput⟩ { d0 with
        pending := [], state := .bsdName remaining bodySize padding fields }
  | openMember (k j size : ℕ) (m : EntryMetadata) {d0 d' : ArDecoder} (ha : AtHeader d input k d0)
      (hj : j = headerLen - d0.pending.length) (hle : k + j ≤ input.length) (hmax : size ≤ u64Max)
      (ho : Opened { d0 with pending := [] } m size (size % 2) d') :
      Stepped d input eoi ⟨k + j, 0, .entry m⟩ d'

/-! ### The parts of a step -/

variable {padding : ℕ}

theorem starved_ok {k : ℕ} {what : String} (h : d.starved eoi k what = .ok (st, d')) :
    st = ⟨k, 0, .needInput⟩ ∧ d' = d ∧ eoi = .more := by
  unfold starved at h
  split_ifs at h with he
  cases h
  refine ⟨rfl, rfl, ?_⟩
  cases eoi with
  | more => rfl
  | «end» => exact absurd rfl he

theorem usizeOf_ok {v n : ℕ} (h : usizeOf v = .ok n) : n ≤ u64Max := by
  unfold usizeOf at h
  split_ifs at h with hv
  cases h
  exact hv

theorem opened_of_openMember {k size : ℕ} {name : List Byte} {fields : ArFields}
    (h : d.openMember k name size padding fields = .ok (st, d')) :
    ∃ m, st = ⟨k, 0, .entry m⟩ ∧ Opened d m size padding d' := by
  obtain ⟨m, hm, h⟩ := bind_eq_ok.mp h
  obtain ⟨d1, hc, h⟩ := bind_eq_ok.mp h
  obtain ⟨hpath, hm⟩ := guard_eq_ok.mp hm
  obtain ⟨hsize, hm⟩ := guard_eq_ok.mp hm
  obtain ⟨entries, he, hc⟩ := bind_eq_ok.mp hc
  obtain ⟨hent, hc⟩ := guard_eq_ok.mp hc
  obtain ⟨rfl, hmax⟩ := checkedAdd_eq_some.mp (okOr_eq_ok.mp he)
  cases hm
  cases hc
  cases h
  refine ⟨_, rfl, rfl, within_of_not_exceeds hsize, within_of_not_exceeds hpath, ?_, hmax, within_of_not_exceeds hent, rfl⟩
  intro ht
  simp [ht]

theorem stepped_of_stepEndEntry (hs : d.state = .endEntry padding ∨ d.state = .data 0 padding)
    (h : d.stepEndEntry input eoi padding = .ok (st, d')) : Stepped d input eoi st d' := by
  unfold stepEndEntry at h
  split_ifs at h with hlt
  · obtain ⟨rfl, rfl, he⟩ := starved_ok h
    exact .endStarved padding hs hlt he
  · cases h
    exact .endEntry padding hs (by omega)

theorem stepped_of_stepData {remaining : ℕ} (hs : d.state = .data remaining padding)
    (h : d.stepData input eoi remaining padding = .ok (st, d')) : Stepped d input eoi st d' := by
  unfold stepData at h
  split_ifs at h with h0 hi
  · subst h0
    exact stepped_of_stepEndEntry (.inr hs) h
  · obtain ⟨rfl, rfl, he⟩ := starved_ok h
    exact .dataStarved remaining padding hs (by simpa using hi) he
  · obtain ⟨total, ht, h⟩ := bind_eq_ok.mp h
    obtain ⟨hw, h⟩ := guard_eq_ok.mp h
    obtain ⟨rfl, hmax⟩ := checkedAdd_eq_some.mp (okOr_eq_ok.mp ht)
    cases h
    have hne : input.length ≠ 0 := by
      intro h0
      exact hi (by simp [List.length_eq_zero_iff.mp h0])
    exact .data remaining padding _ hs rfl (by omega) hmax (within_of_not_exceeds hw)

theorem stepped_of_stepSpecial {remaining : ℕ} {table : Bool}
    (hs : d.state = .special remaining padding table)
    (h : d.stepSpecial input eoi remaining padding table = .ok (st, d')) :
    Stepped d input eoi st d' := by
  unfold stepSpecial at h
  dsimp only at h
  generalize (if table = true then d.stringTable ++ input.take (min remaining input.length)
    else d.stringTable) = bytes at h
  split_ifs at h with h0 hlt
  · obtain ⟨rfl, rfl, he⟩ := starved_ok h
    exact .special remaining padding _ table _ hs rfl (.inl (by omega)) he
  · obtain ⟨rfl, rfl, he⟩ := starved_ok h
    exact .special remaining padding _ table _ hs rfl (.inr hlt) he
  · cases h
    have hk : min remaining input.length = remaining := by omega
    rw [hk]
    exact .specialEnd remaining padding table _ hs (by omega)

theorem stepped_of_stepBsdName {remaining bodySize : ℕ} {fields : ArFields}
    (hs : d.state = .bsdName remaining bodySize padding fields)
    (h : d.stepBsdName input eoi remaining bodySize padding fields = .ok (st, d')) :
    Stepped d input eoi st d' := by
  unfold stepBsdName at h
  dsimp only at h
  split_ifs at h with h0
  · obtain ⟨rfl, rfl, he⟩ := starved_ok h
    have hk : min remaining input.length = input.length := by omega
    rw [hk, List.take_length]
    exact .bsdName remaining bodySize padding fields hs (by omega) he
  · obtain ⟨m, rfl, ho⟩ := opened_of_openMember h
    have hk : min remaining input.length = remaining := by omega
    rw [hk]
    exact .bsdNameEnd remaining bodySize padding fields m hs (by omega) ho

theorem stepped_of_stepMember {k j : ℕ} {header : List Byte} (ha : AtHeader d input k d0)
    (hj : j = headerLen - d0.pending.length) (hle : k + j ≤ input.length)
    (h : ({ d0 with pending := [] } : ArDecoder).stepMember (k + j) header = .ok (st, d')) :
    Stepped d input eoi st d' := by
  unfold stepMember at h
  obtain ⟨fields, -, h⟩ := bind_eq_ok.mp h
  obtain ⟨size, hsize, h⟩ := bind_eq_ok.mp h
  obtain ⟨v, -, hsize⟩ := bind_eq_ok.mp (mapError_eq_ok.mp hsize)
  have hmax := usizeOf_ok hsize
  dsimp only at h
  split at h
  · obtain ⟨-, h⟩ := guard_eq_ok.mp h
    cases h
    exact .openSpecial k j size _ _ ha hj hle
  · split at h
    · obtain ⟨n, -, h⟩ := bind_eq_ok.mp h
      obtain ⟨-, h⟩ := guard_eq_ok.mp h
      obtain ⟨-, h⟩ := guard_eq_ok.mp h
      cases h
      exact .openName k j _ _ _ fields ha hj hle (by omega) (by omega)
    · obtain ⟨name, -, h⟩ := bind_eq_ok.mp h
      obtain ⟨m, rfl, ho⟩ := opened_of_openMember h
      exact .openMember k j size m ha hj hle hmax ho

theorem stepped_of_stepHeader {k : ℕ} (ha : AtHeader d input k d0) (hk : k ≤ input.length)
    (h : d0.stepHeader input eoi k = .ok (st, d')) : Stepped d input eoi st d' := by
  unfold stepHeader at h
  dsimp only at h
  have hrest : (input.drop k).length = input.length - k := List.length_drop ..
  split_ifs at h with h1 h2
  · cases h
    obtain ⟨hp, hi, he⟩ := h1
    refine .done k ha (by simpa using hp) ?_ he
    have : (input.drop k).length = 0 := by simp only [List.isEmpty_iff] at hi; simp [hi]
    omega
  · obtain ⟨rfl, rfl, he⟩ := starved_ok h
    rw [List.length_append, List.length_take, hrest] at h2
    have hj : min (headerLen - d0.pending.length) (input.drop k).length = input.length - k := by
      omega
    rw [hj, ← hrest, List.take_length, hrest, Nat.add_sub_of_le hk]
    exact .headerStarved k ha (by omega) he
  · rw [List.length_append, List.length_take, hrest] at h2
    by_cases hlt : headerLen ≤ d0.pending.length
    · have hj : min (headerLen - d0.pending.length) (input.drop k).length = 0 := by omega
      rw [hj] at h
      exact stepped_of_stepMember ha (by omega) (by omega) h
    · have hj : min (headerLen - d0.pending.length) (input.drop k).length =
          headerLen - d0.pending.length := by omega
      rw [hj] at h
      exact stepped_of_stepMember ha rfl (by omega) h

theorem stepped_of_stepMagic (hs : d.state = .magic) (h : d.stepMagic input eoi = .ok (st, d')) :
    Stepped d input eoi st d' := by
  unfold stepMagic at h
  dsimp only at h
  split_ifs at h with h1 h2
  · obtain ⟨rfl, rfl, he⟩ := starved_ok h
    rw [List.length_append, List.length_take] at h1
    have hk : min (magic.length - d.pending.length) input.length = input.length := by omega
    rw [hk, List.take_length]
    exact .magicStarved hs (by omega) he
  · rw [List.length_append, List.length_take] at h1
    exact stepped_of_stepHeader (.magic hs _ _ (by omega) (by omega)) (by omega) h

/-- **Every successful step is one of the listed ways.** -/
theorem stepped_of_step (h : d.step input outputLen eoi = .ok (st, d')) :
    Stepped d input eoi st d' := by
  unfold step at h
  split at h
  · next hs =>
    split_ifs at h with hi
    cases h
    exact .finished hs (by simpa using hi)
  · next hs => exact stepped_of_stepData hs h
  · next hs => exact stepped_of_stepEndEntry (.inl hs) h
  · next hs => exact stepped_of_stepSpecial hs h
  · next hs => exact stepped_of_stepBsdName hs h
  · next hs => exact stepped_of_stepMagic hs h
  · next hs => exact stepped_of_stepHeader (.here hs) (Nat.zero_le _) h

end ArDecoder

end LibarchiveOxide.Ar.Decoder

/-! # The events of the ar decoder, and its progress

Inside a member the bytes reported and those that remain are the declared size; a member of a thin
archive goes straight to its end. -/

namespace LibarchiveOxide.Ar.Discipline

open Core.Failure Core.Budget Core.Metadata Core.Protocol Core.Drive Core.Grammar Ar.Decoder
open Ar.Decoder.ArDecoder

/-- A member ends with the declared size, or it is a thin one without data. -/
def Closes (m : EntryMetadata) (windows : List (List Byte)) : Prop :=
  Exact m windows ∨ (thinExtension ∈ m.extensions ∧ windows = [])

/-- The states between members. -/
def isBetween : ArDecoderState → Bool
  | .magic | .header | .special .. | .bsdName .. => true
  | _ => false

/-- A BSD name announces a payload with a `u64` size. -/
def Sized : ArDecoderState → Prop
  | .bsdName _ bodySize _ _ => bodySize ≤ u64Max
  | _ => True

/-- Inside the member `m`, after some windows: the state accounts for the rest of its size. -/
inductive Reading (limits : Limits) (m : EntryMetadata) (windows : List (List Byte)) :
    ArDecoderState → Prop
  | data (remaining padding : ℕ) (hs : m.size.map UInt64.toNat =
        some (windowBytes windows + remaining))
      (hw : Within (windowBytes windows + remaining) limits.entryBytes) :
      Reading limits m windows (.data remaining padding)
  | end (padding : ℕ) (hc : Closes m windows) : Reading limits m windows (.endEntry padding)

/-- Where the decoder stands, as its events tell. -/
def Stands (limits : Limits) (d : ArDecoder) : Phase → Prop
  | .between => isBetween d.state = true ∧ Sized d.state
  | .inside m windows => Reading limits m windows d.state
  | .finished => True

/-- What holds along a run. -/
structure Disciplined (limits : Limits) (d : ArDecoder) (evs : List DecodeEvent) (p : Phase) :
    Prop where
  limits_eq : d.limits = limits
  ledger : Ledger limits Closes evs p d.total d.entries
  count : entryCount evs = d.entries
  stands : Stands limits d p

section
variable {limits : Limits} {d d' d0 : ArDecoder} {evs : List DecodeEvent} {p : Phase}
  {m : EntryMetadata} {windows : List (List Byte)} {input : List Byte} {k : ℕ}

/-- What the global magic leaves alone. -/
theorem AtHeader.frame (h : AtHeader d input k d0) : isBetween d.state = true ∧
    d0.limits = d.limits ∧ d0.total = d.total ∧ d0.entries = d.entries := by
  cases h with
  | here hs => rw [hs]; exact ⟨rfl, rfl, rfl, rfl⟩
  | magic hs => rw [hs]; exact ⟨rfl, rfl, rfl, rfl⟩

theorem AtHeader.state_eq (h : AtHeader d input k d0) : d0.state = .header := by
  cases h with
  | here hs => exact hs
  | magic => rfl

theorem phase_between (h : Stands limits d p) (hb : isBetween d.state = true)
    (hp : p ≠ .finished) : p = .between := by
  cases p with
  | between => rfl
  | finished => exact absurd rfl hp
  | inside m windows =>
    exfalso
    cases hs : d.state with
    | data => rw [hs] at hb; simp [isBetween] at hb
    | endEntry => rw [hs] at hb; simp [isBetween] at hb
    | _ => have hr : Reading limits m windows d.state := h; rw [hs] at hr; cases hr

/-- A request between members. -/
theorem disciplined_request (h : Disciplined limits d evs p) (hl : evs.getLast? ≠ some .done)
    (hb : isBetween d.state = true) (hlim : d'.limits = d.limits) (ht : d'.total = d.total)
    (he : d'.entries = d.entries) (hs : isBetween d'.state = true ∧ Sized d'.state) :
    ∃ p', Disciplined limits d' (evs ++ [.needInput]) p' := by
  have hnf := h.ledger.trace.not_finished hl
  obtain rfl := phase_between h.stands hb hnf
  refine ⟨.between, hlim.trans h.limits_eq, ?_, ?_, hs⟩
  · rw [ht, he]
    exact h.ledger.request rfl hnf
  · rw [he]
    exact (entryCount_append_of_not rfl).trans h.count

/-- A new member. -/
theorem disciplined_open {size padding : ℕ} (h : Disciplined limits d evs p)
    (hl : evs.getLast? ≠ some .done) (hb : isBetween d.state = true)
    (hlim : d0.limits = d.limits) (ht : d0.total = d.total) (he : d0.entries = d.entries)
    (hmax : size ≤ u64Max) (ho : Opened { d0 with pending := [] } m size padding d') :
    ∃ p', Disciplined limits d' (evs ++ [.entry m]) p' := by
  have hnf := h.ledger.trace.not_finished hl
  obtain rfl := phase_between h.stands hb hnf
  obtain ⟨hsize, hsw, hpath, hthin, hemax, hew, rfl⟩ := ho
  simp only [hlim, h.limits_eq, he] at hsw hpath hemax hew
  have hled := h.ledger.begin (Nat.le_succ _) hemax hew
  have hsz : m.size.map UInt64.toNat = some size := by
    have hm : u64Max = 2 ^ 64 - 1 := rfl
    rw [hsize, Option.map_some, UInt64.toNat_ofNat', Nat.mod_eq_of_lt (by omega)]
  refine ⟨.inside m [], hlim.trans h.limits_eq, ?_, ?_, ?_⟩
  · simp only [ht, he]
    refine hled.entry ?_ hpath
    rw [h.count]
    exact Nat.lt_succ_self _
  · rw [entryCount_append_entry, h.count]
    simp only [he]
  · by_cases hth : d0.thin = true
    · simp only [Stands, hth, if_true]
      exact .end 0 (.inr ⟨hthin hth, rfl⟩)
    · simp only [Stands, hth, Bool.false_eq_true, if_false]
      refine .data size padding ?_ ?_
      · rw [windowBytes_nil, Nat.zero_add]
        exact hsz
      · rw [windowBytes_nil, Nat.zero_add]
        exact hsw

theorem closes_of_end {padding : ℕ} (h : Reading limits m windows d.state)
    (hs : d.state = .endEntry padding ∨ d.state = .data 0 padding) : Closes m windows := by
  rcases hs with hs | hs
  · rw [hs] at h
    cases h with
    | «end» _ hc => exact hc
  · rw [hs] at h
    cases h with
    | data _ _ hsz => exact .inl hsz

/-- **Every step of the decoder keeps the account.** -/
theorem disciplined_step {outputLen : ℕ} {eoi : EndOfInput} {st : DecodeStep}
    (h : Disciplined limits d evs p) (hl : evs.getLast? ≠ some .done)
    (hs : d.step input outputLen eoi = .ok (st, d')) :
    ∃ p', Disciplined limits d' (evs ++ [st.event]) p' := by
  have hnf := h.ledger.trace.not_finished hl
  cases stepped_of_step hs with
  | finished hst =>
    have h1 := h.stands
    cases p with
    | finished => exact absurd rfl hnf
    | between => rw [Stands, hst] at h1; simp [isBetween] at h1
    | inside m windows =>
      have hr : Reading limits m windows d.state := h1
      rw [hst] at hr
      cases hr
  | data remaining padding k hst hk hpos hmax hw =>
    have h1 := h.stands
    cases p with
    | finished => exact absurd rfl hnf
    | between => rw [Stands, hst] at h1; simp [isBetween] at h1
    | inside m windows =>
      have hr : Reading limits m windows d.state := h1
      rw [hst] at hr
      cases hr with
      | data _ _ hsz hwin =>
        have hlen : (input.take k).length = k := by
          rw [List.length_take]
          omega
        have hled := h.ledger.data (b := input.take k) (by rw [hlen]; exact hmax)
          (by rw [hlen, ← h.limits_eq]; exact hw)
          (by rw [hlen]; exact hwin.mono (by omega))
        rw [hlen] at hled
        have hsum : windowBytes (windows ++ [input.take k]) + (remaining - k) =
            windowBytes windows + remaining := by
          rw [windowBytes_append, hlen]
          omega
        refine ⟨.inside m (windows ++ [input.take k]), h.limits_eq, hled,
          (entryCount_append_of_not rfl).trans h.count, .data _ _ ?_ ?_⟩
        · rw [hsum]
          exact hsz
        · rw [hsum]
          exact hwin
  | dataStarved remaining padding hst =>
    exact ⟨p, h.limits_eq, h.ledger.request rfl hnf, (entryCount_append_of_not rfl).trans h.count,
      h.stands⟩
  | endEntry padding hst =>
    have h1 := h.stands
    cases p with
    | finished => exact absurd rfl hnf
    | between => rcases hst with hst | hst <;> (rw [Stands, hst] at h1; simp [isBetween] at h1)
    | inside m windows =>
      exact ⟨.between, h.limits_eq, h.ledger.endEntry (closes_of_end h1 hst),
        (entryCount_append_of_not rfl).trans h.count, rfl, trivial⟩
  | endStarved padding hst =>
    have h1 := h.stands
    cases p with
    | finished => exact absurd rfl hnf
    | between => rcases hst with hst | hst <;> (rw [Stands, hst] at h1; simp [isBetween] at h1)
    | inside m windows =>
      exact ⟨.inside m windows, h.limits_eq, h.ledger.request rfl hnf,
        (entryCount_append_of_not rfl).trans h.count, .end padding (closes_of_end h1 hst)⟩
  | special remaining padding k table bytes hst =>
    exact disciplined_request h hl (by rw [hst]; rfl) rfl rfl rfl ⟨rfl, trivial⟩
  | specialEnd remaining padding table bytes hst =>
    exact disciplined_request h hl (by rw [hst]; rfl) rfl rfl rfl ⟨rfl, trivial⟩
  | bsdName remaining bodySize padding fields hst =>
    have hb : isBetween d.state = true := by rw [hst]; rfl
    obtain rfl := phase_between h.stands hb hnf
    have hsz := h.stands.2
    rw [hst] at hsz
    exact disciplined_request h hl hb rfl rfl rfl ⟨rfl, hsz⟩
  | bsdNameEnd remaining bodySize padding fields m hst _ ho =>
    have hb : isBetween d.state = true := by rw [hst]; rfl
    obtain rfl := phase_between h.stands hb hnf
    have hsz := h.stands.2
    rw [hst] at hsz
    exact disciplined_open h hl hb rfl rfl rfl hsz ho
  | magicStarved hst =>
    have hb : isBetween d.state = true := by rw [hst]; rfl
    refine disciplined_request h hl hb rfl rfl rfl ⟨hb, ?_⟩
    rw [hst]
    trivial
  | done k ha =>
    obtain ⟨hb, hlim, ht, he⟩ := AtHeader.frame ha
    obtain rfl := phase_between h.stands hb hnf
    refine ⟨.finished, hlim.trans h.limits_eq, ?_, ?_, trivial⟩
    · simp only [ht, he]
      exact h.ledger.done
    · simp only [he]
      exact (entryCount_append_of_not rfl).trans h.count
  | headerStarved k ha =>
    obtain ⟨hb, hlim, ht, he⟩ := AtHeader.frame ha
    refine disciplined_request h hl hb hlim ht he ?_
    simp only [AtHeader.state_eq ha]
    exact ⟨rfl, trivial⟩
  | openSpecial k j size table bytes ha =>
    obtain ⟨hb, hlim, ht, he⟩ := AtHeader.frame ha
    exact disciplined_request h hl hb hlim ht he ⟨rfl, trivial⟩
  | openName k j remaining bodySize padding fields ha _ _ hmax =>
    obtain ⟨hb, hlim, ht, he⟩ := AtHeader.frame ha
    exact disciplined_request h hl hb hlim ht he ⟨rfl, hmax⟩
  | openMember k j size m ha _ _ hmax ho =>
    obtain ⟨hb, hlim, ht, he⟩ := AtHeader.frame ha
    exact disciplined_open h hl hb hlim ht he hmax ho

end

/-- The account of a run. -/
theorem ar_disciplined (limits : Limits) {B : List Byte} (c : Cutting B) (n : ℕ) :
    ∃ p, Disciplined limits (run ArDecoder.step (.new limits) c n).decoder
      (run ArDecoder.step (.new limits) c n).events p := by
  refine run_induction (P := fun d evs => ∃ p, Disciplined limits d evs p) ?_ ?_ n
  · exact ⟨.between, rfl, ledger_nil _ _, rfl, rfl, trivial⟩
  · rintro d evs input outputLen eoi st d' ⟨p, h⟩ hl hs
    exact disciplined_step h hl hs

/-! ### Progress -/

/-- How far a state is from the next header. -/
def weight : ArDecoderState → ℕ
  | .special .. => 3
  | .bsdName .. => 3
  | .data .. => 2
  | .endEntry _ => 1
  | _ => 0

/-- What the states keep: a header or a magic is not complete, and a padding has at most one byte. -/
def Pending (d : ArDecoder) : Prop :=
  match d.state with
  | .magic => d.pending.length < magic.length
  | .header => d.pending.length < headerLen
  | .special _ padding _ => d.pending = [] ∧ padding ≤ 1
  | .bsdName _ _ padding _ => padding ≤ 1
  | .data _ padding => d.pending = [] ∧ padding ≤ 1
  | .endEntry padding => d.pending = [] ∧ padding ≤ 1
  | .done => True

section
variable {d d' d0 : ArDecoder} {input : List Byte} {k : ℕ} {m : EntryMetadata}

theorem AtHeader.consumed_le (h : AtHeader d input k d0) : k ≤ input.length := by
  cases h with
  | here => exact Nat.zero_le _
  | magic _ _ _ hk => exact hk

theorem AtHeader.pending_lt (h : AtHeader d input k d0) (hp : Pending d) :
    d0.pending.length < headerLen := by
  cases h with
  | here hs =>
    rw [Pending, hs] at hp
    exact hp
  | magic => simp [headerLen]

theorem pending_opened {size padding : ℕ} (hpad : padding ≤ 1)
    (ho : Opened { d0 with pending := [] } m size padding d') : Pending d' := by
  rw [ho.after]
  by_cases ht : d0.thin = true
  · simp [Pending, ht]
  · simp [Pending, ht, hpad]

theorem weight_opened {size padding : ℕ} (ho : Opened d0 m size padding d') :
    weight d'.state ≤ 2 := by
  rw [ho.after]
  by_cases ht : d0.thin = true
  · simp [weight, ht]
  · simp [weight, ht]

theorem pending_step {outputLen : ℕ} {eoi : EndOfInput} {st : DecodeStep} (hp : Pending d)
    (hs : d.step input outputLen eoi = .ok (st, d')) : Pending d' := by
  cases stepped_of_step hs with
  | finished => exact hp
  | data remaining padding k hst =>
    rw [Pending, hst] at hp
    exact hp
  | dataStarved => exact hp
  | endEntry padding hst =>
    have hpe : d.pending = [] := by
      rcases hst with hst | hst
      · rw [Pending, hst] at hp; exact hp.1
      · rw [Pending, hst] at hp; exact hp.1
    simp [Pending, hpe, headerLen]
  | endStarved padding hst =>
    rcases hst with hst | hst
    · rw [Pending, hst] at hp; exact hp
    · rw [Pending, hst] at hp; exact hp
  | special remaining padding k table bytes hst =>
    rw [Pending, hst] at hp
    exact hp
  | specialEnd remaining padding table bytes hst =>
    rw [Pending, hst] at hp
    simp [Pending, hp.1, headerLen]
  | bsdName remaining bodySize padding fields hst =>
    rw [Pending, hst] at hp
    exact hp
  | bsdNameEnd remaining bodySize padding fields m hst _ ho =>
    rw [Pending, hst] at hp
    exact pending_opened hp ho
  | magicStarved hst hlt =>
    simp only [Pending, hst, List.length_append]
    exact hlt
  | done => trivial
  | headerStarved k ha hlt =>
    simp only [Pending, AtHeader.state_eq ha, List.length_append, List.length_drop]
    exact hlt
  | openSpecial k j size table bytes ha => exact ⟨rfl, by omega⟩
  | openName k j remaining bodySize padding fields ha _ _ _ hpad => exact hpad
  | openMember k j size m ha _ _ _ ho => exact pending_opened (by omega) ho

theorem step_consumed_le {outputLen : ℕ} {eoi : EndOfInput} {st : DecodeStep}
    (hs : d.step input outputLen eoi = .ok (st, d')) : st.consumed ≤ input.length := by
  cases stepped_of_step hs with
  | finished => exact Nat.zero_le _
  | data remaining padding k _ hk => rw [hk]; exact min_le_left _ _
  | dataStarved => exact Nat.zero_le _
  | endEntry padding _ hle => exact hle
  | endStarved => exact Nat.zero_le _
  | special remaining padding k table bytes _ hk => rw [hk]; exact min_le_right _ _
  | specialEnd remaining padding table bytes _ hle => exact hle
  | bsdName => exact le_rfl
  | bsdNameEnd remaining bodySize padding fields m _ hle => exact hle
  | magicStarved => exact le_rfl
  | done k ha => exact AtHeader.consumed_le ha
  | headerStarved => exact le_rfl
  | openSpecial k j size table bytes _ _ hle => exact hle
  | openName k j remaining bodySize padding fields _ _ hle => exact hle
  | openMember k j size m _ _ hle => exact hle

theorem length_pos_of {eoi : EndOfInput} (h : input ≠ [] ∨ eoi = .end) (he : eoi = .more) :
    0 < input.length := by
  rcases h with h | h
  · exact List.length_pos_iff.mpr h
  · rw [he] at h
    cases h

/-- **The ar decoder cannot idle.** -/
theorem ar_progress : Progress ArDecoder.step Pending (fun d => weight d.state) where
  inv := pending_step
  consumed_le := step_consumed_le
  decreases := by
    intro d input outputLen eoi st d' hp _ hin hs
    cases stepped_of_step hs with
    | finished => exact .inl rfl
    | data remaining padding k _ _ hpos => exact .inr (.inl hpos)
    | dataStarved remaining padding _ hi he =>
      have := length_pos_of hin he
      simp [hi] at this
    | endEntry padding hst =>
      refine .inr (.inr ?_)
      rcases hst with hst | hst <;> simp [weight, hst]
    | endStarved padding hst hlt he =>
      have hpad : padding ≤ 1 := by
        rcases hst with hst | hst
        · rw [Pending, hst] at hp; exact hp.2
        · rw [Pending, hst] at hp; exact hp.2
      have := length_pos_of hin he
      omega
    | special remaining padding k table bytes hst hk hleft he =>
      rw [Pending, hst] at hp
      have := length_pos_of hin he
      refine .inr (.inl ?_)
      simp only
      omega
    | specialEnd remaining padding table bytes hst =>
      exact .inr (.inr (by simp [weight, hst]))
    | bsdName remaining bodySize padding fields hst hlt he =>
      exact .inr (.inl (length_pos_of hin he))
    | bsdNameEnd remaining bodySize padding fields m hst _ ho =>
      refine .inr (.inr ?_)
      have hw := weight_opened ho
      have hw' : weight d.state = 3 := by rw [hst]; rfl
      omega
    | magicStarved hst hlt he => exact .inr (.inl (length_pos_of hin he))
    | done => exact .inl rfl
    | headerStarved k ha hlt he => exact .inr (.inl (length_pos_of hin he))
    | openSpecial k j size table bytes ha hj =>
      have := AtHeader.pending_lt ha hp
      refine .inr (.inl ?_)
      simp only
      omega
    | openName k j remaining bodySize padding fields ha hj =>
      have := AtHeader.pending_lt ha hp
      refine .inr (.inl ?_)
      simp only
      omega
    | openMember k j size m ha hj =>
      have := AtHeader.pending_lt ha hp
      refine .inr (.inl ?_)
      simp only
      omega

end

end LibarchiveOxide.Ar.Discipline
