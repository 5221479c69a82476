import LibarchiveOxide.Core.Grammar
import LibarchiveOxide.Lib.Result
import LibarchiveOxide.Warc.Decoder

/-! # The events of the WARC decoder, and its progress -/

namespace LibarchiveOxide.Warc.Decoder

open Core.Failure Core.Budget Core.Metadata Core.Protocol Core.Drive Core.Grammar Lib.Result

namespace WarcDecoder

variable {d d' : WarcDecoder} {input : List Byte} {outputLen : ℕ} {eoi : EndOfInput}
  {st : DecodeStep} {m : EntryMetadata}

/-! ### What a step can do -/

/-- What the header of a record has passed. -/
structure Announced (limits : Limits) (m : EntryMetadata) (size : ℕ) : Prop where
  size_eq : m.size.map UInt64.toNat = some size
  size_within : Within size limits.entryBytes
  path_within : Within m.path.raw.length limits.pathBytes

/-- The ways a step can succeed. -/
inductive Stepped (d : WarcDecoder) (input : List Byte) (eoi : EndOfInput) :
    DecodeStep → WarcDecoder → Prop
  | finished (hs : d.state = .done) (hi : input = []) : Stepped d input eoi ⟨0, 0, .done⟩ d
  | data (remaining k : ℕ) (hs : d.state = .data remaining) (hk : k = min input.length remaining)
      (hpos : 0 < k) (hmax : d.decoded + k ≤ u64Max)
      (hw : Within (d.decoded + k) d.limits.decodedTotal) :
      Stepped d input eoi ⟨k, 0, .data (input.take k)⟩ { d with
        decoded := d.decoded + k, state := .data (remaining - k) }
  | dataStarved (remaining : ℕ) (hs : d.state = .data remaining) (hi : input = [])
      (he : eoi = .more) : Stepped d input eoi ⟨0, 0, .needInput⟩ d
  | endEntry (hs : d.state = .data 0) :
      Stepped d input eoi ⟨0, 0, .endEntry⟩ { d with state := .trailer 0 }
  | trailer (matched k : ℕ) (hs : d.state = .trailer matched)
      (hk : k = min (recordEnd.length - matched) input.length)
      (hne : matched + k ≠ recordEnd.length) (he : eoi = .more) :
      Stepped d input eoi ⟨k, 0, .needInput⟩ { d with state := .trailer (matched + k) }
  | trailerEnd (matched k : ℕ) (hs : d.state = .trailer matched)
      (hk : k = min (recordEnd.length - matched) input.length)
      (heq : matched + k = recordEnd.length) :
      Stepped d input eoi ⟨k, 0, .needInput⟩ { d with state := .header }
  | done (hs : d.state = .header) (hi : input = []) (he : eoi = .end) :
      Stepped d input eoi ⟨0, 0, .done⟩ { d with state := .done }
  | headerStarved (hs : d.state = .header) (he : eoi = .more) (bytes : List Byte) :
      Stepped d input eoi ⟨input.length, 0, .needInput⟩ { d with header := bytes }
  | entry (hs : d.state = .header) (k size : ℕ) (m : EntryMetadata) (hk : k ≤ input.length)
      (hpos : 0 < k) (ha : Announced d.limits m size) (hmax : d.entries + 1 ≤ u64Max)
      (hw : Within (d.entries + 1) d.limits.entries) :
      Stepped d input eoi ⟨k, 0, .entry m⟩ { d with
        entries := d.entries + 1, header := [], state := .data size }

theorem starved_ok {k : ℕ} {what : String} (h : d.starved eoi k what = .ok (st, d')) :
    st = ⟨k, 0, .needInput⟩ ∧ d' = d ∧ eoi = .more := by
  unfold starved at h
  split_ifs at h with he
  cases h
  refine ⟨rfl, rfl, ?_⟩
  cases eoi with
  | more => rfl
  | «end» => exact absurd rfl he

theorem parseContentLengthFrom_le : ∀ (value : List Byte) {length v : ℕ}, length ≤ u64Max →
    parseContentLengthFrom length value = .ok v → v ≤ u64Max
  | [], length, v, hle, h => by
    cases h
    exact hle
  | b :: rest, length, v, hle, h => by
    rw [parseContentLengthFrom] at h
    split_ifs at h
    cases hc : (checkedMul length 10).bind (checkedAdd · (b - chr '0').toNat) with
    | none => simp [hc] at h
    | some w =>
      simp only [hc] at h
      obtain ⟨u, -, hu⟩ := Option.bind_eq_some_iff.mp hc
      have hw := checkedAdd_eq_some.mp hu
      exact parseContentLengthFrom_le rest (hw.1 ▸ hw.2) h

theorem recordPath_within {sequence : ℕ} {recordId : Option (List Byte)} {path : List Byte}
    (h : d.recordPath sequence recordId = .ok path) : Within path.length d.limits.pathBytes := by
  unfold recordPath at h
  split_ifs at h with hf
  split at h
  · cases h
    exact within_of_not_exceeds hf
  · split_ifs at h with hc
    · cases h
      exact within_of_not_exceeds hf
    · cases h
      exact within_of_not_exceeds fun he => hc (.inr he)

theorem announced_of_describe {sequence size retained : ℕ} {version : List Byte}
    {fields : List NamedField} (h : d.describe sequence version fields retained = .ok (m, size)) :
    Announced d.limits m size := by
  obtain ⟨-, h⟩ := guard_eq_ok.mp h
  obtain ⟨⟨⟩, -, h⟩ := bind_eq_ok.mp h
  obtain ⟨lengthField, -, h⟩ := bind_eq_ok.mp h
  obtain ⟨contentLength, hlen, h⟩ := bind_eq_ok.mp h
  obtain ⟨hw, h⟩ := guard_eq_ok.mp h
  obtain ⟨path, hpath, h⟩ := bind_eq_ok.mp h
  obtain ⟨_, -, h⟩ := bind_eq_ok.mp h
  obtain ⟨⟨⟩, -, h⟩ := bind_eq_ok.mp h
  cases h
  have hle : size ≤ u64Max := by
    unfold parseContentLength at hlen
    split_ifs at hlen
    exact parseContentLengthFrom_le _ (Nat.zero_le _) hlen
  have hm : u64Max = 2 ^ 64 - 1 := rfl
  refine ⟨?_, within_of_not_exceeds hw, recordPath_within hpath⟩
  rw [Option.map_some, UInt64.toNat_ofNat', Nat.mod_eq_of_lt (by omega)]

/-- A parsed header announces a record within the budgets. -/
theorem announced_of_parseHeader {bytes : List Byte} {sequence size : ℕ}
    (h : d.parseHeader bytes sequence = .ok (m, size)) : Announced d.limits m size := by
  obtain ⟨-, h⟩ := guard_eq_ok.mp h
  obtain ⟨version, -, h⟩ := bind_eq_ok.mp h
  obtain ⟨cost, -, h⟩ := bind_eq_ok.mp h
  obtain ⟨⟨fields, retained⟩, -, h⟩ := bind_eq_ok.mp h
  exact announced_of_describe h

/-- What the loop over a header ends with. -/
theorem headerLoop_ok : ∀ (rest : List Byte) {header : List Byte} {k : ℕ},
    d.headerLoop eoi k header rest = .ok (st, d') →
    (eoi = .more ∧ st = ⟨k + rest.length, 0, .needInput⟩ ∧ ∃ bytes, d' = { d with header := bytes }) ∨
      ∃ j size m, j < rest.length ∧ st = ⟨k + j + 1, 0, .entry m⟩ ∧ Announced d.limits m size ∧
        d.entries + 1 ≤ u64Max ∧ Within (d.entries + 1) d.limits.entries ∧
        d' = { d with entries := d.entries + 1, header := [], state := .data size }
  | [], header, k, h => by
    obtain ⟨rfl, rfl, he⟩ := starved_ok h
    exact .inl ⟨he, rfl, header, rfl⟩
  | b :: rest, header, k, h => by
    obtain ⟨⟨⟩, -, h⟩ := bind_eq_ok.mp h
    dsimp only at h
    split_ifs at h with hend
    · obtain ⟨entries, he, h⟩ := bind_eq_ok.mp h
      obtain ⟨⟨m, size⟩, hp, h⟩ := bind_eq_ok.mp h
      cases h
      obtain ⟨sequence, hs, he⟩ := bind_eq_ok.mp he
      obtain ⟨hw, he⟩ := guard_eq_ok.mp he
      obtain ⟨rfl, hmax⟩ := checkedAdd_eq_some.mp (okOr_eq_ok.mp hs)
      cases he
      have ha : Announced d.limits m size := announced_of_parseHeader
        (d := { d with entries := d.entries + 1, header := [] }) hp
      exact .inr ⟨0, size, m, Nat.succ_pos _, rfl, ha, hmax, within_of_not_exceeds hw, rfl⟩
    · rcases headerLoop_ok rest h with ⟨he, rfl, hd⟩ | ⟨j, size, m, hj, rfl, ha, hm, hw, hd⟩
      · refine .inl ⟨he, ?_, hd⟩
        rw [List.length_cons]
        congr 1
        omega
      · refine .inr ⟨j + 1, size, m, ?_, ?_, ha, hm, hw, hd⟩
        · rw [List.length_cons]
          omega
        · congr 1
          omega

theorem stepped_of_stepHeader (hs : d.state = .header)
    (h : d.stepHeader input eoi = .ok (st, d')) : Stepped d input eoi st d' := by
  unfold stepHeader at h
  split_ifs at h with hi hd
  · cases h
    exact .done hs (by simpa using hi) hd.1
  · obtain ⟨rfl, rfl, he⟩ := starved_ok h
    have hi' : input = [] := by simpa using hi
    subst hi'
    exact .headerStarved hs he d'.header
  · rcases headerLoop_ok input h with ⟨he, rfl, bytes, rfl⟩ | ⟨j, size, m, hj, rfl, ha, hm, hw, rfl⟩
    · rw [Nat.zero_add]
      exact .headerStarved hs he bytes
    · exact .entry hs _ size m (by omega) (by omega) ha hm hw

theorem stepped_of_stepData {remaining : ℕ} (hs : d.state = .data remaining)
    (h : d.stepData input eoi remaining = .ok (st, d')) : Stepped d input eoi st d' := by
  unfold stepData at h
  split_ifs at h with h0 hi
  · cases h
    subst h0
    exact .endEntry hs
  · obtain ⟨rfl, rfl, he⟩ := starved_ok h
    exact .dataStarved remaining hs (by simpa using hi) he
  · obtain ⟨total, ht, h⟩ := bind_eq_ok.mp h
    obtain ⟨hw, h⟩ := guard_eq_ok.mp h
    obtain ⟨rfl, hmax⟩ := checkedAdd_eq_some.mp (okOr_eq_ok.mp ht)
    cases h
    have hne : input.length ≠ 0 := by
      intro h0
      exact hi (by simp [List.length_eq_zero_iff.mp h0])
    exact .data remaining _ hs rfl (by omega) hmax (within_of_not_exceeds hw)

theorem stepped_of_stepTrailer {matched : ℕ} (hs : d.state = .trailer matched)
    (h : d.stepTrailer input eoi matched = .ok (st, d')) : Stepped d input eoi st d' := by
  unfold stepTrailer at h
  dsimp only at h
  rw [List.length_drop] at h
  split_ifs at h with h1 h2
  · cases h
    exact .trailerEnd matched _ hs rfl h2
  · obtain ⟨rfl, rfl, he⟩ := starved_ok h
    exact .trailer matched _ hs rfl h2 he

/-- **Every successful step is one of the listed ways.** -/
theorem stepped_of_step (h : d.step input outputLen eoi = .ok (st, d')) :
    Stepped d input eoi st d' := by
  unfold step at h
  split at h
  · next hs =>
    split_ifs at h with hi
    cases h
    exact .finished hs (by simpa using hi)
  · next hs => exact stepped_of_stepData hs h
  · next hs => exact stepped_of_stepTrailer hs h
  · next hs => exact stepped_of_stepHeader hs h

/-! ### The account of the events -/

/-- Where the decoder stands, as its events tell. -/
def Stands (limits : Limits) (d : WarcDecoder) : Phase → Prop
  | .between => d.state = .header ∨ ∃ matched, d.state = .trailer matched
  | .inside m windows => ∃ remaining, d.state = .data remaining ∧
      m.size.map UInt64.toNat = some (windowBytes windows + remaining) ∧
      Within (windowBytes windows + remaining) limits.entryBytes
  | .finished => True

/-- What holds along a run. -/
structure Disciplined (limits : Limits) (d : WarcDecoder) (evs : List DecodeEvent) (p : Phase) :
    Prop where
  limits_eq : d.limits = limits
  ledger : Ledger limits Exact evs p d.decoded d.entries
  count : entryCount evs = d.entries
  stands : Stands limits d p

section
variable {limits : Limits} {evs : List DecodeEvent} {p : Phase}

theorem phase_between (h : Stands limits d p)
    (hb : d.state = .header ∨ ∃ matched, d.state = .trailer matched) (hp : p ≠ .finished) :
    p = .between := by
  cases p with
  | between => rfl
  | finished => exact absurd rfl hp
  | inside m windows =>
    obtain ⟨r, hs, -⟩ := h
    rcases hb with hb | ⟨j, hb⟩
    · rw [hs] at hb; simp at hb
    · rw [hs] at hb; simp at hb

theorem phase_inside {remaining : ℕ} (h : Stands limits d p) (hs : d.state = .data remaining)
    (hp : p ≠ .finished) : ∃ m windows, p = .inside m windows ∧
      m.size.map UInt64.toNat = some (windowBytes windows + remaining) ∧
      Within (windowBytes windows + remaining) limits.entryBytes := by
  cases p with
  | finished => exact absurd rfl hp
  | between =>
    rcases h with h | ⟨j, h⟩
    · rw [hs] at h; simp at h
    · rw [hs] at h; simp at h
  | inside m windows =>
    obtain ⟨r, hs', hsz, hw⟩ := h
    rw [hs] at hs'
    simp only [WarcState.data.injEq] at hs'
    subst hs'
    exact ⟨m, windows, rfl, hsz, hw⟩

/-- **Every step of the decoder keeps the account.** -/
theorem disciplined_step (h : Disciplined limits d evs p) (hl : evs.getLast? ≠ some .done)
    (hs : d.step input outputLen eoi = .ok (st, d')) :
    ∃ p', Disciplined limits d' (evs ++ [st.event]) p' := by
  have hnf := h.ledger.trace.not_finished hl
  have hother : ∀ {ev : DecodeEvent}, isEntry ev = false → entryCount (evs ++ [ev]) = d.entries :=
    fun he => (entryCount_append_of_not he).trans h.count
  cases stepped_of_step hs with
  | finished hst =>
    have h1 := h.stands
    cases p with
    | finished => exact absurd rfl hnf
    | between =>
      rcases h1 with h1 | ⟨j, h1⟩
      · rw [hst] at h1; simp at h1
      · rw [hst] at h1; simp at h1
    | inside m windows =>
      obtain ⟨r, h1, -⟩ := h1
      rw [hst] at h1
      simp at h1
  | data remaining k hst hk hpos hmax hw =>
    obtain ⟨m, windows, rfl, hsz, hwin⟩ := phase_inside h.stands hst hnf
    have hlen : (input.take k).length = k := by
      rw [List.length_take]
      omega
    have hled := h.ledger.data (b := input.take k) (by rw [hlen]; exact hmax)
      (by rw [hlen, ← h.limits_eq]; exact hw) (by rw [hlen]; exact hwin.mono (by omega))
    rw [hlen] at hled
    have hsum : windowBytes (windows ++ [input.take k]) + (remaining - k) =
        windowBytes windows + remaining := by
      rw [windowBytes_append, hlen]
      omega
    refine ⟨.inside m (windows ++ [input.take k]), h.limits_eq, hled, hother rfl, remaining - k, rfl,
      ?_, ?_⟩
    · rw [hsum]
      exact hsz
    · rw [hsum]
      exact hwin
  | dataStarved => exact ⟨p, h.limits_eq, h.ledger.request rfl hnf, hother rfl, h.stands⟩
  | endEntry hst =>
    obtain ⟨m, windows, rfl, hsz, -⟩ := phase_inside h.stands hst hnf
    exact ⟨.between, h.limits_eq, h.ledger.endEntry hsz, hother rfl, .inr ⟨0, rfl⟩⟩
  | trailer matched k hst =>
    obtain rfl := phase_between h.stands (.inr ⟨matched, hst⟩) hnf
    exact ⟨.between, h.limits_eq, h.ledger.request rfl hnf, hother rfl, .inr ⟨_, rfl⟩⟩
  | trailerEnd matched k hst =>
    obtain rfl := phase_between h.stands (.inr ⟨matched, hst⟩) hnf
    exact ⟨.between, h.limits_eq, h.ledger.request rfl hnf, hother rfl, .inl rfl⟩
  | done hst =>
    obtain rfl := phase_between h.stands (.inl hst) hnf
    exact ⟨.finished, h.limits_eq, h.ledger.done, hother rfl, trivial⟩
  | headerStarved hst =>
    obtain rfl := phase_between h.stands (.inl hst) hnf
    exact ⟨.between, h.limits_eq, h.ledger.request rfl hnf, hother rfl, .inl hst⟩
  | entry hst k size m _ _ ha hmax hw =>
    obtain rfl := phase_between h.stands (.inl hst) hnf
    have hlim := h.limits_eq
    have hled := h.ledger.begin (Nat.le_succ _) hmax (hlim ▸ hw)
    refine ⟨.inside m [], hlim, hled.entry ?_ (hlim ▸ ha.path_within), ?_, size, rfl, ?_, ?_⟩
    · rw [h.count]
      exact Nat.lt_succ_self _
    · rw [entryCount_append_entry, h.count]
    · rw [windowBytes_nil, Nat.zero_add]
      exact ha.size_eq
    · rw [windowBytes_nil, Nat.zero_add, ← hlim]
      exact ha.size_within

end

/-- The account of a run. -/
theorem warc_disciplined (limits : Limits) (extensionSize : ℕ) {B : List Byte} (c : Cutting B)
    (n : ℕ) : ∃ p, Disciplined limits
      (run WarcDecoder.step (.new limits extensionSize) c n).decoder
      (run WarcDecoder.step (.new limits extensionSize) c n).events p := by
  refine run_induction (P := fun d evs => ∃ p, Disciplined limits d evs p) ?_ ?_ n
  · exact ⟨.between, rfl, ledger_nil _ _, rfl, .inl rfl⟩
  · rintro d evs input outputLen eoi st d' ⟨p, h⟩ hl hs
    exact disciplined_step h hl hs

/-! ### Progress -/

/-- A trailer is not complete. -/
def Pending (d : WarcDecoder) : Prop := ∀ matched, d.state = .trailer matched → matched < 4

/-- A content block has an end still to report. -/
def weight : WarcState → ℕ
  | .data _ => 1
  | _ => 0

/-- **The WARC decoder cannot idle.** -/
theorem warc_progress : Progress WarcDecoder.step Pending (fun d => weight d.state) where
  inv := by
    intro d input outputLen eoi st d' hp hs
    have h4 : recordEnd.length = 4 := by decide
    cases stepped_of_step hs with
    | finished => exact hp
    | dataStarved => exact hp
    | headerStarved => exact hp
    | trailer matched k hst hk hne =>
      have := hp matched hst
      intro j hj
      simp only [WarcState.trailer.injEq] at hj
      omega
    | endEntry =>
      intro j hj
      simp only [WarcState.trailer.injEq] at hj
      omega
    | _ => intro j hj; simp at hj
  consumed_le := by
    intro d input outputLen eoi st d' hs
    cases stepped_of_step hs with
    | finished => exact Nat.zero_le _
    | data remaining k _ hk => rw [hk]; exact min_le_left _ _
    | dataStarved => exact Nat.zero_le _
    | endEntry => exact Nat.zero_le _
    | trailer matched k _ hk => rw [hk]; exact min_le_right _ _
    | trailerEnd matched k _ hk => rw [hk]; exact min_le_right _ _
    | done => exact Nat.zero_le _
    | headerStarved => exact le_rfl
    | entry _ k size m hk => exact hk
  decreases := by
    intro d input outputLen eoi st d' hp _ hin hs
    have h4 : recordEnd.length = 4 := by decide
    have hlen : eoi = .more → 0 < input.length := by
      intro he
      rcases hin with hin | hin
      · exact List.length_pos_iff.mpr hin
      · rw [he] at hin
        cases hin
    cases stepped_of_step hs with
    | finished => exact .inl rfl
    | data remaining k _ _ hpos => exact .inr (.inl hpos)
    | dataStarved remaining _ hi he =>
      have := hlen he
      simp [hi] at this
    | endEntry hst => exact .inr (.inr (by simp [weight, hst]))
    | trailer matched k hst hk hne he =>
      have := hp matched hst
      have := hlen he
      refine .inr (.inl ?_)
      simp only
      omega
    | trailerEnd matched k hst hk heq =>
      have := hp matched hst
      refine .inr (.inl ?_)
      simp only
      omega
    | done => exact .inl rfl
    | headerStarved _ he => exact .inr (.inl (hlen he))
    | entry _ k size m _ hpos => exact .inr (.inl hpos)

end WarcDecoder

end LibarchiveOxide.Warc.Decoder
