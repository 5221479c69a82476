import LibarchiveOxide.Filter.Lzip
import LibarchiveOxide.Lib.Result

/-! # The member sequences that the lzip worker accepts

A payload is a front part of what is left, the reader has fetched it and some bytes behind it, and these
go back in front of the pipe. So a member begins where the one before it ends, whatever has been
fetched. -/

namespace LibarchiveOxide.Filter.Lzip

open Core.Failure Core.Budget Codecs.Crc Lib Lib.LittleEndian Lib.Slice Filter.Worker

/-! ### Members -/

/-- The payloads of a dictionary size with their contents. -/
abbrev Payloads := ℕ → List Byte → List Byte → Prop

/-- **A member** with its content: the header, a payload, and a trailer with the checksum and the length
of the content and the length of the member. -/
inductive Member (L : Payloads) : List Byte → List Byte → Prop
  | intro {code : Byte} {dictionary : ℕ} {payload content trailer : List Byte}
      (hcode : decodeDictionarySize code = .ok dictionary) (hpay : L dictionary payload content)
      (hlen : trailer.length = trailerSize)
      (hcrc : leValue (window trailer 0 4) = (crc32 content).toNat)
      (hdata : leValue (window trailer 4 12) = content.length)
      (hsize : leValue (window trailer 12 20) = headerSize + payload.length + trailerSize) :
      Member L (lzipMagic ++ lzipVersion :: code :: (payload ++ trailer)) content

/-- Members one behind the other, with their contents. -/
inductive Sequence (L : Payloads) : List Byte → List Byte → Prop
  | nil : Sequence L [] []
  | cons {member content members contents : List Byte} (h : Member L member content)
      (hs : Sequence L members contents) : Sequence L (member ++ members) (content ++ contents)

/-- **One or more members** with nothing behind the last. -/
def WellFormed (L : Payloads) (input content : List Byte) : Prop := input ≠ [] ∧ Sequence L input content

/-! ### The reader -/

/-- What a reader of this dictionary size has fetched, what is left, what it has given, and where it
then stands, if it has not looked for bytes at the end. -/
inductive Reading (R : LzmaReader) (dictionary : ℕ) :
    List Byte → List Byte → List Byte → R.State → Prop
  | new {fetched left : List Byte} {state : R.State}
      (h : (R.new dictionary).Ends fetched left (.ok state) false) :
      Reading R dictionary fetched left [] state
  | read {fetched more left given bytes : List Byte} {state next : R.State} {n : ℕ}
      (hs : Reading R dictionary fetched (more ++ left) given state) (hn : 0 < n)
      (hb : bytes ≠ []) (h : (R.read state n).Ends more left (.ok bytes, next) false) :
      Reading R dictionary (fetched ++ more) left (given ++ bytes) next

/-- **What the LZMA reader does**: it takes a front part of its input as the payload, gives its content,
never more than there is room for, and keeps all bytes that it has fetched behind it. On an input without
a payload it may fail as it likes. -/
structure Decodes (R : LzmaReader) (L : Payloads) : Prop where
  unique {dictionary p x t p' x' t'} : L dictionary p x → L dictionary p' x' → p ++ t = p' ++ t' →
    p = p' ∧ x = x'
  fits {state n more left bytes next met} :
    (R.read state n).Ends more left (.ok bytes, next) met → bytes.length ≤ n
  opens {dictionary p x t fetched left r met} : L dictionary p x → fetched ++ left = p ++ t →
    (R.new dictionary).Ends fetched left r met → ∃ state, r = .ok state
  gives {dictionary p x t fetched more left given state n r next met} : L dictionary p x →
    fetched ++ more ++ left = p ++ t → Reading R dictionary fetched (more ++ left) given state → 0 < n →
    (R.read state n).Ends more left (r, next) met → ∃ bytes, r = .ok bytes ∧ given ++ bytes <+: x
  keeps {dictionary fetched more left given state n next} :
    Reading R dictionary fetched (more ++ left) given state → 0 < n →
    (R.read state n).Ends more left (.ok [], next) false →
    ∃ p, L dictionary p given ∧ fetched ++ more = p ++ R.unread next

/-- **A modest reader**: where there are a payload and enough bytes for a trailer, it does not look for
bytes at the end of the input, and it keeps at most as many bytes as the worker takes back. -/
structure Modest (R : LzmaReader) (L : Payloads) : Prop where
  opens {dictionary p x t fetched left r met} : L dictionary p x → fetched ++ left = p ++ t →
    trailerSize ≤ t.length → (R.new dictionary).Ends fetched left r met → met = false
  gives {dictionary p x t fetched more left given state n r next met} : L dictionary p x →
    fetched ++ more ++ left = p ++ t → trailerSize ≤ t.length →
    Reading R dictionary fetched (more ++ left) given state → 0 < n →
    (R.read state n).Ends more left (r, next) met → met = false
  keeps {dictionary fetched more left given state n next} :
    Reading R dictionary fetched (more ++ left) given state → 0 < n →
    (R.read state n).Ends more left (.ok [], next) false → (R.unread next).length ≤ maxStaged

/-- **The content** is determined by the members. -/
theorem Sequence.content_eq {R : LzmaReader} {L : Payloads} (hR : Decodes R L) {input x y : List Byte}
    (hx : Sequence L input x) (hy : Sequence L input y) : x = y := by
  induction hx generalizing y with
  | nil =>
    generalize hi : ([] : List Byte) = input at hy
    cases hy with
    | nil => rfl
    | cons hm hs =>
      cases hm
      simp [lzipMagic] at hi
  | @cons member content members contents hm hs ih =>
    generalize hi : member ++ members = input at hy
    cases hy with
    | nil =>
      cases hm
      simp [lzipMagic] at hi
    | cons hm' hs' =>
      obtain @⟨code, dictionary, payload, _, trailer, hcode, hpay, hlen, -, -, -⟩ := hm
      obtain @⟨code', dictionary', payload', _, trailer', hcode', hpay', hlen', -, -, -⟩ := hm'
      simp only [List.append_assoc, List.cons_append, List.append_cancel_left_eq, List.cons.injEq,
        true_and] at hi
      obtain ⟨rfl, hi⟩ := hi
      obtain rfl : dictionary = dictionary' := Except.ok.inj (hcode.symm.trans hcode')
      obtain ⟨rfl, rfl⟩ := hR.unique hpay hpay' hi
      obtain ⟨-, rfl⟩ := List.append_inj (List.append_cancel_left hi) (hlen.trans hlen'.symm)
      rw [ih hs']

/-! ### Headers -/

theorem readMemberHeader_none {p p' : InputPipe} {index : ℕ}
    (h : readMemberHeader p index = .ok (none, p')) : p.rest = [] ∧ index ≠ 0 := by
  obtain ⟨-, -, he, -⟩ := read_ok p Nat.one_pos
  unfold readMemberHeader at h
  by_cases hb : (p.read 1).1 = []
  · simp only [if_pos hb] at h
    split_ifs at h with hi
    exact ⟨he hb, hi⟩
  · simp only [if_neg hb] at h
    split at h
    · cases h
    · split_ifs at h
      obtain ⟨d, -, hd⟩ := Result.map_eq_ok.mp h
      cases hd

theorem readMemberHeader_end {p : InputPipe} {index : ℕ} (h : p.rest = []) (hi : index ≠ 0) :
    ∃ p', readMemberHeader p index = .ok (none, p') := by
  obtain ⟨hr, -, -, -⟩ := read_ok p Nat.one_pos
  have hb : (p.read 1).1 = [] := (List.append_eq_nil_iff.mp (hr.symm.trans h)).1
  unfold readMemberHeader
  simp only [if_pos hb, if_neg hi]
  exact ⟨_, rfl⟩

/-- Six bytes that begin with the magic and the version. -/
theorem header_eq {header : List Byte} (hl : header.length = 6) (hm : header.take 4 = lzipMagic)
    (hv : header.getD 4 0 = lzipVersion) :
    header = lzipMagic ++ [lzipVersion, header.getD 5 0] := by
  match header, hl with
  | [a, b, c, d, e, f], _ =>
    simp only [List.take_succ_cons, List.take_zero] at hm
    simp only [List.getD_cons_succ, List.getD_cons_zero] at hv ⊢
    rw [← hm, ← hv]
    rfl

theorem readMemberHeader_some {p p' : InputPipe} {index dictionary : ℕ}
    (h : readMemberHeader p index = .ok (some dictionary, p')) :
    ∃ code, decodeDictionarySize code = .ok dictionary ∧
      p.rest = lzipMagic ++ lzipVersion :: code :: p'.rest := by
  obtain ⟨hr, hl, -, -⟩ := read_ok p Nat.one_pos
  unfold readMemberHeader at h
  by_cases hb : (p.read 1).1 = []
  · simp only [if_pos hb] at h
    split_ifs at h
    cases h
  · have hpos := List.length_pos_iff.mpr hb
    simp only [if_neg hb] at h
    split at h
    · cases h
    · rename_i more q hq
      obtain ⟨h1, h2⟩ := (readExact_ok _ _ _ le_rfl).1 hq
      split_ifs at h with hm hv
      obtain ⟨d, hd, he⟩ := Result.map_eq_ok.mp h
      obtain ⟨rfl, rfl⟩ : d = dictionary ∧ q = p' := by simpa using he
      have hh := header_eq (by simp only [List.length_append, h2, headerSize]; omega)
        (not_not.mp hm) (not_not.mp hv)
      generalize ((p.read 1).1 ++ more).getD 5 0 = code at hd hh
      refine ⟨code, hd, ?_⟩
      rw [hr, h1, ← List.append_assoc, hh, List.append_assoc]
      rfl

theorem readMemberHeader_member {p : InputPipe} {index dictionary : ℕ} {code : Byte} {left : List Byte}
    (h : p.rest = lzipMagic ++ lzipVersion :: code :: left)
    (hc : decodeDictionarySize code = .ok dictionary) :
    ∃ p', readMemberHeader p index = .ok (some dictionary, p') ∧ p'.rest = left ∧
      p'.readAhead.length ≤ p.readAhead.length := by
  obtain ⟨hr, hl, he, -⟩ := read_ok p Nat.one_pos
  have hb : (p.read 1).1 ≠ [] := fun hb => by
    rw [he hb] at h
    simp [lzipMagic] at h
  have hone : (p.read 1).1.length = 1 := by
    have := List.length_pos_iff.mpr hb
    omega
  have hlen : p.rest.length = 6 + left.length := by
    rw [h]
    simp [lzipMagic]
    omega
  obtain ⟨hok, hsome⟩ := readExact_ok (headerSize - 1) (p.read 1).2 (headerSize - 1) le_rfl
  obtain ⟨⟨more, q⟩, hq⟩ := Option.isSome_iff_exists.mp (hsome (by
    rw [hr, List.length_append] at hlen
    simp only [headerSize]
    omega))
  obtain ⟨h1, h2⟩ := hok hq
  obtain ⟨hh, hleft⟩ : (p.read 1).1 ++ more = lzipMagic ++ [lzipVersion, code] ∧ q.rest = left := by
    apply List.append_inj
    · rw [List.append_assoc, ← h1, ← hr, h]
      simp
    · rw [List.length_append, h2, hone]
      rfl
  unfold readMemberHeader
  simp only [if_neg hb, hq, hh]
  rw [if_neg (by simp [lzipMagic]), if_neg (by simp [lzipMagic])]
  refine ⟨q, ?_, hleft, (length_ahead_readExact hq).trans (length_ahead_read p 1)⟩
  have h5 : (lzipMagic ++ [lzipVersion, code]).getD 5 0 = code := rfl
  rw [h5, hc]
  rfl

/-! ### Payloads -/

variable {R : LzmaReader} {L : Payloads}

/-- What has been decoded, beside the outputs: they are all there is, and within both limits. -/
structure Accounted (maximum : Option ℕ) (outputs : List (List Byte)) (total : ℕ) : Prop where
  outputs : outputs.flatten.length = total
  counter : total ≤ u64Max
  budget : Within total maximum

/-- **A payload is being decoded** from this pipe, behind these outputs: what has been fetched and given,
and the counters. -/
structure Midway (dictionary : ℕ) (p : InputPipe) (outputs : List (List Byte)) (fetched given : List Byte)
    (d : Decoding R) : Prop where
  reading : Reading R dictionary fetched d.pipe.rest given d.state
  split : p.rest = fetched ++ d.pipe.rest
  ahead : d.pipe.readAhead = [] ∨ p.readAhead = fetched ++ d.pipe.readAhead
  quiet : d.pipe.eofRead = false
  fetched : d.fetched = fetched.length
  crc : d.crc = ({} : Crc32).update given
  dataSize : d.dataSize = given.length
  outputs : d.outputs.flatten = outputs.flatten ++ given

/-- **A payload is decoded**: what follows it is what the reader keeps, and what is left behind that. -/
structure Decoded (L : Payloads) (dictionary : ℕ) (p : InputPipe) (outputs : List (List Byte))
    (payload given : List Byte) (d : Decoding R) : Prop where
  language : L dictionary payload given
  split : p.rest = payload ++ (R.unread d.state ++ d.pipe.rest)
  ahead : d.pipe.readAhead = [] ∨
    (R.unread d.state).length + d.pipe.readAhead.length ≤ p.readAhead.length
  fetched : d.fetched = payload.length + (R.unread d.state).length
  crc : d.crc = ({} : Crc32).update given
  dataSize : d.dataSize = given.length
  outputs : d.outputs.flatten = outputs.flatten ++ given

theorem capacity_pos (remaining : Option ℕ) : 0 < capacity remaining := by
  cases remaining with
  | none => exact Nat.succ_pos _
  | some r => exact Nat.lt_of_lt_of_le Nat.one_pos (le_max_right _ _)

/-- A round that gives bytes. -/
theorem Midway.step {dictionary : ℕ} {p : InputPipe} {outputs : List (List Byte)}
    {fetched given more bytes : List Byte} {d : Decoding R} {state : R.State} {pipe : InputPipe}
    {count n : ℕ} (total : ℕ) (hd : Midway dictionary p outputs fetched given d) (hn : 0 < n)
    (hr : d.pipe.rest = more ++ pipe.rest)
    (he : (R.read d.state n).Ends more pipe.rest (.ok bytes, state) false) (hb : bytes ≠ [])
    (hq : pipe.eofRead = false) (hc : count = d.fetched + more.length)
    (ha : pipe.readAhead = [] ∨ d.pipe.readAhead = more ++ pipe.readAhead) :
    Midway dictionary p outputs (fetched ++ more) (given ++ bytes) {
      state := state, pipe := pipe, fetched := count, crc := d.crc.update bytes
      dataSize := d.dataSize + bytes.length, decodedTotal := total, outputs := d.outputs ++ [bytes] } where
  reading := .read (hr ▸ hd.reading) hn hb he
  split := by rw [hd.split, hr, List.append_assoc]
  ahead := by
    rcases ha with ha | ha
    · exact Or.inl ha
    · rcases hd.ahead with h | h
      · rw [h] at ha
        exact Or.inl (List.append_eq_nil_iff.mp ha.symm).2
      · rw [ha, ← List.append_assoc] at h
        exact Or.inr h
  quiet := hq
  fetched := by rw [hc, hd.fetched, List.length_append]
  crc := by rw [hd.crc, Crc32.update_append]
  dataSize := by rw [hd.dataSize, List.length_append]
  outputs := by simp [hd.outputs]

/-- A round that gives none. -/
theorem Midway.decoded (hR : Decodes R L) {dictionary : ℕ} {p : InputPipe}
    {outputs : List (List Byte)} {fetched given more : List Byte} {d : Decoding R} {state : R.State}
    {pipe : InputPipe} {count n : ℕ} (hd : Midway dictionary p outputs fetched given d) (hn : 0 < n)
    (hr : d.pipe.rest = more ++ pipe.rest)
    (he : (R.read d.state n).Ends more pipe.rest (.ok [], state) false)
    (hc : count = d.fetched + more.length)
    (ha : pipe.readAhead = [] ∨ d.pipe.readAhead = more ++ pipe.readAhead) :
    ∃ payload, Decoded L dictionary p outputs payload given
      { d with state := state, pipe := pipe, fetched := count } := by
  obtain ⟨payload, hp, hk⟩ := hR.keeps (hr ▸ hd.reading) hn he
  have hlen := congrArg List.length hk
  simp only [List.length_append] at hlen
  refine ⟨payload, hp, ?_, ?_, ?_, hd.crc, hd.dataSize, hd.outputs⟩
  · rw [hd.split, hr, ← List.append_assoc, hk, List.append_assoc]
  · rcases ha with ha | ha
    · exact Or.inl ha
    · rcases hd.ahead with h | h
      · rw [h] at ha
        exact Or.inl (List.append_eq_nil_iff.mp ha.symm).2
      · have := congrArg List.length h
        rw [ha] at this
        simp only [List.length_append] at this
        exact Or.inr (by simp only; omega)
  · simp only [hc, hd.fetched]
    omega

variable {dictionary : ℕ} {p : InputPipe} {outputs outs : List (List Byte)} {maximum : Option ℕ}

/-- Whoever has looked for bytes at the end does not get through a payload. -/
theorem payloadLoop_eof : ∀ (rounds : ℕ) {d d' : Decoding R}, d.pipe.eofRead = true →
    payloadLoop R maximum rounds d ≠ some ⟨outs, .ok d'⟩
  | 0, _, _, _ => nofun
  | rounds + 1, d, d', h => by
    obtain ⟨more, met, -, -, hm, -, -⟩ :=
      run_ends (R.read d.state (capacity (maximum.map (· - d.decodedTotal)))) d.pipe d.fetched
    rw [h, Bool.true_or] at hm
    rw [payloadLoop]
    simp only [hm, if_true]
    nofun

/-- **A loop that ends well** has decoded a payload. -/
theorem payloadLoop_decoded (hR : Decodes R L) : ∀ (rounds : ℕ) {d d' : Decoding R}
    {fetched given : List Byte}, Midway dictionary p outputs fetched given d →
    payloadLoop R maximum rounds d = some ⟨outs, .ok d'⟩ →
    ∃ payload content, Decoded L dictionary p outputs payload content d' ∧ outs = d'.outputs
  | 0, _, _, _, _, _, h => by simp [payloadLoop] at h
  | rounds + 1, d, d', fetched, given, hd, h => by
    have hn := capacity_pos (maximum.map (· - d.decodedTotal))
    rw [payloadLoop] at h
    obtain ⟨more, met, hr, he, hm, hc, ha⟩ :=
      run_ends (R.read d.state (capacity (maximum.map (· - d.decodedTotal)))) d.pipe d.fetched
    generalize (R.read d.state (capacity (maximum.map (· - d.decodedTotal)))).run d.pipe d.fetched
      = result at h hr he hm hc ha
    obtain ⟨⟨r, state⟩, pipe, count⟩ := result
    rw [hd.quiet, Bool.false_or] at hm
    simp only at h hr he hm hc ha
    cases met with
    | true => simp [hm] at h
    | false =>
      simp only [hm, Bool.false_eq_true, if_false] at h
      match r, he, h with
      | .error e, _, h => simp at h
      | .ok [], he, h =>
        simp only [Option.some.injEq, Ended.mk.injEq, Except.ok.injEq] at h
        obtain ⟨rfl, rfl⟩ := h
        obtain ⟨payload, hp⟩ := hd.decoded hR hn hr he hc ha
        exact ⟨payload, given, hp, rfl⟩
      | .ok (b :: bytes), he, h =>
        simp only at h
        split_ifs at h
        · simp at h
        · simp at h
        · simp at h
        exact payloadLoop_decoded hR rounds (hd.step _ hn hr he nofun hm hc ha) h

/-- **The outputs stay within the limits**, however the loop ends. -/
theorem payloadLoop_accounted (hR : Decodes R L) : ∀ (rounds : ℕ) {d : Decoding R}
    {r : Except IoError (Decoding R)}, Accounted maximum d.outputs d.decodedTotal →
    payloadLoop R maximum rounds d = some ⟨outs, r⟩ →
    ∃ total, Accounted maximum outs total ∧ ∀ d', r = .ok d' → d'.decodedTotal = total
  | 0, _, _, _, h => by simp [payloadLoop] at h
  | rounds + 1, d, r, hd, h => by
    rw [payloadLoop] at h
    obtain ⟨more, met, -, he, -, -, -⟩ :=
      run_ends (R.read d.state (capacity (maximum.map (· - d.decodedTotal)))) d.pipe d.fetched
    generalize (R.read d.state (capacity (maximum.map (· - d.decodedTotal)))).run d.pipe d.fetched
      = result at h he
    obtain ⟨⟨r', state⟩, pipe, count⟩ := result
    simp only at h he
    by_cases hq : pipe.eofRead = true
    · simp only [hq, if_true, Option.some.injEq, Ended.mk.injEq] at h
      obtain ⟨rfl, rfl⟩ := h
      exact ⟨_, hd, nofun⟩
    simp only [hq, Bool.false_eq_true, if_false] at h
    match r', he, h with
    | .error e, _, h =>
      simp only [Option.some.injEq, Ended.mk.injEq] at h
      obtain ⟨rfl, rfl⟩ := h
      exact ⟨_, hd, nofun⟩
    | .ok [], _, h =>
      simp only [Option.some.injEq, Ended.mk.injEq] at h
      obtain ⟨rfl, rfl⟩ := h
      refine ⟨_, hd, ?_⟩
      rintro d' hd'
      rw [← Except.ok.inj hd']
    | .ok (b :: bytes), he, h =>
      simp only at h
      split_ifs at h with h0 h1 h2
      · simp only [Option.some.injEq, Ended.mk.injEq] at h
        obtain ⟨rfl, rfl⟩ := h
        exact ⟨_, hd, nofun⟩
      · simp only [Option.some.injEq, Ended.mk.injEq] at h
        obtain ⟨rfl, rfl⟩ := h
        exact ⟨_, hd, nofun⟩
      · simp only [Option.some.injEq, Ended.mk.injEq] at h
        obtain ⟨rfl, rfl⟩ := h
        exact ⟨_, hd, nofun⟩
      · have hfit := hR.fits he
        refine payloadLoop_accounted hR rounds (d := { d with
          state := state, pipe := pipe, fetched := count, crc := d.crc.update (b :: bytes)
          dataSize := d.dataSize + (b :: bytes).length
          decodedTotal := d.decodedTotal + (b :: bytes).length
          outputs := d.outputs ++ [b :: bytes] }) ⟨?_, ?_, ?_⟩ h
        · simp [hd.outputs]
        · exact not_lt.mp h2
        · intro l hl
          -- no byte is given when nothing remains, and else at most what remains
          have hb := hd.budget l hl
          rw [hl] at h0 hfit
          simp only [Option.map_some, Option.some.injEq, capacity, Option.elim_some] at h0 hfit
          simp only
          omega

/-- **A loop over a payload** ends well, after a round for each byte of the content and one more. -/
theorem payloadLoop_complete (hR : Decodes R L) (hM : Modest R L) {payload content left : List Byte}
    (hp : L dictionary payload content) (hs : p.rest = payload ++ left) (ht : trailerSize ≤ left.length)
    (hlen : content.length ≤ u64Max) :
    ∀ (rounds : ℕ) {d : Decoding R} {fetched given : List Byte},
      Midway dictionary p outputs fetched given d → given <+: content →
      content.length < rounds + given.length →
      d.decodedTotal + (content.length - given.length) ≤ u64Max →
      Within (d.decodedTotal + (content.length - given.length)) maximum →
      ∃ outs d', payloadLoop R maximum rounds d = some ⟨outs, .ok d'⟩ ∧
        (R.unread d'.state).length ≤ maxStaged ∧
        d'.decodedTotal = d.decodedTotal + (content.length - given.length)
  | 0, d, fetched, given, hd, hg, hrounds, htotal, hw => by
    have := hg.length_le
    omega
  | rounds + 1, d, fetched, given, hd, hg, hrounds, htotal, hw => by
    have hn := capacity_pos (maximum.map (· - d.decodedTotal))
    rw [payloadLoop]
    obtain ⟨more, met, hr, he, hm, hc, ha⟩ :=
      run_ends (R.read d.state (capacity (maximum.map (· - d.decodedTotal)))) d.pipe d.fetched
    generalize (R.read d.state (capacity (maximum.map (· - d.decodedTotal)))).run d.pipe d.fetched
      = result at hr he hm hc ha
    obtain ⟨⟨r, state⟩, pipe, count⟩ := result
    rw [hd.quiet, Bool.false_or] at hm
    simp only at hr he hm hc ha
    have hin : fetched ++ more ++ pipe.rest = payload ++ left := by
      rw [← hs, hd.split, hr, List.append_assoc]
    obtain rfl : met = false := hM.gives hp hin ht (hr ▸ hd.reading) hn he
    obtain ⟨bytes, rfl, hx⟩ := hR.gives hp hin (hr ▸ hd.reading) hn he
    simp only [hm, Bool.false_eq_true, if_false]
    match bytes, he, hx with
    | [], he, hx =>
      obtain ⟨payload', hd'⟩ := hd.decoded hR hn hr he hc ha
      obtain ⟨-, rfl⟩ := hR.unique hd'.language hp (hd'.split.symm.trans hs)
      exact ⟨_, _, rfl, hM.keeps (hr ▸ hd.reading) hn he, by simp⟩
    | b :: bytes, he, hx =>
      have hle := hx.length_le
      have hpos : 0 < (b :: bytes).length := Nat.succ_pos _
      rw [List.length_append] at hle
      have h0 : ¬ maximum.map (· - d.decodedTotal) = some 0 := by
        intro h0
        obtain ⟨l, hl, hz⟩ := Option.map_eq_some_iff.mp h0
        have := hw l hl
        omega
      have hdata := hd.dataSize
      simp only
      rw [if_neg h0, if_neg (by omega), if_neg (by omega)]
      obtain ⟨outs, d', ho, hu, htot⟩ := payloadLoop_complete hR hM hp hs ht hlen rounds
        (hd.step (d.decodedTotal + (b :: bytes).length) hn hr he nofun hm hc ha) hx
        (by rw [List.length_append]; omega)
        (by simp only [List.length_append]; omega)
        (by
          refine hw.mono ?_
          simp only [List.length_append]
          omega)
      refine ⟨outs, d', ho, hu, htot.trans ?_⟩
      simp only [List.length_append]
      omega

/-! ### Trailers -/

/-- What the trailer of a member says. -/
structure Closes (payload content trailer : List Byte) : Prop where
  length : trailer.length = trailerSize
  crc : leValue (window trailer 0 4) = (crc32 content).toNat
  data : leValue (window trailer 4 12) = content.length
  size : leValue (window trailer 12 20) = headerSize + payload.length + trailerSize

theorem Closes.le {payload content trailer : List Byte} (h : Closes payload content trailer) :
    content.length ≤ u64Max ∧ headerSize + payload.length + trailerSize ≤ u64Max := by
  have hwin : ∀ a b, b ≤ 20 → b - a = 8 → leValue (window trailer a b) ≤ u64Max := by
    intro a b hb hab
    have hv := leValue_lt (window trailer a b)
    rw [length_window_of_le (by rw [h.length]; exact hb), hab] at hv
    exact Nat.le_of_lt_succ hv
  exact ⟨h.data ▸ hwin 4 12 (by omega) rfl, h.size ▸ hwin 12 20 le_rfl rfl⟩

variable {payload content : List Byte} {d : Decoding R} {p' : InputPipe}

/-- What goes back is at most what may be kept. -/
theorem restore_le {bytes : List Byte} (h : p.restoreReadAhead bytes = .ok p') :
    p'.readAhead.length ≤ maxStaged := by
  unfold InputPipe.restoreReadAhead at h
  split_ifs at h with hl
  obtain rfl := Except.ok.inj h
  rw [List.length_append]
  omega

/-- **A member that is finished** has its trailer behind the payload. -/
theorem Decoded.finished (hd : Decoded L dictionary p outputs payload content d)
    (h : finishMember d = .ok p') :
    ∃ trailer, Closes payload content trailer ∧ p.rest = payload ++ (trailer ++ p'.rest) := by
  have hf := hd.fetched
  unfold finishMember at h
  simp only at h
  rw [if_neg (by omega)] at h
  cases hres : d.pipe.restoreReadAhead (R.unread d.state) with
  | error e => simp [hres] at h
  | ok pipe =>
    simp only [hres] at h
    cases hx : pipe.readExact trailerSize trailerSize with
    | none => simp [hx] at h
    | some found =>
      obtain ⟨trailer, q⟩ := found
      simp only [hx] at h
      split_ifs at h with hcrc hdata hover hsize
      obtain rfl := Except.ok.inj h
      obtain ⟨h1, h2⟩ := (readExact_ok _ _ _ le_rfl).1 hx
      rw [hd.crc] at hcrc
      rw [hd.dataSize] at hdata
      refine ⟨trailer, ⟨h2, (not_not.mp hcrc).symm, (not_not.mp hdata).symm, ?_⟩, ?_⟩
      · rw [← not_not.mp hsize]
        omega
      · rw [hd.split, ← rest_restore hres, h1]

/-- **A decoded payload with its trailer behind it** is finished. -/
theorem Decoded.finishes (hd : Decoded L dictionary p outputs payload content d)
    (hp : p.readAhead.length ≤ maxStaged) (hu : (R.unread d.state).length ≤ maxStaged)
    {trailer left : List Byte} (ht : Closes payload content trailer)
    (hs : p.rest = payload ++ (trailer ++ left)) :
    ∃ p', finishMember d = .ok p' ∧ p'.rest = left ∧ p'.readAhead.length ≤ maxStaged := by
  have hf := hd.fetched
  -- what is left of the bytes that were put back before lay behind the fetched ones
  have hfit : d.pipe.readAhead.length + (R.unread d.state).length ≤ maxStaged := by
    rcases hd.ahead with h | h
    · rw [h, List.length_nil]
      omega
    · omega
  obtain ⟨pipe, hres⟩ : ∃ pipe, d.pipe.restoreReadAhead (R.unread d.state) = .ok pipe := by
    unfold InputPipe.restoreReadAhead
    rw [if_neg (by omega)]
    exact ⟨_, rfl⟩
  have hrest : pipe.rest = trailer ++ left := by
    rw [rest_restore hres]
    exact List.append_cancel_left (hd.split.symm.trans hs)
  obtain ⟨hok, hsome⟩ := readExact_ok trailerSize pipe trailerSize le_rfl
  obtain ⟨⟨bytes, q⟩, hq⟩ := Option.isSome_iff_exists.mp (hsome (by
    rw [hrest, List.length_append, ht.length]
    omega))
  obtain ⟨h1, h2⟩ := hok hq
  obtain ⟨rfl, hleft⟩ := List.append_inj (h1.symm.trans hrest) (h2.trans ht.length.symm)
  refine ⟨q, ?_, hleft, (length_ahead_readExact hq).trans (restore_le hres)⟩
  unfold finishMember
  simp only [hres, hq]
  have hsize := ht.size
  have hle := ht.le.2
  rw [if_neg (by omega), if_neg, if_neg, if_neg (by omega), if_neg (by omega)]
  · rw [hd.dataSize, ht.data, ne_eq, not_not]
  · rw [hd.crc, ht.crc, ne_eq, not_not]
    rfl

/-! ### Sequences -/

variable {usage : ℕ → Except String ℕ}

/-- Limits on the decoded bytes only. -/
def decodedLimits (maximum : Option ℕ) : Limits := { Limits.unlimited with decodedTotal := maximum }

/-- The state in which the payload of a member is begun. -/
theorem Midway.start (outputs : List (List Byte)) (total : ℕ) {state : R.State} {pipe : InputPipe}
    {fetched : List Byte} {count : ℕ}
    (h : (R.new dictionary).Ends fetched pipe.rest (.ok state) false)
    (hr : p.rest = fetched ++ pipe.rest)
    (ha : pipe.readAhead = [] ∨ p.readAhead = fetched ++ pipe.readAhead)
    (hq : pipe.eofRead = false) (hc : count = fetched.length) :
    Midway dictionary p outputs fetched [] ⟨state, pipe, count, {}, 0, total, outputs⟩ where
  reading := .new h
  split := hr
  ahead := ha
  quiet := hq
  fetched := hc
  crc := rfl
  dataSize := rfl
  outputs := (List.append_nil _).symm

/-- **A worker that ends well** has read members, and its outputs are their contents. -/
theorem memberLoop_members (hR : Decodes R L) {rounds : ℕ} :
    ∀ (members : ℕ) {index total : ℕ} {outputs : List (List Byte)} {p : InputPipe},
      memberLoop R usage (decodedLimits maximum) rounds members index total outputs p
        = some ⟨outs, .ok ()⟩ →
      ∃ content, Sequence L p.rest content ∧ outs.flatten = outputs.flatten ++ content ∧
        (index = 0 → p.rest ≠ [])
  | 0, _, _, _, _, h => by simp [memberLoop] at h
  | members + 1, index, total, outputs, p, h => by
    rw [memberLoop] at h
    match hh : readMemberHeader p index, h with
    | .error e, h => simp at h
    | .ok (none, p'), h =>
      obtain ⟨hr, hi⟩ := readMemberHeader_none hh
      simp only [Option.some.injEq, Ended.mk.injEq, and_true] at h
      refine ⟨[], ?_, ?_, fun h0 => absurd h0 hi⟩
      · rw [hr]
        exact .nil
      · rw [← h, List.append_nil]
    | .ok (some dictionary, p'), h =>
      obtain ⟨code, hcode, hrest⟩ := readMemberHeader_some hh
      obtain ⟨fetched, met, hr, he, hm, hc, ha⟩ :=
        run_ends (R.new dictionary) { p' with eofRead := false } 0
      simp only [decodedLimits, Limits.unlimited, validateDictionaryMemory] at h
      generalize (R.new dictionary).run { p' with eofRead := false } 0 = result
        at h hr he hm hc ha
      match result, h, hr, he, hm, hc, ha with
      | (.error e, _, _), h, _, _, _, _, _ => simp at h
      | (.ok state, pipe, count), h, hr, he, hm, hc, ha =>
        simp only [Bool.false_or, Nat.zero_add] at h hr he hm hc ha
        match hl : payloadLoop R maximum rounds ⟨state, pipe, count, {}, 0, total, outputs⟩, h with
        | none, h => simp at h
        | some ⟨outs', .error e⟩, h => simp at h
        | some ⟨outs', .ok d⟩, h =>
          cases met with
          | true => exact absurd hl (payloadLoop_eof _ hm)
          | false =>
            obtain ⟨payload, content, hd, rfl⟩ :=
              payloadLoop_decoded hR rounds (Midway.start outputs total he hr ha hm hc) hl
            simp only at h
            match hf : finishMember d, h with
            | .error e, h => simp at h
            | .ok q, h =>
              simp only at h
              split_ifs at h
              · simp at h
              · obtain ⟨trailer, ht, hs⟩ := hd.finished hf
                obtain ⟨contents, hq, ho, -⟩ := memberLoop_members hR members h
                refine ⟨content ++ contents, ?_, ?_, ?_⟩
                · have hp : p'.rest = payload ++ (trailer ++ q.rest) := hs
                  have hmem := Member.intro hcode hd.language ht.length ht.crc ht.data ht.size
                  have := Sequence.cons hmem hq
                  rw [hrest, hp]
                  simpa [List.append_assoc] using this
                · rw [ho, hd.outputs, List.append_assoc]
                · intro _ hnil
                  simp [hrest, lzipMagic] at hnil

/-- **The outputs stay within the limits**, however the worker ends. -/
theorem memberLoop_accounted (hR : Decodes R L) {rounds : ℕ} :
    ∀ (members : ℕ) {index total : ℕ} {outputs : List (List Byte)} {p : InputPipe}
      {r : Except IoError Unit}, Accounted maximum outputs total →
      memberLoop R usage (decodedLimits maximum) rounds members index total outputs p
        = some ⟨outs, r⟩ →
      ∃ total, Accounted maximum outs total
  | 0, _, _, _, _, _, _, h => by simp [memberLoop] at h
  | members + 1, index, total, outputs, p, r, ha, h => by
    have hsame {e : Except IoError Unit} (h : some (Ended.mk outputs e) = some ⟨outs, r⟩) :
        ∃ total, Accounted maximum outs total := by
      simp only [Option.some.injEq, Ended.mk.injEq] at h
      exact ⟨total, h.1 ▸ ha⟩
    rw [memberLoop] at h
    match readMemberHeader p index, h with
    | .error e, h => exact hsame h
    | .ok (none, p'), h => exact hsame h
    | .ok (some dictionary, p'), h =>
      simp only [decodedLimits, Limits.unlimited, validateDictionaryMemory] at h
      generalize (R.new dictionary).run { p' with eofRead := false } 0 = result at h
      match result, h with
      | (.error e, _, _), h => exact hsame h
      | (.ok state, pipe, count), h =>
        simp only at h
        match hl : payloadLoop R maximum rounds ⟨state, pipe, count, {}, 0, total, outputs⟩, h with
        | none, h => simp at h
        | some ⟨outs', .error e⟩, h =>
          obtain ⟨total', ht, -⟩ := payloadLoop_accounted hR rounds ha hl
          simp only [Option.some.injEq, Ended.mk.injEq] at h
          exact ⟨total', h.1 ▸ ht⟩
        | some ⟨outs', .ok d⟩, h =>
          obtain ⟨total', ht, hd⟩ := payloadLoop_accounted hR rounds ha hl
          rw [← hd d rfl] at ht
          simp only at h
          match finishMember d, h with
          | .error e, h =>
            simp only [Option.some.injEq, Ended.mk.injEq] at h
            exact ⟨_, h.1 ▸ ht⟩
          | .ok q, h =>
            simp only at h
            split_ifs at h
            · simp only [Option.some.injEq, Ended.mk.injEq] at h
              exact ⟨_, h.1 ▸ ht⟩
            · exact memberLoop_accounted hR members ht h

/-- **A worker over members** ends well. -/
theorem memberLoop_complete (hR : Decodes R L) (hM : Modest R L) {input content : List Byte}
    (hs : Sequence L input content) {rounds : ℕ} :
    ∀ {members index total : ℕ} {outputs : List (List Byte)} {p : InputPipe},
      p.rest = input → p.readAhead.length ≤ maxStaged → (index = 0 → input ≠ []) →
      content.length < rounds → input.length < members → index + input.length ≤ u64Max →
      total + content.length ≤ u64Max → Within (total + content.length) maximum →
      ∃ outs, memberLoop R usage (decodedLimits maximum) rounds members index total outputs p
        = some ⟨outs, .ok ()⟩ := by
  induction hs with
  | nil =>
    intro members index total outputs p hp ha hi hrounds hmem hcount ht hw
    obtain ⟨members, rfl⟩ := Nat.exists_eq_add_one_of_ne_zero (Nat.ne_of_gt hmem)
    obtain ⟨p', hh⟩ := readMemberHeader_end hp (fun h0 => hi h0 rfl)
    rw [memberLoop, hh]
    exact ⟨_, rfl⟩
  | @cons member content members' contents hmember hs ih =>
    intro members index total outputs p hp ha hi hrounds hmem hcount ht hw
    obtain ⟨members, rfl⟩ := Nat.exists_eq_add_one_of_ne_zero (Nat.ne_of_gt (Nat.zero_lt_of_lt hmem))
    obtain @⟨code, dictionary, payload, _, trailer, hcode, hpay, hlen, hcrc, hdata, hsize⟩ := hmember
    have hclose : Closes payload content trailer := ⟨hlen, hcrc, hdata, hsize⟩
    simp only [List.length_append, List.length_cons, lzipMagic] at hmem hcount
    rw [List.length_append] at hrounds ht hw
    obtain ⟨p₁, hh, hrest, hahead⟩ := @readMemberHeader_member _ index _ _
      (payload ++ (trailer ++ members')) (by rw [hp]; simp) hcode
    rw [memberLoop, hh]
    simp only [decodedLimits, Limits.unlimited, validateDictionaryMemory]
    obtain ⟨fetched, met, hr, he, hm, hc, ha'⟩ :=
      run_ends (R.new dictionary) { p₁ with eofRead := false } 0
    generalize (R.new dictionary).run { p₁ with eofRead := false } 0 = result at hr he hm hc ha' ⊢
    obtain ⟨r, pipe, count⟩ := result
    simp only [Bool.false_or, Nat.zero_add] at hr he hm hc ha'
    have hstart : ({ p₁ with eofRead := false } : InputPipe).rest = payload ++ (trailer ++ members') := hrest
    have htrailer : trailerSize ≤ (trailer ++ members').length := by
      rw [List.length_append, hlen]
      exact Nat.le_add_right _ _
    obtain rfl : met = false := hM.opens hpay (hr.symm.trans hstart) htrailer he
    obtain ⟨state, rfl⟩ := hR.opens hpay (hr.symm.trans hstart) he
    have hmid := Midway.start outputs total he hr ha' hm hc
    obtain ⟨outs', d, hl, hu, htot⟩ := @payloadLoop_complete _ _ _ _ _ maximum hR hM _ _ _ hpay
      hstart htrailer hclose.le.1 rounds _ _ _ hmid (List.nil_prefix)
      (by simp only [List.length_nil]; omega) (by simp only [List.length_nil]; omega)
      (hw.mono (by simp only [List.length_nil]; omega))
    simp only [List.length_nil, Nat.sub_zero] at htot
    obtain ⟨payload', content', hd, rfl⟩ := payloadLoop_decoded hR rounds hmid hl
    obtain ⟨rfl, rfl⟩ := hR.unique hd.language hpay (hd.split.symm.trans hstart)
    obtain ⟨p₂, hf, hleft, hahead₂⟩ := hd.finishes (hahead.trans ha) hu hclose hstart
    simp only [hl, hf]
    rw [if_neg (by omega)]
    exact ih hleft hahead₂ nofun (by omega) (by omega) (by omega) (by omega)
      (hw.mono (by omega))

end LibarchiveOxide.Filter.Lzip
