import LibarchiveOxide.Async.FilterReader

/-! # Data behind the stream

A codec decodes the first `m` bytes of a source (`Delivers`). The reader around it delivers what the codec puts
out and then looks for one byte more. What the codec reader has read from the source but not given to its
codec is gone by then, so that the look sees the bytes behind the stream only if the source has not been read
to its end. -/

namespace LibarchiveOxide.Async.Trailing

open Core.Failure Core.Protocol Stream.Event Async.Writer Async.FilterReader

variable {κ φ : Type}

/-! ### Codecs -/

/-- A codec has consumed so many bytes of `s` and put out some bytes. It is called with the bytes that
follow, or the first of them; a codec that has reported its end without output is not called again. -/
inductive Reaches (cs : Codecs κ) (s : List Byte) (start : κ) : ℕ → List Byte → κ → Prop
  | start : Reaches cs s start 0 [] start
  | step {c : ℕ} {out window behind : List Byte} {k k' : κ} {room : ℕ} {last : EndOfInput} {step : CodecStep} :
      Reaches cs s start c out k → s.drop c = window ++ behind → (last = .end → behind = []) → 0 < room →
      cs.pollProcess k window room last = (.ok (some step), k') →
      step.validate window.length room = .ok step → (step.status = .done → step.produced ≠ []) →
      Reaches cs s start (c + step.consumed) (out ++ step.produced) k'

/-- A step of a codec that decodes `m` bytes to `out`. -/
structure Sound (s : List Byte) (m : ℕ) (out : List Byte) (c : ℕ) (before window : List Byte)
    (last : EndOfInput) (step : CodecStep) : Prop where
  consumed : c + step.consumed ≤ m
  produced : before ++ step.produced <+: out
  done : step.status = .done → c + step.consumed = m ∧ before ++ step.produced = out
  asks : step.status = .needInput → step.produced = [] →
    step.consumed = window.length ∧ (last = .more ∨ s.length < m)

/-- **A codec that decodes the first `m` bytes of `s`** to `out`, however they are cut: it reports its end once
it has consumed them and put out everything, and asks for more input only if it has consumed what it was
given. It fails only if there are fewer bytes. -/
def Delivers (cs : Codecs κ) (start : κ) (s : List Byte) (m : ℕ) (out : List Byte) : Prop :=
  ∀ {c before k window behind room last}, Reaches cs s start c before k → s.drop c = window ++ behind →
    (last = .end → behind = []) → 0 < room →
    (∃ step k', cs.pollProcess k window room last = (.ok (some step), k') ∧
      step.validate window.length room = .ok step ∧ Sound s m out c before window last step) ∨
    (s.length < m ∧ ∃ e k', cs.pollProcess k window room last = (.error e, k'))

/-! ### Sources -/

variable {room : ℕ}

/-- A source that does not fail and does not keep the reader waiting for ever. -/
structure Answers (answers : ℕ → Answer ℕ) : Prop where
  ok : ∀ i e, answers i ≠ .ready (.error e)
  live : ∀ i, ∃ j ≥ i, answers j ≠ .pending

theorem Answers.tail {answers : ℕ → Answer ℕ} (h : Answers answers) : Answers fun i => answers (i + 1) where
  ok i := h.ok (i + 1)
  live i := by
    obtain ⟨j, hj, hne⟩ := h.live (i + 1)
    refine ⟨j - 1, by omega, ?_⟩
    rwa [Nat.sub_add_cancel (by omega)]

/-- The answers have been waited for. -/
def Sooner (s s' : Source) : Prop := ∀ w, s.answers w ≠ .pending → ∃ w' < w, s'.answers w' ≠ .pending

/-- **A poll of a source**: it keeps the reader waiting, or reads at least a byte before the end. -/
theorem source_poll {s : Source} (h : Answers s.answers) (hroom : 0 < room) :
    (∃ s', s.pollRead room = (.pending, s') ∧ s'.rest = s.rest ∧ Answers s'.answers ∧ Sooner s s') ∨
    ∃ bytes s', s.pollRead room = (.ready (.ok bytes), s') ∧ s.rest = bytes ++ s'.rest ∧
      (bytes = [] → s.rest = []) ∧ bytes.length ≤ room ∧ Answers s'.answers := by
  unfold Source.pollRead
  cases ha : s.answers 0 with
  | pending =>
    refine .inl ⟨_, rfl, rfl, h.tail, fun w hw => ?_⟩
    have hpos : w ≠ 0 := fun h0 => hw (h0 ▸ ha)
    refine ⟨w - 1, by omega, ?_⟩
    change s.answers (w - 1 + 1) ≠ .pending
    rwa [Nat.sub_add_cancel (by omega)]
  | ready result =>
    cases result with
    | error e => exact absurd ha (h.ok 0 e)
    | ok n =>
      refine .inr ⟨_, _, rfl, (List.take_append_drop _ _).symm, fun hnil => ?_, ?_, h.tail⟩
      · rcases List.take_eq_nil_iff.mp hnil with h0 | h0
        · omega
        · exact h0
      · rw [List.length_take]
        omega

/-- An input of `total` bytes that has no bytes buffered. -/
structure Ready (total : ℕ) (b : Buffered) : Prop where
  bytes : b.bytes = []
  answers : Answers b.input.input.answers
  physical : b.input.physicalRead + b.input.input.rest.length = total

/-- The bytes that an input still yields. -/
def left (b : Buffered) : List Byte := b.input.ahead ++ b.input.input.rest

/-- The work that is left: a byte of the source is read, given to the codec and consumed. -/
def work (b : Buffered) : ℕ := 3 * b.input.input.rest.length + 2 * b.input.ahead.length

variable {total : ℕ} {b : Buffered}

/-- **A poll of an input.** -/
theorem buffered_poll (h : Ready total b) (htotal : total ≤ u64Max) (hroom : 0 < room) :
    (∃ b', b.pollRead room = (.pending, b') ∧ Ready total b' ∧ b'.input.ahead = [] ∧ b.input.ahead = [] ∧
      b'.input.input.rest = b.input.input.rest ∧ Sooner b.input.input b'.input.input) ∨
    ∃ bytes b', b.pollRead room = (.ready (.ok bytes), b') ∧ Ready total b' ∧ left b = bytes ++ left b' ∧
      (bytes = [] → left b = []) ∧ work b' + 2 * bytes.length ≤ work b ∧
      (b.input.ahead.length ≤ room → b'.input.ahead = []) := by
  unfold Buffered.pollRead
  rw [if_neg hroom.ne', if_neg (not_not.mpr h.bytes)]
  unfold PrefixReader.pollRead
  rw [if_neg hroom.ne']
  by_cases hahead : b.input.ahead ≠ []
  · rw [if_pos hahead]
    have hlen : (b.input.ahead.take room).length + (b.input.ahead.drop room).length = b.input.ahead.length := by
      rw [← List.length_append, List.take_append_drop]
    refine .inr ⟨_, _, rfl, ⟨h.bytes, h.answers, h.physical⟩, ?_, fun hnil => ?_, ?_, ?_⟩
    · simp [left, ← List.append_assoc]
    · rcases List.take_eq_nil_iff.mp hnil with h0 | h0
      · omega
      · exact absurd h0 hahead
    · simp only [work]
      omega
    · exact List.drop_eq_nil_of_le
  · rw [if_neg hahead]
    rw [not_not] at hahead
    rcases source_poll h.answers hroom with ⟨s', hs, hrest, hans, hsooner⟩ | ⟨bytes, s', hs, hrest, hnil, -, hans⟩
    · rw [hs]
      refine .inl ⟨_, rfl, ⟨h.bytes, hans, ?_⟩, hahead, hahead, hrest, hsooner⟩
      change b.input.physicalRead + s'.rest.length = total
      rw [hrest, h.physical]
    · have hlen := congrArg List.length hrest
      rw [List.length_append] at hlen
      have hphysical := h.physical
      rw [hs]
      refine .inr ⟨bytes, _, rfl, ⟨h.bytes, hans, ?_⟩, ?_, fun h0 => ?_, ?_, fun _ => hahead⟩
      · change min (b.input.physicalRead + bytes.length) u64Max + s'.rest.length = total
        omega
      · simp [left, hahead, hrest]
      · rw [left, hahead, hnil h0]
        rfl
      · simp only [work]
        omega

/-! ### The codec reader -/

section Reader

variable {cs : Codecs κ} {s : List Byte} {start : κ} {m : ℕ} {out o : List Byte} {r : AsyncCodecReader κ}

/-- The reader has put out `o`; what its codec has not consumed is in its buffer or still to be read. -/
structure Stands (cs : Codecs κ) (s : List Byte) (start : κ) (out o : List Byte) (r : AsyncCodecReader κ) :
    Prop where
  reaches : ∃ c, Reaches cs s start c o r.codec ∧ s.drop c = r.compressed ++ left r.input ∧ c ≤ s.length
  prefix_out : o <+: out
  ready : Ready s.length r.input
  eof : r.eof = true → r.compressed = [] ∧ left r.input = []
  ahead : r.input.input.ahead ≠ [] → r.compressed = [] ∧ r.eof = false
  short : r.input.input.ahead.length ≤ PREFIX
  done : r.done = false

/-- The work that is left. -/
def weight (out o : List Byte) (r : AsyncCodecReader κ) : ℕ :=
  work r.input + r.compressed.length + (if r.eof then 0 else 1) + (out.length - o.length)

/-- There is less work, or less to wait for. -/
def Nearer (before after : ℕ × Source) : Prop :=
  after.1 < before.1 ∨ after.1 = before.1 ∧ Sooner before.2 after.2

theorem Nearer.back {a b c : ℕ × Source} (hless : b.1 < a.1) (h : Nearer b c) : Nearer a c := by
  rcases h with hlt | ⟨heq, -⟩
  · exact .inl (lt_trans hlt hless)
  · exact .inl (heq.trans_lt hless)

/-- The reader with the source that it reads. -/
def place (out o : List Byte) (r : AsyncCodecReader κ) : ℕ × Source := (weight out o r, r.input.input.input)

/-- **A fill** reads from the source if there is nothing for the codec. -/
theorem fill_spec (h : Stands cs s start out o r) (hs : s.length ≤ u64Max) :
    (∃ r', r.fill = (.pending, r') ∧ Stands cs s start out o r' ∧ Nearer (place out o r) (place out o r')) ∨
    ∃ r', r.fill = (.ready (.ok ()), r') ∧ Stands cs s start out o r' ∧ r'.input.input.ahead = [] ∧
      (r'.compressed ≠ [] ∨ r'.eof = true) ∧ (r' = r ∨ weight out o r' < weight out o r) := by
  unfold AsyncCodecReader.fill
  by_cases hc : r.compressed = [] ∧ r.eof = false
  · rw [if_pos hc]
    obtain ⟨hnil, heof⟩ := hc
    obtain ⟨c, hreach, hdrop, hle⟩ := h.reaches
    rw [hnil, List.nil_append] at hdrop
    rcases buffered_poll h.ready hs (show 0 < BUFFER by decide) with
      ⟨b', hpoll, hready, hahead', hahead, hrest, hsooner⟩ |
      ⟨bytes, b', hpoll, hready, hleft, hend, hwork, hall⟩
    · left
      rw [hpoll]
      have hsame : left b' = left r.input := by rw [left, left, hahead, hahead', hrest]
      refine ⟨_, rfl, ⟨⟨c, hreach, ?_, hle⟩, h.prefix_out, hready, fun he => ?_, fun he => ?_, ?_, h.done⟩,
        .inr ⟨?_, hsooner⟩⟩
      · change s.drop c = r.compressed ++ left b'
        rw [hnil, hsame, hdrop, List.nil_append]
      · rw [heof] at he
        cases he
      · exact absurd hahead' he
      · change b'.input.ahead.length ≤ PREFIX
        rw [hahead']
        exact Nat.zero_le _
      · simp only [place, weight, work, hahead, hahead', hrest]
    · right
      have hgone : b'.input.ahead = [] := hall (h.short.trans (by decide))
      rw [hpoll]
      cases bytes with
      | nil =>
        have hnone := hend rfl
        rw [hnone, List.nil_append] at hleft
        refine ⟨_, rfl, ⟨⟨c, hreach, ?_, hle⟩, h.prefix_out, hready, fun _ => ⟨hnil, hleft.symm⟩,
          fun he => absurd hgone he, ?_, h.done⟩, hgone, .inr rfl, .inr ?_⟩
        · change s.drop c = r.compressed ++ left b'
          rw [hnil, ← hleft, hdrop, hnone, List.nil_append]
        · change b'.input.ahead.length ≤ PREFIX
          rw [hgone]
          exact Nat.zero_le _
        · rw [List.length_nil] at hwork
          simp only [weight, heof, hnil, List.length_nil, if_true]
          simp
          omega
      | cons byte bytes =>
        refine ⟨_, rfl, ⟨⟨c, hreach, ?_, hle⟩, h.prefix_out, hready, fun he => ?_,
          fun he => absurd hgone he, ?_, h.done⟩, hgone, .inl (List.cons_ne_nil _ _), .inr ?_⟩
        · change s.drop c = (byte :: bytes) ++ left b'
          rw [hdrop, hleft]
        · rw [heof] at he
          cases he
        · change b'.input.ahead.length ≤ PREFIX
          rw [hgone]
          exact Nat.zero_le _
        · rw [List.length_cons] at hwork
          simp only [weight, hnil, List.length_nil, List.length_cons]
          omega
  · rw [if_neg hc]
    refine .inr ⟨r, rfl, h, ?_, ?_, .inl rfl⟩
    · by_contra hne
      exact hc (h.ahead hne)
    · cases he : r.eof with
      | true => exact .inr rfl
      | false => exact .inl fun hnil => hc ⟨hnil, he⟩

/-- The codec has reported its end: the source has been read up to somewhere behind the stream. -/
structure Ended (s : List Byte) (m : ℕ) (input : Buffered) : Prop where
  ready : Ready s.length input
  ahead : input.input.ahead = []
  le : m ≤ s.length
  rest : input.input.input.rest.length ≤ s.length - m

/-- What a poll of the codec reader answers. -/
inductive After (cs : Codecs κ) (s : List Byte) (start : κ) (m : ℕ) (out o : List Byte)
    (r : AsyncCodecReader κ) : Poll (List Byte) → AsyncCodecReader κ → Prop
  | pending {r' : AsyncCodecReader κ} : Stands cs s start out o r' →
      Nearer (place out o r) (place out o r') → After cs s start m out o r .pending r'
  | data {bytes : List Byte} {r' : AsyncCodecReader κ} : bytes ≠ [] → Stands cs s start out (o ++ bytes) r' →
      weight out (o ++ bytes) r' < weight out o r → After cs s start m out o r (.ready (.ok bytes)) r'
  | ended {r' : AsyncCodecReader κ} : o = out → Ended s m r'.input →
      After cs s start m out o r (.ready (.ok [])) r'
  | failed {e : Raised} {r' : AsyncCodecReader κ} : s.length < m →
      After cs s start m out o r (.ready (.error e)) r'

/-- What a step leaves behind. -/
def stepped (r : AsyncCodecReader κ) (k : κ) (step : CodecStep) : AsyncCodecReader κ :=
  { r with codec := k, compressed := r.compressed.drop step.consumed }

theorem stands_stepped {step : CodecStep} {k : κ} (h : Stands cs s start out o r)
    (hahead : r.input.input.ahead = []) (hroom : 0 < room)
    (hpoll : cs.pollProcess r.codec r.compressed room r.endOfInput = (.ok (some step), k))
    (hvalid : step.validate r.compressed.length room = .ok step) (hout : o ++ step.produced <+: out)
    (hdone : step.status = .done → step.produced ≠ []) :
    Stands cs s start out (o ++ step.produced) (stepped r k step) ∧
      weight out (o ++ step.produced) (stepped r k step) + step.consumed + step.produced.length =
        weight out o r := by
  obtain ⟨c, hreach, hdrop, hle⟩ := h.reaches
  obtain ⟨-, hconsumed, -⟩ := validate_eq_ok hvalid
  have hlen := congrArg List.length hdrop
  rw [List.length_drop, List.length_append] at hlen
  have hlast (he : r.endOfInput = .end) : left r.input = [] := by
    unfold AsyncCodecReader.endOfInput at he
    split_ifs at he with heof
    exact (h.eof heof).2
  constructor
  · refine ⟨⟨c + step.consumed, hreach.step hdrop hlast hroom hpoll hvalid hdone, ?_, by omega⟩, hout, h.ready,
      fun he => ?_, fun hne => absurd hahead hne, h.short, h.done⟩
    · rw [← List.drop_drop, hdrop, List.drop_append_of_le_length hconsumed]
      rfl
    · obtain ⟨hnil, hleft⟩ := h.eof he
      refine ⟨?_, hleft⟩
      change r.compressed.drop step.consumed = []
      rw [hnil, List.drop_nil]
  · have hbound := hout.length_le
    rw [List.length_append] at hbound
    change work r.input + (r.compressed.drop step.consumed).length + (if r.eof then 0 else 1) +
      (out.length - (o ++ step.produced).length) + step.consumed + step.produced.length = weight out o r
    rw [weight, List.length_drop, List.length_append]
    omega

/-- A step without output has consumed something, or has been given nothing. -/
theorem settle_spec {step : CodecStep} {k : κ} {c : ℕ} (h : Stands cs s start out o r)
    (hahead : r.input.input.ahead = []) (hready : r.compressed ≠ [] ∨ r.eof = true)
    (hroom : 0 < room) (hdrop : s.drop c = r.compressed ++ left r.input) (hle : c ≤ s.length)
    (hpoll : cs.pollProcess r.codec r.compressed room r.endOfInput = (.ok (some step), k))
    (hvalid : step.validate r.compressed.length room = .ok step)
    (hsound : Sound s m out c o r.compressed r.endOfInput step) :
    (∃ r', (stepped r k step).settle step = (none, r') ∧ Stands cs s start out o r' ∧
      weight out o r' < weight out o r) ∨
    ∃ answer r', (stepped r k step).settle step = (some answer, r') ∧
      After cs s start m out o r answer r' := by
  unfold AsyncCodecReader.settle
  by_cases hp : step.produced ≠ []
  · rw [if_pos hp]
    obtain ⟨hstands, hweight⟩ := stands_stepped h hahead hroom hpoll hvalid hsound.produced fun _ => hp
    have hpos := List.length_pos_iff.mpr hp
    exact .inr ⟨_, _, rfl, .data hp hstands (by omega)⟩
  rw [not_not] at hp
  rw [if_neg (not_not.mpr hp)]
  obtain ⟨-, hconsumed, -, hmoves⟩ := validate_eq_ok hvalid
  by_cases hd : step.status = .done
  · rw [if_pos hd]
    obtain ⟨hm, hout⟩ := hsound.done hd
    rw [hp, List.append_nil] at hout
    have hlen := congrArg List.length hdrop
    rw [List.length_drop, List.length_append, left, hahead, List.nil_append] at hlen
    refine .inr ⟨_, _, rfl, .ended hout ⟨h.ready, hahead, ?_, ?_⟩⟩
    · omega
    · change r.input.input.input.rest.length ≤ _
      omega
  rw [if_neg hd]
  obtain ⟨hstands, hweight⟩ := stands_stepped h hahead hroom hpoll hvalid hsound.produced
    fun hd' => absurd hd' hd
  rw [hp, List.append_nil] at hstands hweight
  rw [List.length_nil] at hweight
  by_cases hneed : step.status = .needInput
  · obtain ⟨hall, hmore⟩ := hsound.asks hneed hp
    have hnil : (stepped r k step).compressed = [] := List.drop_eq_nil_of_le hall.ge
    cases he : r.eof with
    | false =>
      have hpos := List.length_pos_iff.mpr (hready.resolve_right (by simp [he]))
      rw [if_pos ⟨hneed, hnil, he⟩]
      exact .inl ⟨_, rfl, hstands, by omega⟩
    | true =>
      have hshort : s.length < m := by
        refine hmore.resolve_left fun hm => ?_
        rw [AsyncCodecReader.endOfInput, if_pos he] at hm
        cases hm
      have hnot : ¬ (stepped r k step).eof = false := by
        rw [stepped, he]
        exact Bool.noConfusion
      rw [if_neg (fun hx => hnot hx.2.2), if_neg (fun hx => by rw [hneed] at hx; cases hx.1),
        if_pos ⟨hneed, he⟩]
      exact .inr ⟨_, _, rfl, .failed hshort⟩
  · have hwant : step.status = .needOutput := by
      cases hst : step.status with
      | needInput => exact absurd hst hneed
      | needOutput => rfl
      | done => exact absurd hst hd
    have hzero : step.consumed ≠ 0 := fun h0 => hneed (hmoves hroom h0 hp hd).1
    rw [if_neg (fun hx => hneed hx.1), if_pos ⟨hwant, hzero⟩]
    exact .inl ⟨_, rfl, hstands, by omega⟩

/-- **A call of the codec.** -/
theorem process_spec (hdel : Delivers cs start s m out) (h : Stands cs s start out o r)
    (hahead : r.input.input.ahead = []) (hready : r.compressed ≠ [] ∨ r.eof = true)
    (hroom : 0 < room) :
    (∃ r', r.process cs room = (none, r') ∧ Stands cs s start out o r' ∧ weight out o r' < weight out o r) ∨
    ∃ answer r', r.process cs room = (some answer, r') ∧ After cs s start m out o r answer r' := by
  obtain ⟨c, hreach, hdrop, hle⟩ := h.reaches
  have hlast (he : r.endOfInput = .end) : left r.input = [] := by
    unfold AsyncCodecReader.endOfInput at he
    split_ifs at he with heof
    exact (h.eof heof).2
  unfold AsyncCodecReader.process
  rcases hdel hreach hdrop hlast hroom with ⟨step, k', hpoll, hvalid, hsound⟩ | ⟨hlt, e, k', hpoll⟩
  · rw [hpoll]
    simp only [hvalid]
    exact settle_spec h hahead hready hroom hdrop hle hpoll hvalid hsound
  · rw [hpoll]
    exact .inr ⟨_, _, rfl, .failed hlt⟩

/-- An account from a place with no more work is an account from the place before. -/
theorem After.back {r₀ r' : AsyncCodecReader κ} {answer : Poll (List Byte)}
    (hr : r = r₀ ∨ weight out o r < weight out o r₀) (h : After cs s start m out o r answer r') :
    After cs s start m out o r₀ answer r' := by
  rcases hr with rfl | hr
  · exact h
  · cases h with
    | pending hstands hnearer => exact .pending hstands (hnearer.back hr)
    | data hne hstands hlt => exact .data hne hstands (lt_trans hlt hr)
    | ended hout hended => exact .ended hout hended
    | failed hlt => exact .failed hlt

/-- **The loop of the codec reader.** -/
theorem pollLoop_spec (hdel : Delivers cs start s m out) (hs : s.length ≤ u64Max)
    (hroom : 0 < room) : ∀ (rounds : ℕ) {r r' : AsyncCodecReader κ} {answer : Poll (List Byte)},
    Stands cs s start out o r → r.pollLoop cs room rounds = some (answer, r') →
    After cs s start m out o r answer r'
  | 0, _, _, _, _, hloop => by cases hloop
  | rounds + 1, r, r', answer, h, hloop => by
    rw [AsyncCodecReader.pollLoop] at hloop
    rcases fill_spec h hs with ⟨r1, hfill, hstands, hnearer⟩ | ⟨r1, hfill, hstands, hahead, hready, hless⟩
    · rw [hfill] at hloop
      cases hloop
      exact .pending hstands hnearer
    · rw [hfill] at hloop
      simp only at hloop
      rcases process_spec hdel hstands hahead hready hroom with
        ⟨r2, hprocess, hstands2, hless2⟩ | ⟨answer', r2, hprocess, hafter⟩
      · rw [hprocess] at hloop
        have hafter := pollLoop_spec hdel hs hroom rounds hstands2 hloop
        exact (hafter.back (.inr hless2)).back hless
      · rw [hprocess] at hloop
        cases hloop
        exact hafter.back hless

/-- **A poll of the codec reader.** -/
theorem pollRead_spec (hdel : Delivers cs start s m out) (hs : s.length ≤ u64Max) (hroom : 0 < room)
    (h : Stands cs s start out o r) :
    After cs s start m out o r (r.pollRead cs room).1 (r.pollRead cs room).2 := by
  have hnot : ¬ (room = 0 ∨ r.done = true) := by
    rintro (h0 | hd)
    · omega
    · rw [h.done] at hd
      cases hd
  rw [AsyncCodecReader.pollRead, if_neg hnot]
  exact pollLoop_spec hdel hs hroom _ h (Option.some_get _).symm

end Reader

/-! ### The detection -/

/-- The prefix has been read up to here. -/
structure Finds (s : List Byte) (input : Source) (found : List Byte) (eof : Bool) : Prop where
  bytes : s = found ++ input.rest
  short : found.length ≤ PREFIX
  eof : eof = true → input.rest = []
  answers : Answers input.answers

/-- The work that is left of the detection. -/
def finding (input : Source) (found : List Byte) (eof : Bool) : ℕ :=
  3 * input.rest.length + 2 * found.length + (if eof then 0 else 1)

/-- **The loop of the detection.** -/
theorem prefixLoop_spec {s : List Byte} : ∀ (rounds : ℕ) {input : Source} {found : List Byte} {eof : Bool},
    (eof = true ∨ PREFIX + 1 ≤ rounds + found.length) → Finds s input found eof →
    (∃ input' found' eof', prefixLoop rounds input found eof = (.pending, input', found', eof') ∧
      Finds s input' found' eof' ∧
      Nearer (finding input found eof, input) (finding input' found' eof', input')) ∨
    ∃ input' eof', prefixLoop rounds input found eof = (.ready (.ok ()), input', s.take PREFIX, eof') ∧
      Finds s input' (s.take PREFIX) eof' ∧
      finding input' (s.take PREFIX) eof' ≤ finding input found eof
  | rounds, input, found, eof, hrounds, h => by
    by_cases hstop : found.length = PREFIX ∨ eof = true
    · have htake : s.take PREFIX = found := by
        rw [h.bytes]
        rcases hstop with hlen | he
        · rw [← hlen, List.take_left]
        · rw [h.eof he, List.append_nil, List.take_of_length_le h.short]
      have hloop : prefixLoop rounds input found eof = (.ready (.ok ()), input, found, eof) := by
        cases rounds with
        | zero => rfl
        | succ rounds => rw [prefixLoop, if_pos hstop]
      right
      rw [htake]
      exact ⟨input, eof, hloop, h, le_rfl⟩
    · rw [not_or] at hstop
      obtain ⟨hlen, he⟩ := hstop
      have hshort := h.short
      cases rounds with
      | zero =>
        rw [Bool.not_eq_true] at he
        rw [he] at hrounds
        rcases hrounds with h0 | h0
        · cases h0
        · omega
      | succ rounds =>
        have hroom : 0 < PREFIX - found.length := by omega
        rw [prefixLoop, if_neg (not_or.mpr ⟨hlen, he⟩)]
        rw [Bool.not_eq_true] at he
        rcases source_poll h.answers hroom with
          ⟨input', hpoll, hrest, hans, hsooner⟩ | ⟨bytes, input', hpoll, hrest, hnil, hle, hans⟩
        · rw [hpoll]
          refine .inl ⟨input', found, eof, rfl, ⟨?_, hshort, fun ht => ?_, hans⟩, .inr ⟨?_, hsooner⟩⟩
          · rw [hrest]
            exact h.bytes
          · rw [he] at ht
            cases ht
          · simp only [finding, hrest]
        · rw [hpoll]
          have hcount := congrArg List.length hrest
          rw [List.length_append] at hcount
          cases bytes with
          | nil =>
            have hnone : input'.rest = [] := by rw [← hnil rfl, hrest, List.nil_append]
            have hfinds : Finds s input' found true := by
              refine ⟨?_, hshort, fun _ => hnone, hans⟩
              rw [hnone, ← hnil rfl]
              exact h.bytes
            have hless : finding input' found true < finding input found eof := by
              simp only [finding, he, hnone, hnil rfl, List.length_nil]
              simp
            rcases prefixLoop_spec rounds (.inl rfl) hfinds with
              ⟨input2, found2, eof2, hloop, hfinds2, hnearer⟩ | ⟨input2, eof2, hloop, hfinds2, hle2⟩
            · exact .inl ⟨input2, found2, eof2, hloop, hfinds2, hnearer.back hless⟩
            · exact .inr ⟨input2, eof2, hloop, hfinds2, hle2.trans hless.le⟩
          | cons byte bytes =>
            have hfinds : Finds s input' (found ++ byte :: bytes) eof := by
              refine ⟨?_, ?_, fun ht => ?_, hans⟩
              · rw [h.bytes, hrest, List.append_assoc]
              · rw [List.length_append]
                omega
              · rw [he] at ht
                cases ht
            have hless : finding input' (found ++ byte :: bytes) eof < finding input found eof := by
              rw [List.length_cons] at hcount
              simp only [finding, List.length_append, List.length_cons]
              omega
            have hmore : PREFIX + 1 ≤ rounds + (found ++ byte :: bytes).length := by
              rcases hrounds with h0 | h0
              · rw [he] at h0
                cases h0
              · rw [List.length_append, List.length_cons]
                omega
            rcases prefixLoop_spec rounds (.inr hmore) hfinds with
              ⟨input2, found2, eof2, hloop, hfinds2, hnearer⟩ | ⟨input2, eof2, hloop, hfinds2, hle2⟩
            · exact .inl ⟨input2, found2, eof2, hloop, hfinds2, hnearer.back hless⟩
            · exact .inr ⟨input2, eof2, hloop, hfinds2, hle2.trans hless.le⟩

/-! ### Polls -/

section Polls

variable {cs : Codecs κ} {foreign : Foreign φ} {s : List Byte} {start : κ} {m : ℕ} {out o : List Byte}
  {f : FilterId}

/-- The filter is one that `AsyncCodecReader` decodes. -/
def Coded (f : FilterId) : Prop := f ≠ .gzip ∧ f ≠ .bzip2

/-- The reader has put out `o` and is at some place: before the detection, while the codec runs, or behind. -/
inductive Phase (cs : Codecs κ) (s : List Byte) (start : κ) (m : ℕ) (out : List Byte) (f : FilterId) :
    List Byte → ReaderInner κ φ → ℕ × Source → Prop
  | detecting {input : Source} {found : List Byte} {eof : Bool} : Finds s input found eof →
      Phase cs s start m out f [] (.detecting (some input) found eof)
        (finding input found eof + out.length + 3, input)
  | decoding {o : List Byte} {r : AsyncCodecReader κ} : Stands cs s start out o r →
      Phase cs s start m out f o (.selected (.codec f r)) (weight out o r + 1, r.input.input.input)
  | finished {input : Buffered} : Ended s m input →
      Phase cs s start m out f out (.selected (.finished input f)) (0, input.input.input)

variable {inner : ReaderInner κ φ} {p : ℕ × Source}

theorem Phase.prefix_out (h : Phase cs s start m out f o inner p) : o <+: out := by
  cases h with
  | detecting => exact List.nil_prefix
  | decoding hstands => exact hstands.prefix_out
  | finished => exact List.prefix_rfl

theorem Phase.answers (h : Phase cs s start m out f o inner p) : Answers p.2.answers := by
  cases h with
  | detecting hfinds => exact hfinds.answers
  | decoding hstands => exact hstands.ready.answers
  | finished hended => exact hended.ready.answers

/-- What the rounds up to the end of the decoder lead to. -/
inductive Decoded (cs : Codecs κ) (s : List Byte) (start : κ) (m : ℕ) (out : List Byte) (f : FilterId)
    (o : List Byte) (p : ℕ × Source) :
    Except (Answer (List Byte) × ReaderInner κ φ) (Buffered × FilterId) → Prop
  | ended {input : Buffered} : o = out → Ended s m input → 0 < p.1 ∨ p = (0, input.input.input) →
      Decoded cs s start m out f o p (.ok (input, f))
  | pending {inner : ReaderInner κ φ} {p' : ℕ × Source} : Phase cs s start m out f o inner p' →
      Nearer p p' → Decoded cs s start m out f o p (.error (.pending, inner))
  | data {bytes : List Byte} {inner : ReaderInner κ φ} {p' : ℕ × Source} : bytes ≠ [] →
      Phase cs s start m out f (o ++ bytes) inner p' → p'.1 < p.1 →
      Decoded cs s start m out f o p (.error (.ready (.ok bytes), inner))
  | failed {e : IoError} {inner : ReaderInner κ φ} : s.length < m →
      Decoded cs s start m out f o p (.error (.ready (.error e), inner))

/-- **The codec reader** in the rounds. -/
theorem decode_codec (hdel : Delivers cs start s m out) (hs : s.length ≤ u64Max) (hroom : 0 < room)
    {r : AsyncCodecReader κ} (h : Stands cs s start out o r)
    (hp : p = (weight out o r + 1, r.input.input.input) ∨ weight out o r + 1 < p.1) :
    Decoded cs s start m out f o p (((Selected.codec f r : Selected κ φ).decode cs foreign room).mapError
      fun x => (x.1, .selected x.2)) := by
  have hafter := pollRead_spec hdel hs hroom h
  rw [Selected.decode]
  obtain ⟨⟨answer, r'⟩, hread⟩ : ∃ x, r.pollRead cs room = x := ⟨_, rfl⟩
  rw [hread] at hafter ⊢
  cases hafter with
  | pending hstands hnearer =>
    have hnear : Nearer (weight out o r + 1, r.input.input.input) (weight out o r' + 1, r'.input.input.input) := by
      rcases hnearer with hlt | ⟨heq, hsooner⟩
      · exact .inl (Nat.succ_lt_succ hlt)
      · exact .inr ⟨congrArg (· + 1) heq, hsooner⟩
    refine .pending (.decoding hstands) ?_
    rcases hp with rfl | hp
    · exact hnear
    · exact hnear.back hp
  | @data bytes r' hne hstands hlt =>
    obtain ⟨byte, bytes, rfl⟩ := List.exists_cons_of_ne_nil hne
    refine .data hne (.decoding hstands) ?_
    rcases hp with rfl | hp
    · exact Nat.succ_lt_succ hlt
    · exact (Nat.succ_lt_succ hlt).trans hp
  | ended hout hended =>
    refine .ended hout hended (.inl ?_)
    rcases hp with rfl | hp
    · exact Nat.succ_pos _
    · exact Nat.zero_lt_of_lt hp
  | failed hlt => exact .failed hlt

/-- The reader that a detected filter selects. -/
theorem select_spec (hdetect : detected (s.take PREFIX) = some f) (hf : Coded f)
    (hcodec : cs.withBackend f = .ok start) (input : Source) :
    select cs foreign input (s.take PREFIX) = .ok (.codec f
      { input := { input := ⟨s.take PREFIX, input, true, (s.take PREFIX).length⟩ }, codec := start }) := by
  unfold select
  rw [hdetect]
  cases f with
  | gzip => exact absurd rfl hf.1
  | bzip2 => exact absurd rfl hf.2
  | zstd => simp only [hcodec]
  | xz => simp only [hcodec]
  | lz4 => simp only [hcodec]
  | compress => simp only [hcodec]
  | lzip => simp only [hcodec]

variable (foreign) in
/-- **The rounds up to the end of the decoder.** -/
theorem decode_spec (hdetect : detected (s.take PREFIX) = some f) (hf : Coded f)
    (hcodec : cs.withBackend f = .ok start) (hdel : Delivers cs start s m out)
    (hs : s.length ≤ u64Max) (hroom : 0 < room) (h : Phase cs s start m out f o inner p) :
    Decoded cs s start m out f o p (inner.decode cs foreign room) := by
  cases h with
  | finished hended => exact .ended rfl hended (.inr rfl)
  | decoding hstands => exact decode_codec hdel hs hroom hstands (.inl rfl)
  | @detecting input found eof hfinds =>
    rw [ReaderInner.decode, pollDetect]
    rcases prefixLoop_spec (PREFIX + 1) (.inr (Nat.le_add_right _ _)) hfinds with
      ⟨input', found', eof', hloop, hfinds', hnearer⟩ | ⟨input', eof', hloop, hfinds', hle⟩
    · rw [hloop]
      refine .pending (.detecting hfinds') ?_
      rcases hnearer with hlt | ⟨heq, hsooner⟩
      · left
        change _ + _ + _ < _ + _ + _
        omega
      · exact .inr ⟨congrArg (· + out.length + 3) heq, hsooner⟩
    · rw [hloop]
      simp only [select_spec hdetect hf hcodec]
      refine decode_codec hdel hs hroom ⟨⟨0, .start, ?_, Nat.zero_le _⟩, List.nil_prefix, ⟨rfl, hfinds'.answers, ?_⟩,
        fun he => ?_, fun _ => ⟨rfl, rfl⟩, hfinds'.short, rfl⟩ (.inr ?_)
      · exact hfinds'.bytes
      · rw [← List.length_append, ← hfinds'.bytes]
      · cases he
      · simp only [finding] at hle ⊢
        simp only [weight, work, List.length_nil, Nat.sub_zero, Bool.false_eq_true, if_false]
        omega

end Polls

end LibarchiveOxide.Async.Trailing
