import LibarchiveOxide.Tar.Discipline
import LibarchiveOxide.Tar.Plans
import LibarchiveOxide.Tar.Position

/-! # Sparse entries are expanded exactly

After the entry event of a sparse entry the decoder reports the stored bytes at the extents and
zeros everywhere else, whatever the chunks and the scratch buffers, and then the end of the entry.
Only the account of decoded bytes can stop it (`Expanding.step`, `sparse_expansion`). -/

namespace LibarchiveOxide.Tar.Expansion

open Core.Failure Core.Budget Core.Metadata Core.Protocol Core.Drive Core.Grammar Lib.Result
open Lib.Slice Tar.Header Tar.Pax Tar.Source Tar.Source.TarSource Tar.Stream Tar.Plans Tar.Position
open Tar.Decoder Tar.Decoder.TarDecoder

/-! ### Expansions -/

/-- The logical bytes from `position` on: the stored bytes at the extents, zeros elsewhere. -/
def expandFrom (logicalSize : ℕ) : ℕ → List SparseExtent → List Byte → List Byte
  | position, [], _ => List.replicate (logicalSize - position) 0
  | position, e :: rest, stored =>
    List.replicate (e.offset - position) 0 ++ stored.take e.length ++
      expandFrom logicalSize e.end rest (stored.drop e.length)

/-- The expansion of a stored payload over its extents. -/
def expand (logicalSize : ℕ) (extents : List SparseExtent) (stored : List Byte) : List Byte :=
  expandFrom logicalSize 0 extents stored

/-- The bytes of a plan, the stored ones taken from a stream. -/
def fill : List Bool → List Byte → List Byte
  | [], _ => []
  | false :: plan, s => 0 :: fill plan s
  | true :: plan, b :: s => b :: fill plan s
  | true :: _, [] => []

theorem fill_hole (n : ℕ) (plan : List Bool) (s : List Byte) :
    fill (List.replicate n false ++ plan) s = List.replicate n 0 ++ fill plan s := by
  induction n with
  | zero => rfl
  | succ n ih => simp only [List.replicate_succ, List.cons_append, fill, ih]

theorem fill_data : ∀ {n : ℕ} (plan : List Bool) {s : List Byte}, n ≤ s.length →
    fill (List.replicate n true ++ plan) s = s.take n ++ fill plan (s.drop n)
  | 0, _, _, _ => rfl
  | n + 1, plan, [], h => absurd h (by simp)
  | n + 1, plan, b :: s, h => by
    have ih := fill_data plan (s := s) (Nat.le_of_succ_le_succ h)
    simp only [List.replicate_succ, List.cons_append, fill, ih, List.take_succ_cons,
      List.drop_succ_cons]

theorem length_fill : ∀ {p : List Bool} {s : List Byte}, p.count true ≤ s.length →
    (fill p s).length = p.length
  | [], _, _ => rfl
  | false :: p, s, h => by
    have ih := length_fill (p := p) (s := s) (by simpa using h)
    simp only [fill, List.length_cons, ih]
  | true :: p, [], h => absurd h (by simp)
  | true :: p, b :: s, h => by
    have ih := length_fill (p := p) (s := s) (by simpa using h)
    simp only [fill, List.length_cons, ih]

/-- The bytes behind the stored ones do not matter. -/
theorem fill_append : ∀ {p : List Bool} {s : List Byte} (t : List Byte),
    p.count true ≤ s.length → fill p (s ++ t) = fill p s
  | [], _, _, _ => rfl
  | false :: p, s, t, h => by
    have ih := fill_append (p := p) (s := s) t (by simpa using h)
    simp only [fill, ih]
  | true :: p, [], t, h => absurd h (by simp)
  | true :: p, b :: s, t, h => by
    have ih := fill_append (p := p) (s := s) t (by simpa using h)
    simp only [List.cons_append, fill, ih]

/-- A plan filled with the stored bytes is their expansion. -/
theorem fill_planFrom {n : ℕ} : ∀ {p : ℕ} {es : List SparseExtent} {s : List Byte},
    Sorted n p es → (es.map (·.length)).sum ≤ s.length →
    fill (planFrom n p es) s = expandFrom n p es s
  | p, [], s, _, _ => by
    have := fill_hole (n - p) [] s
    simpa [planFrom, expandFrom, fill] using this
  | p, e :: es, s, h, hs => by
    rw [List.map_cons, List.sum_cons] at hs
    have hlen : e.end - max p e.offset = e.length := by
      rw [max_eq_right h.1]
      exact Nat.add_sub_cancel_left _ _
    have ih := fill_planFrom (s := s.drop e.length) h.2 (by rw [List.length_drop]; omega)
    rw [planFrom, hlen, List.append_assoc, fill_hole, fill_data _ (by omega), ih, expandFrom,
      List.append_assoc]

/-- **Validated extents** give an expansion of the logical size. -/
theorem expand_of_valid {n : ℕ} {es : List SparseExtent} {s : List Byte}
    (h : validateSparseExtents es n s.length = .ok ()) (t : List Byte) :
    fill (planFrom n 0 es) (s ++ t) = expand n es s ∧ (expand n es s).length = n := by
  obtain ⟨hs, hc⟩ := validateSparseExtents_ok h
  have hsum := count_planFrom hs
  have he := fill_planFrom (s := s) hs (by rw [← hsum, hc])
  rw [fill_append t hc.le, he]
  refine ⟨rfl, ?_⟩
  rw [expand, ← he, length_fill hc.le, length_planFrom hs.fits, Nat.sub_zero]

/-! ### The source inside a payload -/

section
variable {s s1 s' : TarSource} {r pad : ℕ}

/-- The source has a payload to deliver and then padding to skip. -/
structure Delivers (s : TarSource) (r pad : ℕ) : Prop where
  unchanged : s.globalChanged = false
  state : s.state = .payload r pad
  inBuf : s.cursor ≤ s.buf.length

/-- Silent polls skip padding, once the payload is delivered. -/
theorem Delivers.silent (h : Delivers s r pad) (hs : Silent s s1) :
    ∃ n, Delivers s1 r (pad - n) ∧ n ≤ pad ∧ s1.cursor = s.cursor + n ∧ s1.buf = s.buf ∧
      (0 < r → n = 0) ∧ s1.finished = s.finished ∧ s1.payloadChunkLimit = s.payloadChunkLimit := by
  refine hs.invariant (P := fun s1 => ∃ n, Delivers s1 r (pad - n) ∧ n ≤ pad ∧
      s1.cursor = s.cursor + n ∧ s1.buf = s.buf ∧ (0 < r → n = 0) ∧ s1.finished = s.finished ∧
      s1.payloadChunkLimit = s.payloadChunkLimit)
    ⟨0, h, Nat.zero_le _, rfl, rfl, fun _ => rfl, rfl, rfl⟩ ?_
  rintro s1 s2 hg hp ⟨n, hd, hn, hc, hb, hr, hf, hl⟩
  cases hp with
  | record _ _ _ hs => rw [hd.state] at hs; cases hs
  | extended _ _ _ hs => rw [hd.state] at hs; cases hs
  | recordData _ _ _ _ hs => rw [hd.state] at hs; cases hs
  | recordPad _ _ _ hs => rw [hd.state] at hs; cases hs
  | recordEnd _ _ _ hs => rw [hd.state] at hs; cases hs
  | extension _ _ _ hs => rw [hd.state] at hs; cases hs
  | payloadPad p m hs hm hpos =>
    rw [hd.state] at hs
    simp only [State.payload.injEq] at hs
    obtain ⟨rfl, hp⟩ := hs
    refine ⟨n + m, ⟨hg, ?_, ?_⟩, by omega, by rw [hc, Nat.add_assoc], hb, nofun, hf, hl⟩
    · rw [← hp, Nat.sub_sub]
    · have := hd.inBuf
      simp only [available] at hm ⊢
      omega

/-- What the last poll of a pull answers. -/
inductive PayloadAnswer (s : TarSource) (r pad : ℕ) : Except Error (TarSourceEvent × TarSource) → Prop
  | ended (hr : r = 0) (hp : pad = 0) :
      PayloadAnswer s r pad (.ok (.endEntry, { s with state := .header }))
  | data (n : ℕ) (hn : n = min (min r s.available) s.payloadChunkLimit) (hpos : 0 < n) :
      PayloadAnswer s r pad (.ok (.data (s.rest.take n), { s with
        cursor := s.cursor + n, state := .payload (r - n) pad, stageLen := n }))
  | starved (hpos : 0 < r + pad) (ha : s.available = 0) (hf : s.finished = false) :
      PayloadAnswer s r pad (.ok (.needInput, s))
  | truncated (hpos : 0 < r + pad) (ha : s.available = 0) (hf : s.finished = true) (e : Error) :
      PayloadAnswer s r pad (.error e)

theorem payloadAnswer_of_answers (h : Delivers s r pad) (ha : s.Answers) (hr : r ≤ u64Max)
    (hl : 0 < s.payloadChunkLimit) : PayloadAnswer s r pad s.answer := by
  have hg := h.unchanged
  cases he : s.answer with
  | ok res =>
    obtain ⟨ev, s'⟩ := res
    cases answered_of_answer ha he with
    | globalMetadata hg' => rw [hg] at hg'; cases hg'
    | needInput _ hp =>
      cases hp with
      | starved hw hf _ hpay =>
        refine .starved (Nat.pos_of_ne_zero fun h0 => ?_) (hpay _ _ h.state) hf
        obtain ⟨rfl, rfl⟩ := Nat.add_eq_zero_iff.mp h0
        rw [answer_of_payload_end hg h.state] at he
        cases he
      | blocked _ _ _ h0 => omega
    | done _ hs => rw [h.state] at hs; simp at hs
    | entry _ hp => exact absurd h.state (Discipline.state_of_polled_entry hp r pad)
    | data _ r' pad' n hs hn hpos =>
      rw [h.state] at hs
      cases hs
      exact .data n hn hpos
    | endEntry _ hs =>
      rw [h.state] at hs
      cases hs
      exact .ended rfl rfl
  | error e =>
    rw [answer, if_neg (by simp [hg])] at he
    rcases bind_eq_error.mp he with he | ⟨⟨p, s'⟩, hp, he⟩
    · cases failed_of_poll he with
      | header _ hs => rw [h.state] at hs; cases hs
      | record _ _ _ hs => rw [h.state] at hs; cases hs
      | recordEnd _ _ hs => rw [h.state] at hs; cases hs
      | extension _ _ _ hs => rw [h.state] at hs; cases hs
      | payload r' pad' hs hpos ha hf =>
        rw [h.state] at hs
        cases hs
        exact .truncated (Nat.add_pos_left hpos _) ha hf _
      | payloadPad pad' hs hpos ha hf =>
        rw [h.state] at hs
        cases hs
        exact .truncated (Nat.add_pos_right _ hpos) ha hf _
      | oversize r' pad' _ hs hbig =>
        rw [h.state] at hs
        cases hs
        omega
    · have hpol := polled_of_poll hp
      cases p with
      | entry => exact absurd h.state (Discipline.state_of_polled_entry hpol r pad)
      | _ => cases he

end

/-! ### The decoder inside a sparse entry -/

/-- What the source has not read of the input. -/
def left (B : List Byte) (d : TarDecoder) (k : ℕ) : List Byte := B.drop (k - d.source.available)

/-- The account of decoded bytes may reach `total`. -/
def Affords (limits : Limits) (total : ℕ) : Prop :=
  total ≤ u64Max ∧ Within total limits.decodedTotal

/-- Inside a sparse entry, with the logical bytes `todo` still to report. -/
structure Expanding (B : List Byte) (d : TarDecoder) (k : ℕ) (todo : List Byte) : Prop where
  placed : Placed B d k
  notDone : d.done = false
  active : d.sparseActive = true
  source : ∃ pad, Delivers d.source ((planLeft d).count true) pad ∧
    (planLeft d).count true + pad ≤ (left B d k).length
  todo_eq : todo = fill (planLeft d) (left B d k)
  inFlight : ∀ l, d.limits.inFlightBytes = some l → BLOCK ≤ l
  buffered : d.needsInput = true → d.source.buf.length < BLOCK
  entryBytes : d.entryBytes + todo.length = d.logicalSize
  entryWithin : Within d.logicalSize d.limits.entryBytes
  affords : Affords d.limits d.totalBytes

variable {B todo : List Byte} {d d' d0 d1 : TarDecoder} {k n m outputLen : ℕ} {eoi : EndOfInput}

namespace Expanding

theorem inPlace (h : Expanding B d k todo) : InPlace d := h.placed.inPlace h.active

theorem count_le_max (h : Expanding B d k todo) : (planLeft d).count true ≤ u64Max := by
  have h1 := List.count_le_length (a := true) (l := planLeft d)
  have h2 := h.inPlace.length_planLeft
  have h3 := h.inPlace.size_le
  omega

/-- Only the account of decoded bytes can refuse logical bytes. -/
theorem refused (h : Expanding B d k todo) {e : ArchiveError} (hacc : d'.accountData n = .error e)
    (hn : n ≤ todo.length) (hl : d'.limits = d.limits) (he : d'.entryBytes = d.entryBytes)
    (ht : d'.totalBytes = d.totalBytes) :
    e.kind = .limit ∧ ¬ Affords d.limits (d.totalBytes + todo.length) := by
  obtain ⟨hroom, hk⟩ := accountData_error hacc
  refine ⟨hk, fun ⟨h1, h2⟩ => hroom ?_⟩
  have hentry := h.entryBytes
  have hsize := h.inPlace.size_le
  refine ⟨by omega, by omega, ?_, ?_⟩
  · rw [hl, he]
    exact h.entryWithin.mono (by omega)
  · rw [hl, ht]
    exact h2.mono (by omega)

end Expanding

/-- What a successful step inside a sparse entry has done. -/
inductive Progressed (B : List Byte) (d : TarDecoder) (k : ℕ) (todo : List Byte) :
    DecodeStep → TarDecoder → Prop
  | request {st : DecodeStep} {d' : TarDecoder} (hr : isRequest st.event = true)
      (hx : Expanding B d' (k + st.consumed) todo) (hl : d'.limits = d.limits)
      (ht : d'.totalBytes = d.totalBytes) : Progressed B d k todo st d'
  | data {st : DecodeStep} {d' : TarDecoder} (bytes todo' : List Byte)
      (he : st.event = .data bytes) (ht : todo = bytes ++ todo')
      (hx : Expanding B d' (k + st.consumed) todo') (hl : d'.limits = d.limits)
      (hb : d'.totalBytes = d.totalBytes + bytes.length) : Progressed B d k todo st d'
  | ended {st : DecodeStep} {d' : TarDecoder} (he : st.event = .endEntry) (ht : todo = []) :
      Progressed B d k todo st d'

/-- A step inside a sparse entry: it makes progress, or the account of decoded bytes has no room for
the rest of the entry. -/
def Steps (B : List Byte) (d : TarDecoder) (k : ℕ) (todo : List Byte) :
    Except ArchiveError (DecodeStep × TarDecoder) → Prop
  | .ok (st, d') => Progressed B d k todo st d'
  | .error e => e.kind = .limit ∧ ¬ Affords d.limits (d.totalBytes + todo.length)

/-- Only the budgets and the account of decoded bytes matter of the decoder before the step. -/
theorem Steps.congr {res : Except ArchiveError (DecodeStep × TarDecoder)} (h : Steps B d1 k todo res)
    (hl : d1.limits = d.limits) (ht : d1.totalBytes = d.totalBytes) : Steps B d k todo res := by
  cases res with
  | error e => rw [Steps, hl, ht] at h; exact h
  | ok r =>
    cases h with
    | request hr hx hl' ht' => exact .request hr hx (hl'.trans hl) (ht'.trans ht)
    | data bytes todo' he htodo hx hl' hb => exact .data bytes todo' he htodo hx (hl'.trans hl) (ht ▸ hb)
    | ended he htodo => exact .ended he htodo

namespace Expanding

/-- Zeros of a hole. -/
theorem hole (h : Expanding B d k todo) (hp : InPlace (moved (settle d) n))
    (hplan : planLeft d = List.replicate n false ++ planLeft (moved (settle d) n)) :
    Steps B d k todo (do
      let d ← (moved (settle d) n).accountData n
      return (⟨0, n, .data (List.replicate n 0)⟩, d)) := by
  have htodo := h.todo_eq
  rw [hplan, fill_hole] at htodo
  have hlen : todo.length = n + (fill (planLeft (moved (settle d) n)) (left B d k)).length := by
    rw [htodo, List.length_append, List.length_replicate]
  cases hacc : (moved (settle d) n).accountData n with
  | error e => exact h.refused hacc (by omega) rfl rfl rfl
  | ok d' =>
    obtain ⟨hroom, rfl⟩ := accountData_ok hacc
    refine .data _ _ rfl htodo ⟨⟨h.placed.buffers, h.placed.padded, h.placed.inputFinished,
      h.placed.finished, h.placed.hungry, fun _ => ⟨hp.fits, hp.size_le⟩⟩, h.notDone, h.active, ?_,
      rfl, h.inFlight, h.buffered, ?_, h.entryWithin, hroom.total_le, hroom.total⟩ rfl
      (by rw [List.length_replicate]; rfl)
    · obtain ⟨pad, hd, hle⟩ := h.source
      rw [hplan, List.count_append, List.count_replicate] at hd hle
      simp only [Bool.false_eq_true, beq_iff_eq, if_false, Nat.zero_add] at hd hle
      exact ⟨pad, hd, hle⟩
    · have := h.entryBytes
      simp only [charged]
      change d.entryBytes + n + _ = d.logicalSize
      omega

variable {limit : ℕ}

/-- The decoder ready for its source. -/
theorem ready (h : Expanding B d k todo)
    (h0 : d.sparseHole outputLen = .ok (none, (settle d).setChunkLimit limit)) :
    Expanding B ((settle d).setChunkLimit limit) k todo := by
  have hplan := h.inPlace.settled.2
  have hplan' : planLeft ((settle d).setChunkLimit limit) = planLeft d := hplan
  obtain ⟨pad, hd, hle⟩ := h.source
  refine ⟨(h.placed.ready h0).1, h.notDone, h.active, ⟨pad, ?_, ?_⟩, ?_, h.inFlight, h.buffered,
    h.entryBytes, h.entryWithin, h.affords⟩
  · rw [hplan']
    exact ⟨hd.unchanged, hd.state, hd.inBuf⟩
  · rw [hplan']
    exact hle
  · rw [hplan']
    exact h.todo_eq

theorem left_feed (hb : Buffers B d.source k) {input : List Byte} (hn : n ≤ input.length) :
    k + n - (d.source.feed (input.take n)).available = k - d.source.available := by
  have := hb.inBuf
  have h1 := hb.available_le
  simp only [available, TarSource.feed, List.length_append, List.length_take] at *
  omega

/-- The decoder past the bytes it was fed. -/
theorem handed (h : Expanding B d k todo) (ha : Handed d (window B k m) eoi n d1)
    (hend : eoi = .end → m = B.length) : Expanding B d1 (k + n) todo ∧
      d1.limits = d.limits ∧ d1.totalBytes = d.totalBytes := by
  have hp := (h.placed.handed ha hend).1
  obtain ⟨hn, -, rfl⟩ := ha
  obtain ⟨pad, hd, hle⟩ := h.source
  have hfeed := left_feed h.placed.buffers hn
  have hb := h.placed.buffers.feed hn
  have hnext : (d.needsInput && n == 0) = true →
      (d.source.feed ((window B k m).take n)).buf.length < BLOCK := by
    intro hnd
    obtain ⟨h1, h2⟩ := Bool.and_eq_true_iff.mp hnd
    obtain rfl : n = 0 := by simpa using h2
    rw [List.take_zero, TarSource.feed, List.append_nil]
    exact h.buffered h1
  have hleft {s : TarSource} (hs : s.available = (d.source.feed ((window B k m).take n)).available) :
      B.drop (k + n - s.available) = left B d k := by
    rw [hs, hfeed]
    rfl
  unfold noteEnd at hp ⊢
  split_ifs at hp ⊢ with hc
  · refine ⟨⟨hp, h.notDone, h.active, ⟨pad, ⟨hd.unchanged, hd.state, hb.inBuf⟩, ?_⟩, ?_,
      h.inFlight, hnext, h.entryBytes, h.entryWithin, h.affords⟩, rfl, rfl⟩
    · exact hle.trans (Nat.le_of_eq (congrArg List.length (hleft rfl).symm))
    · exact h.todo_eq.trans (congrArg (fill (planLeft d)) (hleft rfl).symm)
  · refine ⟨⟨hp, h.notDone, h.active, ⟨pad, ⟨hd.unchanged, hd.state, hb.inBuf⟩, ?_⟩, ?_,
      h.inFlight, hnext, h.entryBytes, h.entryWithin, h.affords⟩, rfl, rfl⟩
    · exact hle.trans (Nat.le_of_eq (congrArg List.length (hleft rfl).symm))
    · exact h.todo_eq.trans (congrArg (fill (planLeft d)) (hleft rfl).symm)

theorem length_left (h : Expanding B d k todo) :
    (left B d k).length = d.source.available + (B.length - k) := by
  rw [left, ← h.placed.buffers.left_eq, List.length_append, length_rest, List.length_drop]

/-- The window of the source is the rest of the current extent. -/
theorem extent (hw : Window d limit) (hpos : 0 < (planLeft d).count true) :
    ∃ e r, d.sparse.drop d.sparseIndex = e :: r ∧
      e.offset ≤ d.logicalPosition ∧ d.logicalPosition + limit = e.end := by
  rcases hw.inExtent with h0 | h0
  · rw [h0] at hpos
    cases hpos
  · exact h0

/-- Without stored bytes nothing is left. -/
theorem planLeft_eq_nil (h : Expanding B d k todo) (hw : Window d limit)
    (h0 : (planLeft d).count true = 0) : planLeft d = [] := by
  rcases hw.inExtent with hn | ⟨e, r, he, ho, hend⟩
  · exact hn
  · have hpos := hw.pos
    have hplan := (h.inPlace.data (n := 1) he ho (by omega)).2
    rw [hplan] at h0
    simp at h0

/-- Stored bytes are inside the current extent, so only their account can refuse them. -/
theorem data (h : Expanding B d (k + n) todo) (pad : ℕ) (hw : Window d d.source.payloadChunkLimit)
    {s : TarSource} {bytes : List Byte}
    (hpull : d.source.pull = .ok (.data bytes, s))
    (hs : Delivers s ((planLeft d).count true - bytes.length) pad)
    (hpos : 0 < bytes.length) (hcount : bytes.length ≤ (planLeft d).count true)
    (hav : bytes.length ≤ d.source.available)
    (hlim : bytes.length ≤ d.source.payloadChunkLimit)
    (hleft : left B d (k + n) = bytes ++ left B { d with source := s } (k + n))
    (hpad : (planLeft d).count true + pad ≤ (left B d (k + n)).length) :
    Steps B d k todo (do
      let (event, d) ← ({ d with source := s } : TarDecoder).handle (.data bytes)
      return (⟨n, 0, event⟩, d)) := by
  obtain ⟨e, r, he, ho, hend⟩ := extent hw (by omega)
  have hin : d.logicalPosition + bytes.length ≤ e.end := by omega
  obtain ⟨hmoved, hplan⟩ := h.inPlace.data he ho hin
  have hget : d.sparse[d.sparseIndex]? = some e := by
    rw [← List.head?_drop, he]
    rfl
  have hadv : ({ d with source := s } : TarDecoder).advanceSparse bytes.length =
      .ok { moved d bytes.length with source := s } := by
    have hle := e.end_le
    rw [advanceSparse, if_neg (by simp [h.active])]
    simp only [hget, okOr_some, ok_bind]
    rw [checkedAdd_of_le (by unfold SparseExtent.end at hin; omega), okOr_some, ok_bind,
      if_neg (by omega)]
    rfl
  have htodo := h.todo_eq
  rw [hplan, hleft, fill_data _ (by simp), List.take_left, List.drop_left] at htodo
  cases hacc : ({ moved d bytes.length with source := s } : TarDecoder).accountData bytes.length with
  | error er =>
    have hhandle : ({ d with source := s } : TarDecoder).handle (.data bytes) = .error er := by
      simp only [handle, hadv, ok_bind, hacc, error_bind]
    rw [hhandle]
    refine h.refused hacc ?_ rfl rfl rfl
    rw [htodo, List.length_append]
    omega
  | ok d' =>
    obtain ⟨hroom, rfl⟩ := accountData_ok hacc
    have hhandle : ({ d with source := s } : TarDecoder).handle (.data bytes) = .ok (.data bytes,
        ({ moved d bytes.length with source := s } : TarDecoder).charged bytes.length) := by
      simp only [handle, hadv, ok_bind, hacc]
      rfl
    rw [hhandle]
    have hc : (planLeft d).count true = bytes.length + (planLeft (moved d bytes.length)).count true := by
      rw [hplan, List.count_append, List.count_replicate_self]
    have hll : (left B d (k + n)).length = bytes.length +
        (left B { d with source := s } (k + n)).length := by
      rw [hleft, List.length_append]
    refine .data _ _ rfl htodo ⟨h.placed.pulled hw.pos hpull hhandle, h.notDone, h.active,
      ⟨pad, ?_, ?_⟩, rfl, h.inFlight, ?_, ?_, h.entryWithin, hroom.total_le, hroom.total⟩ rfl rfl
    · have he : (planLeft (moved d bytes.length)).count true =
          (planLeft d).count true - bytes.length := by omega
      exact he.symm ▸ hs
    · change (planLeft (moved d bytes.length)).count true + pad ≤
        (left B { d with source := s } (k + n)).length
      omega
    · intro hn
      obtain ⟨-, hst⟩ := h.placed.hungry hn
      obtain ⟨pad', hd, -⟩ := h.source
      rw [hd.state] at hst
      omega
    · have h1 := h.entryBytes
      rw [htodo, List.length_append] at h1
      change d.entryBytes + bytes.length + _ = d.logicalSize
      omega

/-- **The answer of the source** inside a sparse entry. -/
theorem pulled (h : Expanding B d (k + n) todo) (hw : Window d d.source.payloadChunkLimit) :
    Steps B d k todo (do
      let (event, source) ← liftError d.source.pull
      let (event, d) ← ({ d with source } : TarDecoder).handle event
      return (⟨n, 0, event⟩, d)) := by
  obtain ⟨pad, hd, hle⟩ := h.source
  obtain ⟨s1, hsil, hans, hpull⟩ := d.source.pull_eq
  obtain ⟨p, hd1, hp, hcur, hbuf, hskip, hfin, hlim⟩ :=
    Delivers.silent (s := d.source.compact) ⟨hd.unchanged, hd.state, Nat.zero_le _⟩ hsil
  have hcur1 : s1.cursor = p := hcur.trans (Nat.zero_add p)
  have hbuf1 : s1.buf = d.source.rest := hbuf
  have hlim1 : s1.payloadChunkLimit = d.source.payloadChunkLimit := hlim
  have hfin1 : s1.finished = d.source.finished := hfin
  have hb1 : Buffers B s1 (k + n) := h.placed.buffers.compact.silent hsil
  have hrest : s1.rest = d.source.rest.drop p := by rw [rest, hbuf1, hcur1]
  have hin : p ≤ d.source.available := by
    have := hd1.inBuf
    rwa [hbuf1, hcur1, length_rest] at this
  have hav : s1.available = d.source.available - p := by
    rw [← length_rest, hrest, List.length_drop, length_rest]
  have hll := h.length_left
  have hk := h.placed.buffers.available_le
  have hfinal := h.placed.finished
  have hres := payloadAnswer_of_answers hd1 hans h.count_le_max (hlim1 ▸ hw.pos)
  have hlift : liftError d.source.pull = liftError s1.answer := by rw [hpull]
  rw [hlift]
  cases hres' : s1.answer with
  | error e =>
    rw [hres'] at hres
    cases hres with
    | truncated hpos ha hf =>
      have := hfinal (hfin1 ▸ hf)
      omega
  | ok res =>
    rw [hres'] at hres hpull
    cases hres with
    | ended hr hp0 =>
      have hplan := h.planLeft_eq_nil hw hr
      have hsize : d.logicalPosition = d.logicalSize := by
        have h1 := h.inPlace.length_planLeft
        have h2 := h.inPlace.fits.le
        rw [hplan, List.length_nil] at h1
        omega
      simp only [liftError, mapError_ok, ok_bind, handle]
      rw [if_neg (by simp [hsize])]
      exact .ended rfl (by rw [h.todo_eq, hplan]; rfl)
    | data m hm hpos =>
      obtain rfl : p = 0 := hskip (by omega)
      have hlen : (s1.rest.take m).length = m := by rw [List.length_take, length_rest]; omega
      simp only [liftError, mapError_ok, ok_bind]
      refine h.data (pad - 0) hw hpull ⟨hd1.unchanged, ?_, ?_⟩ (by omega) (by omega) (by omega)
        (by omega) ?_ (by omega)
      · rw [hlen]
      · have := hd1.inBuf
        simp only [available] at hm ⊢
        omega
      · have hb' : Buffers B { s1 with
            cursor := s1.cursor + m, state := .payload ((planLeft d).count true - m) (pad - 0)
            stageLen := m } (k + n) := by
          refine hb1.of_moved rfl ?_
          have := hb1.inBuf
          simp only [available] at hm ⊢
          omega
        rw [left, left, ← h.placed.buffers.left_eq, ← hb'.left_eq, ← List.append_assoc]
        congr 1
        have hdrop := s1.drop_rest m
        rw [hrest, List.drop_zero] at hdrop ⊢
        exact ((congrArg _ hdrop).trans (List.take_append_drop m d.source.rest)).symm
    | starved hpos ha hf =>
      have hnf : d.inputFinished = false := by
        rw [h.placed.inputFinished, ← hfin1]
        exact hf
      have hhandle : ({ d with source := s1 } : TarDecoder).handle .needInput =
          .ok (.needInput, { d with source := s1, needsInput := true }) := by
        simp only [handle]
        rw [if_neg (by simp [hnf])]
      simp only [liftError, mapError_ok, ok_bind, hhandle]
      have hlen : (left B { d with source := s1, needsInput := true } (k + n)).length =
          s1.available + (B.length - (k + n)) := by
        rw [left, ← hb1.left_eq, List.length_append, length_rest, List.length_drop]
      refine .request rfl ⟨h.placed.pulled hw.pos hpull hhandle, h.notDone, h.active,
        ⟨pad - p, hd1, ?_⟩, ?_, h.inFlight, fun _ => ?_, h.entryBytes, h.entryWithin, h.affords⟩ rfl
        rfl
      · change (planLeft d).count true + (pad - p) ≤
          (left B { d with source := s1, needsInput := true } (k + n)).length
        omega
      · rcases Nat.eq_zero_or_pos ((planLeft d).count true) with hr | hr
        · have hplan := h.planLeft_eq_nil hw hr
          rw [h.todo_eq, hplan]
          change [] = fill (planLeft d) _
          rw [hplan]
          rfl
        · obtain rfl := hskip hr
          rw [h.todo_eq, left, left, ← h.placed.buffers.left_eq, ← hb1.left_eq, hrest,
            List.drop_zero]
          rfl
      · have hpad := h.placed.padded
        rw [Padded, hd.state] at hpad
        simp only at hpad ⊢
        rw [hbuf1, length_rest]
        omega

theorem feedInput_ok (h : Expanding B d k todo) (input : List Byte) :
    ∃ n d1, d.feedInput input = .ok (n, d1) := by
  unfold feedInput
  dsimp only
  split_ifs with hf h0
  · rw [Bool.and_eq_true] at hf
    have hb := h.buffered hf.1
    have hne : 0 < input.length := List.length_pos_iff.mpr (by simpa using hf.2)
    cases hl : d.limits.inFlightBytes with
    | none =>
      rw [hl, Option.map_none, Option.getD_none] at h0
      omega
    | some l =>
      have := h.inFlight l hl
      rw [hl, Option.map_some, Option.getD_some] at h0
      omega
  · exact ⟨_, _, rfl⟩
  · exact ⟨_, _, rfl⟩

theorem window_handed {input : List Byte} (hw : Window d limit) (ha : Handed d input eoi n d1) :
    Window d1 limit := by
  obtain ⟨-, -, rfl⟩ := ha
  unfold noteEnd
  split_ifs
  · exact ⟨hw.pos, hw.inExtent⟩
  · exact ⟨hw.pos, hw.inExtent⟩

/-- **A step inside a sparse entry** reports the next logical bytes, or asks for input, or ends the
entry once all are reported. -/
theorem step (h : Expanding B d k todo) (hout : 0 < outputLen)
    (hend : eoi = .end → m = B.length) :
    Steps B d k todo (d.step (window B k m) outputLen eoi) := by
  have hlim : d.limits.inFlightBytes.any (fun limit => decide (limit < BLOCK)) = false := by
    cases hl : d.limits.inFlightBytes with
    | none => rfl
    | some l => simpa using h.inFlight l hl
  unfold TarDecoder.step
  rw [if_neg (by simp [h.notDone]), if_neg (by simp [hlim])]
  rcases sparseHole_inPlace h.inPlace h.active outputLen with
    ⟨h0, -⟩ | ⟨n, -, hp, hplan, he⟩ | ⟨limit, hw, he⟩
  · omega
  · have hs := h.hole hp hplan
    rw [he]
    cases hacc : (moved (settle d) n).accountData n with
    | error e => rw [hacc] at hs; exact hs
    | ok d' => rw [hacc] at hs; exact hs
  · have hr := h.ready he
    obtain ⟨n, d1, hf⟩ := hr.feedInput_ok (window B k m)
    have ha : Handed _ _ eoi n _ := handed_of_feed hf
    obtain ⟨hx, hlimits, htotal⟩ := hr.handed ha hend
    have hl1 := (hr.placed.handed ha hend).2
    have hw0 : Window ((settle d).setChunkLimit limit) limit := ⟨hw.pos, hw.inExtent⟩
    have hs := hx.pulled (hl1.symm ▸ window_handed hw0 ha)
    rw [he]
    simp only [ok_bind, hf]
    exact hs.congr hlimits htotal

end Expanding

/-! ### Entries -/

/-- The entry event shows the extents that were staged. -/
theorem sparse_of_pull {s s' : TarSource} {md : EntryMetadata} {sparse : List SparseExtent}
    {isSparse : Bool} (h : s.pull = .ok (.entry md sparse isSparse, s')) : md.sparse = sparse := by
  obtain ⟨s1, -, -, hp⟩ := s.pull_eq
  rw [hp] at h
  unfold answer at h
  split_ifs at h with hg
  · cases h
  obtain ⟨⟨p, s2⟩, -, h⟩ := bind_eq_ok.mp h
  cases p with
  | entry =>
    obtain ⟨ev, he, h⟩ := bind_eq_ok.mp h
    obtain ⟨hd, -, rfl⟩ := entryEvent_shown he
    cases h
    exact (richMetadata_fields _ _ hd).2.1
  | _ => cases h

/-- What a step that opens a sparse entry has established. -/
structure Opened (B : List Byte) (d' : TarDecoder) (k' : ℕ) (md : EntryMetadata) (size : ℕ) :
    Prop where
  placed : Placed B d' k'
  notDone : d'.done = false
  unchanged : d'.source.globalChanged = false
  inFlight : ∀ l, d'.limits.inFlightBytes = some l → BLOCK ≤ l
  needsInput : d'.needsInput = false
  entryBytes : d'.entryBytes = 0
  start : d'.sparse = md.sparse ∧ d'.sparseIndex = 0 ∧ d'.logicalPosition = 0
  size_eq : ∃ real : UInt64, md.size = some real ∧ d'.logicalSize = real.toNat
  entryWithin : Within d'.logicalSize d'.limits.entryBytes
  valid : validateSparseExtents md.sparse d'.logicalSize size = .ok ()

theorem entryWithin_of_beginEntry {md : EntryMetadata} {sparse : List SparseExtent}
    {isSparse : Bool} (h : d.beginEntry md sparse isSparse = .ok d') :
    Within d'.logicalSize d'.limits.entryBytes := by
  obtain ⟨entries, he, h⟩ := bind_eq_ok.mp h
  obtain ⟨⟨⟩, -, h⟩ := bind_eq_ok.mp h
  obtain ⟨-, h⟩ := guard_eq_ok.mp h
  obtain ⟨⟨⟩, hw, h⟩ := bind_eq_ok.mp h
  obtain ⟨_, -, h⟩ := bind_eq_ok.mp h
  obtain ⟨_, -, h⟩ := bind_eq_ok.mp h
  obtain ⟨-, h⟩ := guard_eq_ok.mp h
  cases h
  exact checkLimit_ok hw

/-- A step on a decoder that is not done was within the smallest in-flight limit. -/
theorem inFlight_of_step {input : List Byte} {st : DecodeStep}
    (h : d.step input outputLen eoi = .ok (st, d')) (hd : d.done = false) :
    ∀ l, d.limits.inFlightBytes = some l → BLOCK ≤ l := by
  unfold TarDecoder.step at h
  rw [if_neg (by simp [hd])] at h
  split_ifs at h with hl
  intro l he
  rw [he] at hl
  simpa using hl

/-- An entry event comes from the source. -/
theorem handle_entry {ev : TarSourceEvent} {md : EntryMetadata}
    (h : d.handle ev = .ok (.entry md, d')) :
    ∃ sparse isSparse, ev = .entry md sparse isSparse ∧ d.beginEntry md sparse isSparse = .ok d' := by
  cases ev with
  | entry md' sparse isSparse =>
    obtain ⟨d1, h1, h⟩ := bind_eq_ok.mp h
    cases h
    exact ⟨sparse, isSparse, rfl, h1⟩
  | data =>
    obtain ⟨_, -, h⟩ := bind_eq_ok.mp h
    obtain ⟨_, -, h⟩ := bind_eq_ok.mp h
    cases h
  | needInput =>
    unfold handle at h
    dsimp only at h
    split_ifs at h
    cases h
  | endEntry =>
    unfold handle at h
    dsimp only at h
    split_ifs at h
    cases h
  | archiveMetadata => cases h
  | done => cases h

theorem opened_of_step {md : EntryMetadata} {st : DecodeStep} {size pad : ℕ} (hp : Placed B d k)
    (hs : d.step (window B k m) outputLen eoi = .ok (st, d')) (hend : eoi = .end → m = B.length)
    (he : st.event = .entry md) (hact : d'.sparseActive = true)
    (hpay : d'.source.state = .payload size pad) : Opened B d' (k + st.consumed) md size := by
  have hplaced := hp.step hs hend
  rcases step_ok hs with ⟨-, -, rfl, rfl⟩ | ⟨-, hh⟩ |
    ⟨hd, d0, n, d1, ev, source, event, h0, ha, hpull, hh, rfl⟩
  · cases he
  · obtain ⟨-, -, -, ⟨-, rfl, -⟩ | ⟨_, -, -, -, -, rfl, -⟩⟩ := sparseHole_some hh
    · cases he
    · cases he
  · obtain rfl : event = .entry md := he
    have hin := inFlight_of_step hs hd
    have hp1 := ((hp.ready h0).1.handed ha hend).1
    obtain ⟨sparse, isSparse, rfl, hbegin⟩ := handle_entry hh
    have hw := entryWithin_of_beginEntry hbegin
    have hsp := sparse_of_pull hpull
    obtain ⟨s1, hsil, hans⟩ := answered_of_pull hpull
    obtain ⟨-, -, -, metadataBytes, rfl⟩ := beginEntry_ok hbegin
    have hnot : d1.needsInput = false := by
      by_contra hn
      have := ((hp1.hungry (by simpa using hn)).pulled hpull).2
      simp at this
    obtain ⟨index, limit, fin, ifin, ni, hd1⟩ := (ha.asks h0).frame
    cases hans with
    | @entry hg _ _ _ _ real remaining hpol ho hdense =>
      obtain ⟨pad', hs'⟩ := ho.state_eq
      obtain ⟨rfl, -⟩ : size = remaining ∧ pad = pad' := by
        have := hpay.symm.trans hs'
        simpa using this
      have hact' : isSparse = true := hact
      have hsize : (md.size.map UInt64.toNat).getD 0 = real.toNat := by simp [ho.size_eq]
      refine ⟨hplaced, ?_, (Discipline.globalChanged_of_polled_entry hpol).trans hg, ?_, hnot, rfl,
        ⟨hsp.symm, rfl, rfl⟩, ⟨real, ho.size_eq, hsize⟩, hw, ?_⟩
      · rw [hd1]
        exact hd
      · rw [hd1]
        exact hin
      · rw [hsp]
        change validateSparseExtents sparse ((md.size.map UInt64.toNat).getD 0) size = .ok ()
        rw [hsize]
        exact ho.valid hact'

/-- The stored bytes of the payload the source stands before. -/
def stored (B : List Byte) (d : TarDecoder) (k size : ℕ) : List Byte :=
  window B (k - d.source.available) (k - d.source.available + size)

/-- **An opened sparse entry** is to be expanded, if the input holds its payload and padding. -/
theorem Opened.expanding {md : EntryMetadata} {size pad : ℕ} (h : Opened B d k md size)
    (hact : d.sparseActive = true) (hpay : d.source.state = .payload size pad)
    (hheld : k - d.source.available + size + pad ≤ B.length) (haff : Affords d.limits d.totalBytes) :
    Expanding B d k (expand d.logicalSize md.sparse (stored B d k size)) ∧
      (expand d.logicalSize md.sparse (stored B d k size)).length = d.logicalSize := by
  obtain ⟨hsp, hi, hpos⟩ := h.start
  have hplan : planLeft d = planFrom d.logicalSize 0 md.sparse := by
    rw [planLeft, hsp, hi, hpos, List.drop_zero]
  have hcount : (planLeft d).count true = size := by
    rw [hplan]
    exact (validateSparseExtents_ok h.valid).2
  have hlen : (stored B d k size).length = size := by
    rw [stored, length_window_of_le (by omega)]
    omega
  have hleft : left B d k = stored B d k size ++ B.drop (k - d.source.available + size) := by
    rw [left, stored, window, Nat.add_sub_cancel_left, ← List.drop_drop, List.take_append_drop]
  have hvalid := h.valid
  rw [← hlen] at hvalid
  obtain ⟨hfill, hwhole⟩ := expand_of_valid hvalid (B.drop (k - d.source.available + size))
  refine ⟨⟨h.placed, h.notDone, hact, ⟨pad, ?_, ?_⟩, ?_, h.inFlight, ?_, ?_, h.entryWithin, haff⟩,
    hwhole⟩
  · rw [hcount]
    exact ⟨h.unchanged, hpay, h.placed.buffers.inBuf⟩
  · rw [hcount, left, List.length_drop]
    omega
  · rw [hplan, hleft, hfill]
  · intro hn
    rw [h.needsInput] at hn
    cases hn
  · rw [h.entryBytes, hwhole, Nat.zero_add]

/-! ### Runs -/

variable {evs : List DecodeEvent}

/-- The events are requests and data windows that concatenate to the bytes. -/
def Reports (evs : List DecodeEvent) (bytes : List Byte) : Prop :=
  ∃ windows : List (List Byte), signal evs = windows.map .data ∧ windows.flatten = bytes

/-- The run went on from `start` to the end of the entry and reported all of it. -/
def Expanded (start r : Run TarDecoder) (whole : List Byte) : Prop :=
  ∃ evs, r.events = start.events ++ evs ++ [.endEntry] ∧ Reports evs whole

/-- The run went on from `start` and was stopped by a budget in the middle of the entry. -/
def Refused (start r : Run TarDecoder) (whole : List Byte) : Prop :=
  ∃ evs bytes e, r.events = start.events ++ evs ∧ r.failure = some e ∧ e.kind = .limit ∧
    Reports evs bytes ∧ bytes <+: whole

/-- Between `start` and the end of the entry. -/
structure Midway (B : List Byte) (limits : Limits) (start : Run TarDecoder) (whole : List Byte)
    (total : ℕ) (r : Run TarDecoder) : Prop where
  going : r.halted = false
  limits_eq : r.decoder.limits = limits
  events : ∃ evs reported todo, r.events = start.events ++ evs ∧ Reports evs reported ∧
    reported ++ todo = whole ∧ Expanding B r.decoder r.consumed todo ∧
    r.decoder.totalBytes + todo.length = total

theorem Reports.request {bytes : List Byte} {ev : DecodeEvent} (h : Reports evs bytes)
    (hr : isRequest ev = true) : Reports (evs ++ [ev]) bytes := by
  obtain ⟨ws, h1, h2⟩ := h
  exact ⟨ws, (signal_append_of_request hr).trans h1, h2⟩

theorem Reports.data {bytes more : List Byte} (h : Reports evs bytes) :
    Reports (evs ++ [.data more]) (bytes ++ more) := by
  obtain ⟨ws, h1, h2⟩ := h
  refine ⟨ws ++ [more], ?_, by simp [h2]⟩
  rw [signal_append rfl, h1, List.map_append]
  rfl

theorem halted_eq_false {ev : DecodeEvent} (h : ev ≠ .done) :
    (⟨d, k, evs ++ [ev], none⟩ : Run TarDecoder).halted = false := by
  simpa [Run.halted, Run.done] using h

/-- One more call inside the entry. -/
theorem Midway.succ {limits : Limits} {start r : Run TarDecoder} {whole : List Byte} {total : ℕ}
    {supplied : ℕ} (h : Midway B limits start whole total r) (hout : 0 < outputLen)
    (hend : eoi = .end → supplied = B.length) :
    Midway B limits start whole total (r.advance TarDecoder.step B supplied outputLen eoi) ∨
    (Affords limits total ∧
      Expanded start (r.advance TarDecoder.step B supplied outputLen eoi) whole) ∨
    (¬ Affords limits total ∧
      Refused start (r.advance TarDecoder.step B supplied outputLen eoi) whole) := by
  obtain ⟨hg, hlim, evs, reported, todo, hev, hrep, hsplit, hx, htotal⟩ := h
  have hs : Steps B r.decoder r.consumed todo
      (r.decoder.step (window B r.consumed supplied) outputLen eoi) := hx.step hout hend
  rw [Run.advance, if_neg (by simp [hg])]
  cases hstep : r.decoder.step (window B r.consumed supplied) outputLen eoi with
  | error e =>
    rw [hstep, Steps, hlim, htotal] at hs
    exact .inr (.inr ⟨hs.2, evs, reported, e, hev, rfl, hs.1, hrep, todo, hsplit⟩)
  | ok res =>
    obtain ⟨st, d'⟩ := res
    rw [hstep] at hs
    dsimp only
    cases hs with
    | request hr hx' hl ht =>
      refine .inl ⟨halted_eq_false ?_, hl.trans hlim, evs ++ [st.event], reported, todo, ?_,
        hrep.request hr, hsplit, hx', ht ▸ htotal⟩
      · rintro he
        rw [he] at hr
        cases hr
      · rw [hev, List.append_assoc]
    | data bytes todo' he ht hx' hl hb =>
      refine .inl ⟨halted_eq_false (by simp [he]), hl.trans hlim, evs ++ [st.event],
        reported ++ bytes, todo', ?_, he ▸ hrep.data, ?_, hx', ?_⟩
      · rw [hev, List.append_assoc]
      · rw [List.append_assoc, ← ht]
        exact hsplit
      · rw [ht, List.length_append] at htotal
        simp only at hb ⊢
        omega
    | ended he ht =>
      refine .inr (.inl ⟨?_, evs, ?_, ?_⟩)
      · rw [← htotal, ht, ← hlim]
        exact hx.affords
      · rw [hev, he]
      · rw [← hsplit, ht, List.append_nil]
        exact hrep

/-- The decoder on a cutting of its input, after `n` calls. -/
def decoding (limits : Limits) (c : Cutting B) (n : ℕ) : Run TarDecoder :=
  run TarDecoder.step (.new limits) c n

/-- Call `n` opened a sparse entry with `size` stored bytes, all of which the input holds together
with the padding behind them. -/
structure OpensSparse (limits : Limits) (c : Cutting B) (n : ℕ) (md : EntryMetadata)
    (size pad : ℕ) : Prop where
  event : (decoding limits c (n + 1)).events = (decoding limits c n).events ++ [.entry md]
  active : (decoding limits c (n + 1)).decoder.sparseActive = true
  payload : (decoding limits c (n + 1)).decoder.source.state = .payload size pad
  held : (decoding limits c (n + 1)).consumed -
    (decoding limits c (n + 1)).decoder.source.available + size + pad ≤ B.length

/-- The stored bytes of the entry that call `n` opened. -/
def storedAt (limits : Limits) (c : Cutting B) (n size : ℕ) : List Byte :=
  stored B (decoding limits c (n + 1)).decoder (decoding limits c (n + 1)).consumed size

section
variable {limits : Limits} {c : Cutting B} {md : EntryMetadata} {size pad : ℕ}

theorem OpensSparse.midway (h : OpensSparse limits c n md size pad) : ∃ real : UInt64,
    md.size = some real ∧ validateSparseExtents md.sparse real.toNat size = .ok () ∧
    (expand real.toNat md.sparse (storedAt limits c n size)).length = real.toNat ∧
    Midway B limits (decoding limits c (n + 1))
      (expand real.toNat md.sparse (storedAt limits c n size))
      (dataTotal (decoding limits c n).events + real.toNat) (decoding limits c (n + 1)) := by
  obtain ⟨hev, hact, hpay, hheld⟩ := h
  obtain ⟨p, hd⟩ := Discipline.tar_disciplined limits c (n + 1)
  have hplaced := tar_placed limits c n
  obtain ⟨st, d', hs, he, hrun⟩ := advance_append hev
  have hrun' : decoding limits c (n + 1) = ⟨d', (decoding limits c n).consumed + st.consumed,
      (decoding limits c n).events ++ [.entry md], none⟩ := hrun
  have hled := hd.ledger
  have hlim := hd.limits_eq
  rw [storedAt]
  change (decoding limits c (n + 1)).decoder.limits = limits at hlim
  change Ledger limits Exact (decoding limits c (n + 1)).events p
    (decoding limits c (n + 1)).decoder.totalBytes _ at hled
  rw [hrun'] at hact hpay hheld hlim hled ⊢
  dsimp only at hact hpay hheld hlim hled ⊢
  have ho := opened_of_step hplaced hs (fun h => c.supplied_of_end n h) he hact hpay
  obtain ⟨real, hreal, hsize⟩ := ho.size_eq
  have haff : Affords d'.limits d'.totalBytes := by
    rw [hlim]
    exact ⟨hled.total_le, hled.total_within⟩
  obtain ⟨hx, hlen⟩ := ho.expanding hact hpay hheld haff
  have hvalid := ho.valid
  rw [hsize] at hx hlen hvalid
  refine ⟨real, hreal, hvalid, hlen, halted_eq_false (by simp), hlim, [], [], _, ?_, ⟨[], rfl, rfl⟩,
    rfl, hx, ?_⟩
  · exact (List.append_nil _).symm
  · have htotal := hled.total_eq
    have h0 : dataTotal ((decoding limits c n).events ++ [.entry md]) =
        dataTotal (decoding limits c n).events := by simp [dataTotal, dataLength]
    have hsum := congrArg (d'.totalBytes + ·) hlen
    exact hsum.trans (by omega)

/-- From the entry on every call makes progress until the entry has ended or was refused. -/
theorem midway_run (hs : c.Scratch) {whole : List Byte} {total : ℕ}
    (h : Midway B limits (decoding limits c (n + 1)) whole total (decoding limits c (n + 1))) :
    ∀ i, Midway B limits (decoding limits c (n + 1)) whole total (decoding limits c (n + 1 + i)) ∨
      (Affords limits total ∧ ∃ k, Expanded (decoding limits c (n + 1)) (decoding limits c k) whole) ∨
      (¬ Affords limits total ∧
        ∃ k, Refused (decoding limits c (n + 1)) (decoding limits c k) whole)
  | 0 => .inl h
  | i + 1 => by
    rcases midway_run hs h i with hm | hr
    · rcases hm.succ (hs (n + 1 + i)) (c.supplied_of_end (n + 1 + i)) with h1 | ⟨h1, h2⟩ | ⟨h1, h2⟩
      · exact .inl h1
      · exact .inr (.inl ⟨h1, n + 1 + (i + 1), h2⟩)
      · exact .inr (.inr ⟨h1, n + 1 + (i + 1), h2⟩)
    · exact .inr hr

/-- **Sparse expansion is exact.** The data events of an opened sparse entry concatenate to the
stored bytes expanded over the extents and the entry ends, unless the account of decoded bytes
cannot take the logical size; then the decoder reports a prefix and fails with a `Limit` error. -/
theorem sparse_expansion (hs : c.Scratch) (he : c.Ends) (h : OpensSparse limits c n md size pad) :
    ∃ real : UInt64, md.size = some real ∧
      validateSparseExtents md.sparse real.toNat size = .ok () ∧
      (expand real.toNat md.sparse (storedAt limits c n size)).length = real.toNat ∧
      ((Affords limits (dataTotal (decoding limits c n).events + real.toNat) ∧
          ∃ k, Expanded (decoding limits c (n + 1)) (decoding limits c k)
            (expand real.toNat md.sparse (storedAt limits c n size))) ∨
        (¬ Affords limits (dataTotal (decoding limits c n).events + real.toNat) ∧
          ∃ k, Refused (decoding limits c (n + 1)) (decoding limits c k)
            (expand real.toNat md.sparse (storedAt limits c n size)))) := by
  obtain ⟨real, hreal, hvalid, hlen, hm⟩ := h.midway
  obtain ⟨N, hN⟩ := run_halts (d := TarDecoder.new limits) Idle.tar_progress.ending
    ⟨Nat.zero_le _, nofun⟩ hs he
  refine ⟨real, hreal, hvalid, hlen, ?_⟩
  rcases midway_run hs hm N with hmid | hr
  · have hhalt : (decoding limits c (n + 1 + N)).halted = true := by
      rw [decoding, run_of_halted hN (Nat.le_add_left _ _)]
      exact hN
    rw [hmid.going] at hhalt
    cases hhalt
  · exact hr

end

/-! ### A file of three bytes -/

/-- A header block of the kind with `size` bytes behind it. -/
def plainHeader (typeflag : Byte) (size : ℕ) : List Byte :=
  ((putField (splice (splice zeroBlock 0 (bstr "m")) oTypeflag [typeflag]) fSize size
    >>= writeChecksum).toOption).getD []

/-- The records of a file of three bytes of which the second one is stored. -/
def mapRecords : List Byte := bstr "25 GNU.sparse.realsize=3\n22 GNU.sparse.map=1,1\n"

/-- The archive of that file. -/
def mapArchive : List Byte :=
  plainHeader (chr 'x') 47 ++ (mapRecords ++ List.replicate 465 0) ++
    plainHeader (chr '0') 1 ++ (chr 'A' :: List.replicate 511 0)

/-- Its metadata. -/
def mapMetadata : EntryMetadata where
  kind := .file
  path := .fromBytes (bstr "m")
  size := some 3
  mode := some 0
  owner := { uid := some 0, gid := some 0 }
  times := { modified := some (.fromSeconds 0) }
  sparse := [⟨1, 1, by decide, by decide⟩]
  extensions := [⟨"pax", bstr "GNU.sparse.realsize", bstr "3"⟩, ⟨"pax", bstr "GNU.sparse.map", bstr "1,1"⟩]

/-- The whole archive in the first call. -/
def mapCutting : Cutting mapArchive := .whole mapArchive fun _ => 1

/-- What the first call shows of a run over the archive. -/
def Shows (limits : Limits) : Prop :=
  (decoding limits mapCutting 1).events = [.entry mapMetadata] ∧
    (decoding limits mapCutting 1).decoder.sparseActive = true ∧
    (decoding limits mapCutting 1).decoder.source.state = .payload 1 511 ∧
    (decoding limits mapCutting 1).consumed -
      (decoding limits mapCutting 1).decoder.source.available + 1 + 511 ≤ mapArchive.length

theorem Shows.opensSparse {limits : Limits} (h : Shows limits) :
    OpensSparse limits mapCutting 0 mapMetadata 1 511 :=
  ⟨h.1, h.2.1, h.2.2.1, h.2.2.2⟩

theorem shows_unlimited : Shows .unlimited ∧
    expand (3 : UInt64).toNat mapMetadata.sparse (storedAt .unlimited mapCutting 0 1) =
      [0, chr 'A', 0] := by
  unfold Shows
  decide +kernel

theorem sparse_expansion_map : OpensSparse .unlimited mapCutting 0 mapMetadata 1 511 ∧
    ∃ k, Expanded (decoding .unlimited mapCutting 1) (decoding .unlimited mapCutting k)
      [0, chr 'A', 0] := by
  have ho := shows_unlimited.1.opensSparse
  refine ⟨ho, ?_⟩
  obtain ⟨real, hreal, -, -, ⟨-, hk⟩ | ⟨hno, -⟩⟩ :=
    sparse_expansion (fun _ => Nat.one_pos) ⟨0, fun _ _ => rfl⟩ ho
  · obtain rfl : real = 3 := (Option.some.inj hreal).symm
    rw [shows_unlimited.2] at hk
    exact hk
  · refine absurd ⟨?_, fun l h => by cases h⟩ hno
    obtain rfl : real = 3 := (Option.some.inj hreal).symm
    decide

/-- No decoded bytes at all. -/
def noBytes : Limits := { Limits.unlimited with decodedTotal := some 0 }

theorem shows_noBytes : Shows noBytes ∧ (decoding noBytes mapCutting 2).halted = true ∧
    (decoding noBytes mapCutting 2).events.length = 1 := by
  unfold Shows
  decide +kernel

/-- **A budget can stop the entry**: without room for decoded bytes it never ends. -/
theorem not_always_expanded : ¬ ∀ (limits : Limits) (B : List Byte) (c : Cutting B) (n : ℕ)
    (md : EntryMetadata) (size pad : ℕ), c.Scratch → c.Ends → OpensSparse limits c n md size pad →
    ∃ real : UInt64, md.size = some real ∧ ∃ k, Expanded (decoding limits c (n + 1))
      (decoding limits c k) (expand real.toNat md.sparse (storedAt limits c n size)) := by
  intro h
  obtain ⟨hshows, hhalt, h2⟩ := shows_noBytes
  obtain ⟨-, -, k, evs, hev, -⟩ := h noBytes mapArchive mapCutting 0 mapMetadata 1 511
    (fun _ => Nat.one_pos) ⟨0, fun _ _ => rfl⟩ hshows.opensSparse
  have h1 : (decoding noBytes mapCutting (0 + 1)).events.length = 1 := by
    rw [Nat.zero_add, hshows.1]
    rfl
  have hk : (decoding noBytes mapCutting k).events.length ≤ 1 := by
    rcases Nat.lt_or_ge k 2 with hk | hk
    · interval_cases k
      · exact Nat.zero_le _
      · exact h1.le
    · rw [decoding, run_of_halted hhalt hk]
      exact h2.le
  rw [hev, List.length_append, List.length_append, h1, List.length_singleton] at hk
  omega

end LibarchiveOxide.Tar.Expansion
