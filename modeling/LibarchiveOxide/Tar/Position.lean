import LibarchiveOxide.Tar.Plans

/-! # Where the tar decoder stands in its input

Under any budgets: the buffer of the source is a window of the input that ends where the decoder has
consumed it (`Buffers`), paddings end at a block boundary (`Padded`), and a decoder that has asked
for input cannot report an entry out of what it holds (`Starving`). `tar_placed` says so of every
run. -/

namespace LibarchiveOxide.Tar.Position

open Core.Failure Core.Budget Core.Metadata Core.Protocol Core.Drive Lib.Result Lib.Slice Tar.Header
open Tar.Source Tar.Source.TarSource Tar.Stream Tar.Plans Tar.Decoder Tar.Decoder.TarDecoder

variable {s s' : TarSource} {B : List Byte} {k : ℕ}

/-! ### The buffer -/

variable {ev : TarSourceEvent}

/-- The buffer holds the bytes of `B` just before `k`. -/
structure Buffers (B : List Byte) (s : TarSource) (k : ℕ) : Prop where
  length_le : s.buf.length ≤ k
  le_length : k ≤ B.length
  buf_eq : s.buf = window B (k - s.buf.length) k
  inBuf : s.cursor ≤ s.buf.length

/-- What a poll does to the buffer. -/
theorem cursor_of_polled {p : Poll} (h : Polled s p s') (hin : s.cursor ≤ s.buf.length) :
    s'.buf = s.buf ∧ s.cursor ≤ s'.cursor ∧ s'.cursor ≤ s.buf.length ∧ s'.finished = s.finished := by
  cases h with
  | record _ _ _ _ ha => exact ⟨rfl, by simp, by simp only [available] at *; omega, rfl⟩
  | extended _ _ _ _ ha => exact ⟨rfl, by simp, by simp only [available] at *; omega, rfl⟩
  | entry _ _ _ _ ha => exact ⟨rfl, by simp, by simp only [available] at *; omega, rfl⟩
  | recordData _ _ _ _ _ hn => exact ⟨rfl, by simp, by simp only [available] at *; omega, rfl⟩
  | recordPad _ _ _ _ hn => exact ⟨rfl, by simp, by simp only [available] at *; omega, rfl⟩
  | extension _ _ _ _ ha => exact ⟨rfl, by simp, by simp only [available] at *; omega, rfl⟩
  | lastExtension _ _ _ _ ha => exact ⟨rfl, by simp, by simp only [available] at *; omega, rfl⟩
  | payloadPad _ _ _ hn => exact ⟨rfl, by simp, by simp only [available] at *; omega, rfl⟩
  | data _ _ _ _ _ hn => exact ⟨rfl, by simp, by simp only [available] at *; omega, rfl⟩
  | _ => exact ⟨rfl, le_rfl, hin, rfl⟩

/-- What an answered source did to the buffer. -/
theorem cursor_of_answered (h : Answered s ev s') (hin : s.cursor ≤ s.buf.length) :
    s'.buf = s.buf ∧ s.cursor ≤ s'.cursor ∧ s'.cursor ≤ s.buf.length ∧ s'.finished = s.finished := by
  cases h with
  | entry _ hp => exact cursor_of_polled hp hin
  | data _ _ _ _ _ hn => exact ⟨rfl, by simp, by simp only [available] at *; omega, rfl⟩
  | _ => exact ⟨rfl, le_rfl, hin, rfl⟩

namespace Buffers

theorem of_moved (h : Buffers B s k) (hb : s'.buf = s.buf) (hc : s'.cursor ≤ s.buf.length) :
    Buffers B s' k :=
  ⟨hb ▸ h.length_le, h.le_length, hb ▸ h.buf_eq, hb ▸ hc⟩

theorem silent (h : Buffers B s k) (hs : Silent s s') : Buffers B s' k := by
  refine hs.invariant (P := fun s => Buffers B s k) h ?_
  intro s1 s2 _ hp h1
  obtain ⟨hb, -, hc, -⟩ := cursor_of_polled hp h1.inBuf
  exact h1.of_moved hb hc

theorem compact (h : Buffers B s k) : Buffers B s.compact k := by
  have hl := h.length_le
  have hin := h.inBuf
  have hlen : (s.buf.drop s.cursor).length = s.buf.length - s.cursor := List.length_drop ..
  refine ⟨?_, h.le_length, ?_, Nat.zero_le _⟩
  · simp only [TarSource.compact, hlen]
    omega
  · simp only [TarSource.compact, hlen]
    conv_lhs => rw [h.buf_eq]
    rw [window, window, List.drop_take, List.drop_drop]
    congr 1
    · omega
    · congr 1
      omega

/-- The input handed over is the part of `B` that follows. -/
theorem feed {n m : ℕ} (h : Buffers B s k) (hn : n ≤ (window B k m).length) :
    Buffers B (s.feed ((window B k m).take n)) (k + n) := by
  have hl := h.length_le
  have hk := h.le_length
  rw [length_window] at hn
  have hw : (window B k m).take n = window B k (k + n) := by
    rw [window, window, List.take_take, Nat.add_sub_cancel_left]
    congr 1
    omega
  have hlen : (window B k (k + n)).length = n := by
    rw [length_window_of_le (by omega)]
    omega
  refine ⟨?_, by omega, ?_, ?_⟩
  · simp only [TarSource.feed, List.length_append, hw, hlen]
    omega
  · simp only [TarSource.feed, List.length_append, hw, hlen]
    conv_lhs => rw [h.buf_eq]
    rw [window_join B (by omega) (by omega)]
    congr 1
    omega
  · simp only [TarSource.feed, List.length_append]
    exact h.inBuf.trans (Nat.le_add_right _ _)

theorem available_le (h : Buffers B s k) : s.available ≤ k := by
  have := h.length_le
  unfold available
  omega

/-- What the source has not read yet. -/
theorem left_eq (h : Buffers B s k) : s.rest ++ B.drop k = B.drop (k - s.available) := by
  have hl := h.length_le
  have hk := h.le_length
  have hin := h.inBuf
  have hr : s.rest = window B (k - s.available) k := by
    have := h.compact.buf_eq
    simp only [TarSource.compact, List.length_drop] at this
    exact this
  have hd : B.drop k = (B.drop (k - s.available)).drop (k - (k - s.available)) := by
    rw [List.drop_drop]
    congr 1
    unfold available
    omega
  rw [hr, hd]
  exact List.take_append_drop _ _

end Buffers

/-! ### Paddings -/

/-- The padding that is to be skipped is shorter than a block. -/
def Padded (s : TarSource) : Prop :=
  match s.state with
  | .payload _ pad => pad < BLOCK
  | .record _ _ pad => pad < BLOCK
  | .sparseExtensions _ pad => pad < BLOCK
  | _ => True

theorem roundUp_sub_lt {size up : ℕ} (h : roundUp size = .ok up) : up - size < BLOCK := by
  obtain ⟨n, hn, h⟩ := bind_eq_ok.mp h
  obtain ⟨sum, hsum, h⟩ := bind_eq_ok.mp h
  obtain ⟨rfl, -⟩ := checkedAdd_eq_some.mp (okOr_eq_ok.mp hsum)
  have hm := okOr_eq_ok.mp h
  obtain ⟨rfl, -⟩ := usizeOf_ok hn
  unfold checkedMul at hm
  split_ifs at hm
  cases hm
  simp only [BLOCK]
  omega

/-- The padding a header block announces. -/
theorem announced_pad {hdr : List Byte} {pending global : Pax.Overrides} {a : Announced}
    (h : readHeader hdr pending global = .ok a) :
    match a with
    | .record _ _ pad => pad < BLOCK
    | .entry _ pad _ => pad < BLOCK := by
  obtain ⟨⟨⟩, -, h⟩ := bind_eq_ok.mp h
  obtain ⟨size, -, h⟩ := bind_eq_ok.mp h
  split at h
  · obtain ⟨data, hd, h⟩ := bind_eq_ok.mp h
    obtain ⟨up, hu, h⟩ := bind_eq_ok.mp h
    cases h
    obtain ⟨rfl, -⟩ := usizeOf_ok hd
    exact roundUp_sub_lt hu
  · obtain ⟨⟨size, pad, stage⟩, hst, h⟩ := bind_eq_ok.mp h
    cases h
    obtain ⟨size', -, hst⟩ := bind_eq_ok.mp hst
    obtain ⟨pad', hp, hst⟩ := bind_eq_ok.mp hst
    obtain ⟨stage', -, hst⟩ := bind_eq_ok.mp hst
    cases hst
    obtain ⟨up, hu, hp⟩ := bind_eq_ok.mp hp
    obtain ⟨n, hn, hp⟩ := bind_eq_ok.mp hp
    cases hp
    obtain ⟨rfl, -⟩ := usizeOf_ok hn
    exact roundUp_sub_lt hu

theorem padded_of_polled {p : Poll} (h : Polled s p s') (hp : Padded s) : Padded s' := by
  cases h with
  | record _ _ _ _ _ _ hr => exact announced_pad hr
  | extended _ _ _ _ _ _ hr => exact announced_pad hr
  | entry _ _ _ _ _ _ hr => exact announced_pad hr
  | recordData _ _ _ _ hs => rw [Padded, hs] at hp; exact hp
  | recordPad _ _ _ hs => rw [Padded, hs] at hp; exact (Nat.sub_le _ _).trans_lt hp
  | extension _ _ _ hs => rw [Padded, hs] at hp; exact hp
  | lastExtension _ _ _ hs => rw [Padded, hs] at hp; exact hp
  | payloadPad _ _ hs => rw [Padded, hs] at hp; exact (Nat.sub_le _ _).trans_lt hp
  | data _ _ _ hs => rw [Padded, hs] at hp; exact hp
  | starved => exact hp
  | blocked => exact hp
  | alreadyDone => exact hp
  | _ => trivial

theorem padded_of_answered (h : Answered s ev s') (hp : Padded s) : Padded s' := by
  cases h with
  | entry _ hpol => exact padded_of_polled hpol hp
  | data _ _ _ _ hs => rw [Padded, hs] at hp; exact hp
  | globalMetadata => exact hp
  | needInput => exact hp
  | _ => trivial

/-! ### Starving -/

/-- The source cannot go on with what it holds. -/
def Starving (s : TarSource) : Prop :=
  s.globalChanged = false ∧
    match s.state with
    | .header => s.available < BLOCK
    | .sparseExtensions _ _ => s.available < BLOCK
    | .record _ data pad => s.available = 0 ∧ 0 < data + pad
    | .payload remaining pad => s.available = 0 ∧ 0 < remaining + pad
    | .done => True

theorem not_again_of_starving (hs : Starving s) : ¬ Polled s .again s' := by
  intro h
  obtain ⟨hg, hst⟩ := hs
  cases h with
  | record _ _ _ he ha => rw [he] at hst; exact absurd hst (not_lt.mpr ha)
  | extended _ _ _ he ha => rw [he] at hst; exact absurd hst (not_lt.mpr ha)
  | recordData _ _ _ n he hn hpos => rw [he] at hst; simp only at hst; omega
  | recordPad _ _ n he hn hpos => rw [he] at hst; simp only at hst; omega
  | recordEnd _ _ _ he => rw [he] at hst; simp at hst
  | extension _ _ _ he ha => rw [he] at hst; exact absurd hst (not_lt.mpr ha)
  | payloadPad _ n he hn hpos => rw [he] at hst; simp only at hst; omega

theorem eq_of_silent (h : Silent s s') (hs : Starving s) : s' = s := by
  cases h with
  | refl => rfl
  | head _ hp => exact absurd (polled_of_poll hp) (not_again_of_starving hs)

/-- A starving source asks for more, or is done. -/
theorem Starving.answered (hs : Starving s) (h : Answered s ev s') :
    Starving s' ∧ (ev = .needInput ∨ ev = .done) := by
  obtain ⟨hg, hst⟩ := hs
  cases h with
  | globalMetadata hg' => rw [hg] at hg'; cases hg'
  | needInput => exact ⟨⟨hg, hst⟩, .inl rfl⟩
  | done => exact ⟨⟨hg, trivial⟩, .inr rfl⟩
  | entry _ hp =>
    cases hp with
    | entry _ _ _ he ha => rw [he] at hst; exact absurd hst (not_lt.mpr ha)
    | lastExtension _ _ _ he ha => rw [he] at hst; exact absurd hst (not_lt.mpr ha)
  | data _ _ _ _ he hn hpos => rw [he] at hst; simp only at hst; omega
  | endEntry _ he => rw [he] at hst; simp at hst

theorem Starving.compact (hs : Starving s) : Starving s.compact := by
  have hav : s.compact.available = s.available := by
    simp only [available, TarSource.compact, List.length_drop, Nat.sub_zero]
  refine ⟨hs.1, ?_⟩
  rw [hav]
  exact hs.2

/-- Nothing comes out of a starving source. -/
theorem Starving.pulled (hs : Starving s) (h : s.pull = .ok (ev, s')) :
    Starving s' ∧ (ev = .needInput ∨ ev = .done) := by
  obtain ⟨s1, hsil, hans⟩ := answered_of_pull h
  rw [eq_of_silent hsil hs.compact] at hans
  exact hs.compact.answered hans

theorem limit_pos_of_polled {p : Poll} (h : Polled s p s') (hl : 0 < s.payloadChunkLimit) :
    0 < s'.payloadChunkLimit := by
  cases h with
  | extended => exact u64Max_pos
  | entry => exact u64Max_pos
  | _ => exact hl

theorem answer_of_payload_end (hg : s.globalChanged = false) (hs : s.state = .payload 0 0) :
    s.answer = .ok (.endEntry, { s with state := .header }) := by
  have hpoll : s.poll = .ok (.endEntry, { s with state := .header }) := by
    simp only [poll, hs]
    rfl
  rw [answer, if_neg (by simp [hg]), hpoll]
  rfl

/-- **A source that asks for input is starving**, if it may report data. -/
theorem starving_of_pull (h : s.pull = .ok (.needInput, s')) (hl : 0 < s.payloadChunkLimit) :
    Starving s' := by
  obtain ⟨s1, hs, ha, he⟩ := s.pull_eq
  rw [he] at h
  have hl1 : 0 < s1.payloadChunkLimit :=
    hs.invariant (P := fun s => 0 < s.payloadChunkLimit) hl fun _ hp => limit_pos_of_polled hp
  cases answered_of_answer ha h with
  | needInput hg hp =>
    refine ⟨hg, ?_⟩
    cases hp with
    | starved hw _ _ hpay hrec =>
      cases hst : s'.state with
      | header => exact hw
      | sparseExtensions => exact hw
      | done => trivial
      | record kind data pad =>
        refine ⟨hrec _ _ _ hst, Nat.pos_of_ne_zero fun h0 => ?_⟩
        obtain ⟨rfl, rfl⟩ := Nat.add_eq_zero_iff.mp h0
        -- a record that has been read is applied, so the loop goes on
        have hpoll : s'.poll = (do
            let s ← s'.applyRecord kind
            return (.again, { s with record := [], state := .header })) := by
          simp only [poll, hst]
          rfl
        rw [answer, if_neg (by simp [hg]), hpoll] at h
        cases happ : s'.applyRecord kind with
        | error e => rw [happ] at h; cases h
        | ok s2 => exact ha hg _ (by rw [hpoll, happ]; rfl)
      | payload remaining pad =>
        refine ⟨hpay _ _ hst, Nat.pos_of_ne_zero fun h0 => ?_⟩
        obtain ⟨rfl, rfl⟩ := Nat.add_eq_zero_iff.mp h0
        rw [answer_of_payload_end hg hst] at h
        cases h
    | blocked _ _ _ h0 => omega

/-! ### The decoder -/

variable {event : DecodeEvent} {source : TarSource}

/-- Where a decoder that has consumed `k` bytes of `B` stands. -/
structure Placed (B : List Byte) (d : TarDecoder) (k : ℕ) : Prop where
  buffers : Buffers B d.source k
  padded : Padded d.source
  inputFinished : d.inputFinished = d.source.finished
  finished : d.source.finished = true → k = B.length
  hungry : d.needsInput = true → Starving d.source
  inPlace : d.sparseActive = true → InPlace d

variable {d d' d1 : TarDecoder} {outputLen n m : ℕ} {eoi : EndOfInput}

theorem placed_new (B : List Byte) (limits : Limits) : Placed B (.new limits) 0 where
  buffers := ⟨le_rfl, Nat.zero_le _, by simp [TarDecoder.new, window], le_rfl⟩
  padded := trivial
  inputFinished := rfl
  finished := nofun
  hungry _ := ⟨rfl, show 0 < BLOCK by decide⟩
  inPlace := nofun

/-- A step inside a hole. -/
theorem Placed.hole {st : DecodeStep} (h : Placed B d k)
    (hh : d.sparseHole outputLen = .ok (some st, d')) : st.consumed = 0 ∧ Placed B d' k := by
  have ha := (sparseHole_some hh).1
  rcases sparseHole_inPlace (h.inPlace ha) ha outputLen with
    ⟨-, he⟩ | ⟨n, -, hp, -, he⟩ | ⟨limit, -, he⟩
  · rw [he] at hh
    cases hh
    exact ⟨rfl, h.buffers, h.padded, h.inputFinished, h.finished, h.hungry,
      fun ha => (h.inPlace ha).settled.1⟩
  · rw [he] at hh
    obtain ⟨d1, hacc, hh⟩ := bind_eq_ok.mp hh
    cases hh
    obtain ⟨-, rfl⟩ := accountData_ok hacc
    exact ⟨rfl, h.buffers, h.padded, h.inputFinished, h.finished, h.hungry,
      fun _ => ⟨hp.fits, hp.size_le⟩⟩
  · rw [he] at hh
    cases hh

/-- Outside holes the source may report data. -/
theorem Placed.ready (h : Placed B d k) (hh : d.sparseHole outputLen = .ok (none, d')) :
    Placed B d' k ∧ 0 < d'.source.payloadChunkLimit := by
  by_cases ha : d.sparseActive = true
  · rcases sparseHole_inPlace (h.inPlace ha) ha outputLen with
      ⟨-, he⟩ | ⟨n, -, -, -, he⟩ | ⟨limit, hw, he⟩
    · rw [he] at hh
      cases hh
    · rw [he] at hh
      obtain ⟨d1, -, hh⟩ := bind_eq_ok.mp hh
      cases hh
    · rw [he] at hh
      cases hh
      exact ⟨⟨⟨h.buffers.length_le, h.buffers.le_length, h.buffers.buf_eq, h.buffers.inBuf⟩,
        h.padded, h.inputFinished, h.finished, h.hungry,
        fun ha => ⟨(h.inPlace ha).settled.1.fits, h.inPlace ha |>.size_le⟩⟩, hw.pos⟩
  · rw [sparseHole, if_pos (by simpa using ha)] at hh
    cases hh
    exact ⟨⟨⟨h.buffers.length_le, h.buffers.le_length, h.buffers.buf_eq, h.buffers.inBuf⟩,
      h.padded, h.inputFinished, h.finished, h.hungry,
      fun ha => ⟨(h.inPlace ha).fits, (h.inPlace ha).size_le⟩⟩, u64Max_pos⟩

/-- The decoder that asks its source is placed past the bytes it was fed. -/
theorem Placed.handed (h : Placed B d k) (ha : Handed d (window B k m) eoi n d1)
    (hend : eoi = .end → m = B.length) : Placed B d1 (k + n) ∧
      d1.source.payloadChunkLimit = d.source.payloadChunkLimit := by
  obtain ⟨hn, hfed, rfl⟩ := ha
  have hb := h.buffers.feed hn
  have hle := h.buffers.le_length
  have hfin : d.source.finished = true → k + n = B.length := by
    intro hf
    have := h.finished hf
    rw [length_window] at hn
    omega
  have hung : (d.needsInput && n == 0) = true →
      Starving (d.source.feed ((window B k m).take n)) := by
    intro hd
    obtain ⟨h1, h2⟩ := Bool.and_eq_true_iff.mp hd
    obtain rfl : n = 0 := by simpa using h2
    rw [List.take_zero, TarSource.feed, List.append_nil]
    exact h.hungry h1
  unfold noteEnd
  split_ifs with hc
  · refine ⟨⟨⟨hb.length_le, hb.le_length, hb.buf_eq, hb.inBuf⟩, h.padded, rfl, fun _ => ?_, hung,
      fun ha => ⟨(h.inPlace ha).fits, (h.inPlace ha).size_le⟩⟩, rfl⟩
    rw [hc.2.1, length_window, hend hc.1]
    omega
  · exact ⟨⟨hb, h.padded, h.inputFinished, hfin, hung,
      fun ha => ⟨(h.inPlace ha).fits, (h.inPlace ha).size_le⟩⟩, rfl⟩

/-- What handling an event leaves of the source and the flags. -/
theorem handle_frame (h : d.handle ev = .ok (event, d')) :
    d'.source = d.source ∧ d'.inputFinished = d.inputFinished ∧ d'.limits = d.limits ∧
      (d'.needsInput = d.needsInput ∨ ev = .needInput) := by
  cases ev with
  | needInput =>
    unfold handle at h
    dsimp only at h
    split_ifs at h
    cases h
    exact ⟨rfl, rfl, rfl, .inr rfl⟩
  | archiveMetadata m => cases h; exact ⟨rfl, rfl, rfl, .inl rfl⟩
  | entry m sparse isSparse =>
    obtain ⟨d1, h1, h⟩ := bind_eq_ok.mp h
    cases h
    obtain ⟨-, -, -, _, rfl⟩ := beginEntry_ok h1
    exact ⟨rfl, rfl, rfl, .inl rfl⟩
  | data bytes =>
    obtain ⟨d1, h1, h⟩ := bind_eq_ok.mp h
    obtain ⟨d2, h2, h⟩ := bind_eq_ok.mp h
    cases h
    rw [advanceSparse_ok h1] at h2
    obtain ⟨-, rfl⟩ := accountData_ok h2
    exact ⟨rfl, rfl, rfl, .inl rfl⟩
  | endEntry =>
    unfold handle at h
    dsimp only at h
    split_ifs at h
    cases h
    exact ⟨rfl, rfl, rfl, .inl rfl⟩
  | done => cases h; exact ⟨rfl, rfl, rfl, .inl rfl⟩

/-- The extents of a new sparse entry are in place. -/
theorem inPlace_of_opens {m : EntryMetadata} {sparse : List SparseExtent} {size : UInt64}
    {remaining : ℕ} (ho : Opens source m sparse true size remaining) (hsp : d.sparse = sparse)
    (hi : d.sparseIndex = 0) (hp : d.logicalPosition = 0) (hl : d.logicalSize = size.toNat) :
    InPlace d := by
  have hv := (validateSparseExtents_ok (ho.valid rfl)).1.fits
  have hlt := size.toNat_lt
  refine ⟨?_, ?_⟩
  · rw [hsp, hi, hp, hl, List.drop_zero]
    exact hv
  · rw [hl]
    unfold u64Max
    omega

/-- The place in a sparse entry after an event. -/
theorem inPlace_of_handle {s1 : TarSource} (h : d.sparseActive = true → InPlace d)
    (ha : Answered s1 ev source) (hh : ({ d with source } : TarDecoder).handle ev = .ok (event, d'))
    (hact : d'.sparseActive = true) : InPlace d' := by
  cases ha with
  | globalMetadata => cases hh; exact ⟨(h hact).fits, (h hact).size_le⟩
  | needInput =>
    unfold handle at hh
    dsimp only at hh
    split_ifs at hh
    cases hh
    exact ⟨(h hact).fits, (h hact).size_le⟩
  | done => cases hh; exact ⟨(h hact).fits, (h hact).size_le⟩
  | entry _ _ ho =>
    obtain ⟨d1, h1, hh⟩ := bind_eq_ok.mp hh
    cases hh
    obtain ⟨-, -, -, metadataBytes, rfl⟩ := beginEntry_ok h1
    have hact' : _ = true := hact
    simp only at hact'
    subst hact'
    exact inPlace_of_opens ho rfl rfl rfl (by simp [ho.size_eq])
  | data =>
    obtain ⟨d1, h1, hh⟩ := bind_eq_ok.mp hh
    obtain ⟨d2, h2, hh⟩ := bind_eq_ok.mp hh
    cases hh
    obtain ⟨-, rfl⟩ := accountData_ok h2
    have hact1 : d.sparseActive = true := by
      rw [advanceSparse_ok h1] at hact
      exact hact
    have hin : InPlace d1 := by
      refine InPlace.of_advanceSparse ?_ ?_ h1
      · exact ⟨(h hact1).fits, (h hact1).size_le⟩
      · exact hact1
    exact ⟨hin.fits, hin.size_le⟩
  | endEntry =>
    unfold handle at hh
    dsimp only at hh
    split_ifs at hh
    cases hh
    cases hact

/-- The answer of the source keeps the decoder placed. -/
theorem Placed.pulled (h : Placed B d k) (hl : 0 < d.source.payloadChunkLimit)
    (hp : d.source.pull = .ok (ev, source))
    (hh : ({ d with source } : TarDecoder).handle ev = .ok (event, d')) : Placed B d' k := by
  obtain ⟨s1, hsil, hans⟩ := answered_of_pull hp
  have hb1 := h.buffers.compact.silent hsil
  have hpad1 : Padded s1 := hsil.invariant (P := Padded) h.padded fun _ hp => padded_of_polled hp
  obtain ⟨hbuf, -, hcur, hfin⟩ := cursor_of_answered hans hb1.inBuf
  have hfin1 : s1.finished = d.source.finished :=
    hsil.invariant (P := fun s => s.finished = d.source.finished ∧ s.cursor ≤ s.buf.length)
      ⟨rfl, Nat.zero_le _⟩ (fun _ hp h => by
        obtain ⟨hb, -, hc, hf⟩ := cursor_of_polled hp h.2
        exact ⟨hf.trans h.1, hb ▸ hc⟩) |>.1
  obtain ⟨e1, e2, -, e4⟩ := handle_frame hh
  refine ⟨e1 ▸ hb1.of_moved hbuf hcur, e1 ▸ padded_of_answered hans hpad1, ?_, ?_, ?_,
    inPlace_of_handle h.inPlace hans hh⟩
  · rw [e1, e2]
    exact h.inputFinished.trans (hfin.trans hfin1).symm
  · rw [e1]
    intro hf
    exact h.finished ((hfin.trans hfin1).symm.trans hf)
  · rw [e1]
    intro hn
    rcases e4 with e4 | rfl
    · exact ((h.hungry (e4 ▸ hn)).pulled hp).1
    · exact starving_of_pull hp hl

/-- **Every step keeps the decoder placed.** -/
theorem Placed.step {st : DecodeStep} (h : Placed B d k)
    (hs : d.step (window B k m) outputLen eoi = .ok (st, d')) (hend : eoi = .end → m = B.length) :
    Placed B d' (k + st.consumed) := by
  rcases step_ok hs with ⟨-, -, rfl, rfl⟩ | ⟨-, hh⟩ |
    ⟨-, d0, n, d1, ev, source, event, h0, ha, hp, hh, rfl⟩
  · exact h
  · obtain ⟨h1, h2⟩ := h.hole hh
    rw [h1]
    exact h2
  · obtain ⟨hr, hl⟩ := h.ready h0
    obtain ⟨h1, hl1⟩ := hr.handed ha hend
    exact h1.pulled (hl1 ▸ hl) hp hh

/-- **Where the decoder stands** along a run. -/
theorem tar_placed (limits : Limits) (c : Cutting B) : ∀ n,
    Placed B (run TarDecoder.step (.new limits) c n).decoder
      (run TarDecoder.step (.new limits) c n).consumed
  | 0 => placed_new B limits
  | n + 1 => by
    have ih := tar_placed limits c n
    rw [run, Run.advance]
    split_ifs with hh
    · exact ih
    · split
      · exact ih
      · next hs => exact ih.step hs fun he => c.supplied_of_end n he

end LibarchiveOxide.Tar.Position
