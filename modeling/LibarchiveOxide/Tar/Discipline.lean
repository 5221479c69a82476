import LibarchiveOxide.Core.Grammar
import LibarchiveOxide.Tar.DecoderLemmas

/-! # The events of the tar decoder

Between entries the source is outside a payload. Inside one, the decoder's count of data bytes is the
length of the windows; for a dense entry the bytes not yet reported are those the source still has to
deliver, for a sparse one the count is the logical position. So an entry that ends has reported as
many bytes as it declared. -/

namespace LibarchiveOxide.Tar.Discipline

open Core.Failure Core.Budget Core.Metadata Core.Protocol Core.Drive Core.Grammar Lib.Result
open Tar.Header Tar.Source Tar.Decoder Tar.Source.TarSource Tar.Decoder.TarDecoder

/-! ### The source -/

/-- The source is not in a payload. -/
structure Outside (s : TarSource) : Prop where
  flagged : s.Flagged
  state : ∀ remaining pad, s.state ≠ .payload remaining pad

/-- The source has `remaining` bytes of a payload to deliver. -/
structure Inside (s : TarSource) (remaining : ℕ) : Prop where
  unchanged : s.globalChanged = false
  state : ∃ pad, s.state = .payload remaining pad

section
variable {s s' : TarSource} {remaining : ℕ}

theorem Outside.silent (hs : Silent s s') (h : Outside s) : Outside s' := by
  refine hs.invariant h ?_
  intro s1 s2 _ hp h1
  refine ⟨flagged_of_polled hp h1.flagged, ?_⟩
  cases hp with
  | payloadPad pad n hs => exact absurd hs (h1.state 0 pad)
  | _ => simp

theorem Inside.silent (hs : Silent s s') (h : Inside s remaining) : Inside s' remaining := by
  refine hs.invariant (P := fun s => Inside s remaining) h ?_
  intro s1 s2 _ hp h1
  obtain ⟨pad, hst⟩ := h1.state
  refine ⟨?_, ?_⟩
  · cases hp with
    | recordEnd kind pending global hs => rw [hst] at hs; simp at hs
    | _ => exact h1.unchanged
  · cases hp with
    | record kind data pad' hs => rw [hst] at hs; simp at hs
    | extended size pad' stage hs => rw [hst] at hs; simp at hs
    | recordData kind data pad' n hs => rw [hst] at hs; simp at hs
    | recordPad kind pad' n hs => rw [hst] at hs; simp at hs
    | recordEnd kind pending global hs => rw [hst] at hs; simp at hs
    | extension r pad' more hs => rw [hst] at hs; simp at hs
    | payloadPad pad' n hs =>
      rw [hst] at hs
      simp only [State.payload.injEq] at hs
      exact ⟨pad' - n, by rw [hs.1]⟩

theorem state_of_polled_entry (h : Polled s .entry s') (r pad : ℕ) : s.state ≠ .payload r pad := by
  intro hst
  cases h with
  | entry size pad' stage hs => rw [hst] at hs; simp at hs
  | lastExtension r' pad' more hs => rw [hst] at hs; simp at hs

theorem globalChanged_of_polled_entry (h : Polled s .entry s') :
    s'.globalChanged = s.globalChanged := by
  cases h with
  | entry => rfl
  | lastExtension => rfl

end

/-! ### The decoder -/

/-- Inside the entry `m`, after some windows. -/
structure Reading (d : TarDecoder) (m : EntryMetadata) (windows : List (List Byte)) : Prop where
  count : d.entryBytes = windowBytes windows
  size : m.size.map UInt64.toNat = some d.logicalSize
  payload : ∃ remaining, Inside d.source remaining ∧
    (d.sparseActive = false → windowBytes windows + remaining = d.logicalSize)
  position : d.sparseActive = true → d.logicalPosition = windowBytes windows

/-- Where the decoder stands, as its events tell. -/
def Stands (d : TarDecoder) : Phase → Prop
  | .between => d.done = false ∧ d.sparseActive = false ∧ Outside d.source
  | .inside m windows => d.done = false ∧ Reading d m windows
  | .finished => True

/-- What holds along a run. -/
structure Disciplined (limits : Limits) (d : TarDecoder) (evs : List DecodeEvent) (p : Phase) :
    Prop where
  limits_eq : d.limits = limits
  ledger : Ledger limits Exact evs p d.totalBytes d.entries
  count : entryCount evs = d.entries
  stands : Stands d p

section
variable {limits : Limits} {d d' d1 : TarDecoder} {evs : List DecodeEvent} {p : Phase}
  {m : EntryMetadata} {windows : List (List Byte)}

/-- Only some fields matter, and of the source only where it is. -/
theorem Stands.congr (h : Stands d p) (hdone : d'.done = d.done)
    (hcount : d'.entryBytes = d.entryBytes) (hsize : d'.logicalSize = d.logicalSize)
    (hact : d'.sparseActive = d.sparseActive) (hpos : d'.logicalPosition = d.logicalPosition)
    (hout : Outside d.source → Outside d'.source)
    (hin : ∀ r, Inside d.source r → Inside d'.source r) : Stands d' p := by
  cases p with
  | finished => trivial
  | between => exact ⟨hdone.trans h.1, hact.trans h.2.1, hout h.2.2⟩
  | inside m windows =>
    obtain ⟨hd, hr⟩ := h
    refine ⟨hdone.trans hd, hcount.trans hr.count, hsize ▸ hr.size, ?_, ?_⟩
    · obtain ⟨r, hi, he⟩ := hr.payload
      exact ⟨r, hin r hi, by rw [hact, hsize]; exact he⟩
    · rw [hact, hpos]
      exact hr.position

theorem size_lt (h : m.size.map UInt64.toNat = some d.logicalSize) : d.logicalSize ≤ u64Max := by
  cases hs : m.size with
  | none => simp [hs] at h
  | some v =>
    have hlt := v.toNat_lt
    simp only [hs, Option.map_some, Option.some.injEq] at h
    unfold u64Max
    omega

theorem nextStored_le_max (h : m.size.map UInt64.toNat = some d.logicalSize) :
    d.nextStored ≤ u64Max := by
  unfold nextStored
  cases hx : d.sparse[skipFinished d.sparse d.sparseIndex d.logicalPosition]? with
  | none => exact size_lt h
  | some e =>
    have hle := e.end_le
    simp only [Option.map_some, Option.getD_some]
    omega

/-- A step in a hole. -/
theorem disciplined_hole {outputLen : ℕ} {st : DecodeStep} (h : Disciplined limits d evs p)
    (hl : evs.getLast? ≠ some .done) (hh : d.sparseHole outputLen = .ok (some st, d')) :
    ∃ p', Disciplined limits d' (evs ++ [st.event]) p' := by
  obtain ⟨hact, -, index, ⟨-, rfl, rfl⟩ | ⟨n, hpos, -, hle, hroom, rfl, rfl⟩⟩ := sparseHole_some hh
  · have hp := h.ledger.trace.not_finished hl
    refine ⟨p, h.limits_eq, h.ledger.request rfl hp, ?_, ?_⟩
    · exact (entryCount_append_of_not rfl).trans h.count
    · exact h.stands.congr rfl rfl rfl rfl rfl id fun _ => id
  · obtain ⟨hlim, hled, hcount, hst⟩ := h
    cases p with
    | finished => exact absurd rfl (hled.trace.not_finished hl)
    | between => exact absurd hact (by simp [hst.2.1])
    | inside m windows =>
      obtain ⟨hdone, hr⟩ := hst
      have hmax := nextStored_le_max hr.size
      have hmod : (d.logicalPosition + n) % 2 ^ 64 = d.logicalPosition + n := by
        apply Nat.mod_eq_of_lt
        unfold u64Max at hmax
        omega
      have hlen : (List.replicate n (0 : Byte)).length = n := List.length_replicate ..
      have hdata := hled.data (b := List.replicate n 0) (by rw [hlen]; exact hroom.total_le)
        (by rw [hlen, ← hlim]; exact hroom.total) (by rw [hlen, ← hlim, ← hr.count]; exact hroom.entry)
      rw [hlen] at hdata
      refine ⟨.inside m (windows ++ [List.replicate n 0]), hlim, hdata, ?_, hdone, ?_, hr.size, ?_,
        ?_⟩
      · exact (entryCount_append_of_not rfl).trans hcount
      · simp only [charged, windowBytes_append, hlen, hr.count]
      · obtain ⟨remaining, hin, -⟩ := hr.payload
        refine ⟨remaining, hin, fun hd => ?_⟩
        simp only [charged] at hd
        rw [hact] at hd
        cases hd
      · intro _
        rw [windowBytes_append, hlen, ← hr.position hact]
        exact hmod

/-- The source is asked: nothing but the buffer and the window limit has changed. -/
theorem stands_asked {input : List Byte} {eoi : EndOfInput} {k : ℕ} {s1 : TarSource}
    (ha : Asks d input eoi k d1) (hs : Silent d1.source.compact s1) (h : Stands d p) :
    Stands { d1 with source := s1 } p := by
  obtain ⟨index, limit, finished, inputFinished, needsInput, rfl⟩ := ha.frame
  refine h.congr rfl rfl rfl rfl rfl ?_ ?_
  · intro ho
    exact Outside.silent hs ⟨ho.flagged, ho.state⟩
  · intro r hi
    exact Inside.silent hs ⟨hi.unchanged, hi.state⟩

/-- The answer of the source becomes the event. -/
theorem disciplined_handle {ev : TarSourceEvent} {source : TarSource} {event : DecodeEvent}
    (h : Disciplined limits d evs p) (hl : evs.getLast? ≠ some .done)
    (ha : Answered d.source ev source)
    (hh : ({ d with source } : TarDecoder).handle ev = .ok (event, d')) :
    ∃ p', Disciplined limits d' (evs ++ [event]) p' := by
  obtain ⟨hlim, hled, hcount, hst⟩ := h
  have hnf := hled.trace.not_finished hl
  cases ha with
  | globalMetadata hg =>
    cases hh
    cases p with
    | finished => exact absurd rfl hnf
    | inside m windows =>
      obtain ⟨_, hin, -⟩ := hst.2.payload
      exact absurd hg (by simp [hin.unchanged])
    | between =>
      obtain ⟨hd, hact, hout⟩ := hst
      refine ⟨.between, hlim, hled.archiveMetadata _, ?_, hd, hact, hout.flagged, hout.state⟩
      exact (entryCount_append_of_not rfl).trans hcount
  | needInput hg hp =>
    unfold handle at hh
    dsimp only at hh
    split_ifs at hh
    cases hh
    refine ⟨p, hlim, hled.request rfl hnf, (entryCount_append_of_not rfl).trans hcount, ?_⟩
    exact hst.congr rfl rfl rfl rfl rfl id fun _ => id
  | done hg hs =>
    cases hh
    cases p with
    | finished => exact absurd rfl hnf
    | between =>
      exact ⟨.finished, hlim, hled.done, (entryCount_append_of_not rfl).trans hcount, trivial⟩
    | inside m windows =>
      obtain ⟨_, hin, -⟩ := hst.2.payload
      obtain ⟨pad, hp⟩ := hin.state
      rcases hs with hs | hs
      · rw [hp] at hs; simp at hs
      · rw [hp] at hs; simp at hs
  | @entry hg _ m sparse isSparse size remaining hp ho hd =>
    obtain ⟨d1, h1, hh⟩ := bind_eq_ok.mp hh
    cases hh
    obtain ⟨hmax, hent, hpath, metadataBytes, rfl⟩ := beginEntry_ok h1
    cases p with
    | finished => exact absurd rfl hnf
    | inside m' windows =>
      obtain ⟨_, hin, -⟩ := hst.2.payload
      obtain ⟨pad, hs⟩ := hin.state
      exact absurd hs (state_of_polled_entry hp _ _)
    | between =>
      obtain ⟨hdone, hact, hout⟩ := hst
      have hled' := hled.begin (Nat.le_succ _) hmax (hlim ▸ hent)
      refine ⟨.inside m [], hlim, hled'.entry ?_ (hlim ▸ hpath), ?_, hdone, rfl, ?_, ?_, ?_⟩
      · rw [hcount]
        exact Nat.lt_succ_self _
      · rw [entryCount_append_entry, hcount]
      · simp [ho.size_eq]
      · refine ⟨remaining, ⟨?_, ho.state_eq⟩, ?_⟩
        · exact (globalChanged_of_polled_entry hp).trans hg
        · intro hs
          simp only [ho.size_eq, windowBytes_nil, Nat.zero_add, Option.map_some, Option.getD_some]
          exact (hd hout.flagged hs).symm
      · intro _
        rfl
  | data hg remaining pad n hs hn hpos =>
    obtain ⟨d1, h1, hh⟩ := bind_eq_ok.mp hh
    obtain ⟨d2, h2, hh⟩ := bind_eq_ok.mp hh
    cases hh
    rw [advanceSparse_ok h1] at h2
    obtain ⟨hroom, rfl⟩ := accountData_ok h2
    cases p with
    | finished => exact absurd rfl hnf
    | between => exact absurd hs (hst.2.2.state remaining pad)
    | inside m windows =>
      obtain ⟨hdone, hr⟩ := hst
      have hlen : (d.source.rest.take n).length = n := by
        rw [List.length_take, length_rest]
        omega
      have hdata := hled.data (b := d.source.rest.take n) hroom.total_le
        (hlim ▸ hroom.total) (by rw [← hlim, ← hr.count]; exact hroom.entry)
      refine ⟨.inside m (windows ++ [d.source.rest.take n]), hlim, hdata,
        (entryCount_append_of_not rfl).trans hcount, hdone, ?_, hr.size, ?_, ?_⟩
      · simp only [charged, windowBytes_append, hr.count]
      · obtain ⟨r, hin, he⟩ := hr.payload
        obtain ⟨pad', hs'⟩ := hin.state
        rw [hs] at hs'
        simp only [State.payload.injEq] at hs'
        obtain ⟨rfl, rfl⟩ := hs'
        refine ⟨remaining - n, ⟨hg, pad, rfl⟩, ?_⟩
        intro hact
        have := he hact
        simp only [charged, windowBytes_append, hlen]
        omega
      · intro hact
        have hact' : d.sparseActive = true := hact
        simp only [charged, windowBytes_append, hact', if_true, hr.position hact']
  | endEntry hg hs =>
    unfold handle at hh
    dsimp only at hh
    split_ifs at hh with hf
    cases hh
    cases p with
    | finished => exact absurd rfl hnf
    | between => exact absurd hs (hst.2.2.state 0 0)
    | inside m windows =>
      obtain ⟨hdone, hr⟩ := hst
      have hexact : Exact m windows := by
        rw [Exact, hr.size]
        congr 1
        by_cases hact : d.sparseActive = true
        · rw [← hr.position hact]
          by_contra hne
          exact hf ⟨hact, fun he => hne he.symm⟩
        · obtain ⟨r, hin, he⟩ := hr.payload
          obtain ⟨pad', hs'⟩ := hin.state
          rw [hs] at hs'
          simp only [State.payload.injEq] at hs'
          have := he (by simpa using hact)
          omega
      refine ⟨.between, hlim, hled.endEntry hexact, (entryCount_append_of_not rfl).trans hcount,
        hdone, rfl, ?_, ?_⟩
      · intro _ _ h
        simp at h
      · intro _ _ h
        simp at h

/-- **Every step of the decoder keeps the account.** -/
theorem disciplined_step {input : List Byte} {outputLen : ℕ} {eoi : EndOfInput} {st : DecodeStep}
    (h : Disciplined limits d evs p) (hl : evs.getLast? ≠ some .done)
    (hs : d.step input outputLen eoi = .ok (st, d')) :
    ∃ p', Disciplined limits d' (evs ++ [st.event]) p' := by
  have hnf := h.ledger.trace.not_finished hl
  cases stepped_of_step hs with
  | finished hd =>
    have hst := h.stands
    cases p with
    | finished => exact absurd rfl hnf
    | between => exact absurd hst.1 (by simp [hd])
    | inside m windows => exact absurd hst.1 (by simp [hd])
  | hole _ hh => exact disciplined_hole h hl hh
  | @asked _ k d1 _ ev source event ha hp hh =>
    obtain ⟨s1, hsil, hans⟩ := answered_of_pull hp
    have hasked : Disciplined limits { d1 with source := s1 } evs p := by
      refine ⟨?_, ?_, ?_, stands_asked ha hsil h.stands⟩ <;>
        obtain ⟨index, limit, finished, inputFinished, needsInput, rfl⟩ := ha.frame
      · exact h.limits_eq
      · exact h.ledger
      · exact h.count
    exact disciplined_handle hasked hl hans hh

end

/-- The account of a run. -/
theorem tar_disciplined (limits : Limits) {B : List Byte} (c : Cutting B) (n : ℕ) :
    ∃ p, Disciplined limits (run TarDecoder.step (.new limits) c n).decoder
      (run TarDecoder.step (.new limits) c n).events p := by
  refine run_induction (P := fun d evs => ∃ p, Disciplined limits d evs p) ?_ ?_ n
  · refine ⟨.between, rfl, ledger_nil _ _, rfl, rfl, rfl, ?_, ?_⟩
    · intro _ _ h
      simp [TarDecoder.new] at h
    · intro _ _ h
      simp [TarDecoder.new] at h
  · rintro d evs input outputLen eoi st d' ⟨p, h⟩ hl hs
    exact disciplined_step h hl hs

end LibarchiveOxide.Tar.Discipline
