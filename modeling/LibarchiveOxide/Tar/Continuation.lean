import LibarchiveOxide.Tar.Extensions

/-! # Runs up to the end of the extension blocks

The decoder follows the stream machine up to the old-GNU header, and then waits for extension blocks
until the input holds all of them (`Approaches.succ`). So one call answers for them (`completed`). -/

namespace LibarchiveOxide.Tar.Continuation

open Core.Failure Core.Budget Core.Metadata Core.Protocol Core.Drive Lib.Machine Lib.Result
open Lib.Slice Tar.Header Tar.Pax Tar.Source Tar.Source.TarSource Tar.Stream Tar.Plans
open Tar.Simulation Tar.Refinement Tar.Position Tar.Decoder Tar.Decoder.TarDecoder Tar.Expansion
open Tar.ChunkInvariance Tar.Extensions

/-- The machine has come, with the output `ats`, to an old-GNU header at `start` that can be staged
and whose extension blocks are empty. -/
structure Site (B : List Byte) (ats : List Atom) (cfg : Config) (hdr : List Byte)
    (exts : List (List Byte)) (size pad : ℕ) (stage : Stage) (start : ℕ) : Prop where
  steps : Steps machine (initial B) ats cfg
  unchanged : cfg.globalChanged = false
  phase : cfg.phase = .header
  stream : cfg.stream = B.drop start
  start_le : start + BLOCK ≤ B.length
  block : cfg.stream.take BLOCK = hdr
  nonzero : ¬ hdr.all (· == 0)
  read : readHeader hdr cfg.pending cfg.global = .ok (.entry size pad stage)
  extended : isExtended hdr = true
  empties : Empties B exts (start + BLOCK)
  valid : validateSparseExtents stage.sparse stage.logicalSize.toNat size = .ok ()
  nonempty : exts ≠ []

/-- Before the answer: the decoder has not come to the header, or it waits for an extension block. -/
inductive Approaches {B : List Byte} (ats : List Atom) (cfg : Config) (stage : Stage)
    (size pad q : ℕ) (exts : List (List Byte)) (c : Cutting B) (n : ℕ) : Prop
  | before (hg : (decoding .unlimited c n).halted = false) (k : Config)
      (hs : Steps machine (initial B) (decoding .unlimited c n).atoms k)
      (hr : Rep (decoding .unlimited c n).decoder (B.drop (decoding .unlimited c n).consumed) k)
  | waiting (hg : (decoding .unlimited c n).halted = false)
      (ha : (decoding .unlimited c n).atoms = ats) (j : ℕ) (hj : j < exts.length)
      (hw : Waiting B cfg stage size pad q j (decoding .unlimited c n).decoder
        (decoding .unlimited c n).consumed)

/-- The call that answers for the extension blocks that end at `e`: the output before it is `ats`, and
its bytes reach from before the end of the blocks to behind it. -/
structure Completes {B : List Byte} (ats : List Atom) (e : ℕ) (c : Cutting B) (n : ℕ) : Prop where
  going : (decoding .unlimited c n).halted = false
  atoms_eq : (decoding .unlimited c n).atoms = ats
  place_lt : place c n < e
  le_held : e ≤ heldAt c n

variable {B hdr : List Byte} {ats : List Atom} {cfg k : Config} {exts : List (List Byte)}
  {size pad start n : ℕ} {stage : Stage} {c : Cutting B}

/-! ### The machine at the site -/

theorem Site.halt (h : Site B ats cfg hdr exts size pad stage start) :
    machine cfg = .halt .extended := by
  have hlen : cfg.stream.length = B.length - start := by rw [h.stream, List.length_drop]
  have hle := h.start_le
  rw [machine, h.phase]
  simp only [onHeader]
  rw [if_neg (by simp [h.unchanged]), h.block, if_neg, h.read]
  · simp only [onAnnounced]
    rw [if_pos h.extended]
  · rintro (h1 | h1)
    · omega
    · exact h.nonzero h1

/-- A configuration on the way to the site. -/
theorem Site.ahead (h : Site B ats cfg hdr exts size pad stage start) {bs : List Atom}
    (hs : Steps machine (initial B) bs k) : ∃ cs, ats = bs ++ cs ∧ Steps machine k cs cfg := by
  obtain ⟨cs, hcs, c', hs', hm⟩ := Halts.of_steps ⟨cfg, h.steps, h.halt⟩ hs
  exact ⟨cs, hcs, (hs.trans hs').halt_unique hm h.steps h.halt ▸ hs'⟩

/-- No other end is reached from a configuration on the way. -/
theorem Site.only (h : Site B ats cfg hdr exts size pad stage start) {bs cs : List Atom}
    {o : Outcome} (hs : Steps machine (initial B) bs k) (hh : Halts machine k cs o) :
    o = .extended ∧ ats = bs ++ cs := by
  obtain ⟨h1, h2⟩ := (Halts.prepend hs hh).unique ⟨cfg, h.steps, h.halt⟩
  exact ⟨h2, h1.symm⟩

/-- Where the decoder stands in the input on the way. -/
theorem Site.place_le (h : Site B ats cfg hdr exts size pad stage start) {d : TarDecoder} {p : ℕ}
    (hp : Placed B d p) (hr : Rep d (B.drop p) k) {cs : List Atom} (hs : Steps machine k cs cfg) :
    p - d.source.available ≤ start := by
  have hsuf := (suffix_of_steps hs).length_le
  have hstream : k.stream = B.drop (p - d.source.available) := by
    rw [← hr.source.stream, hp.buffers.left_eq]
  have h1 := hp.buffers.le_length
  have h2 := h.start_le
  rw [hstream, h.stream, List.length_drop, List.length_drop] at hsuf
  omega

/-! ### The call that polls the header -/

theorem extending_of_polled {s : TarSource} {p : ℕ} (h : Site B ats cfg hdr exts size pad stage start)
    (hb : Buffers B s p) (hr : SourceRep s (B.drop p) cfg) (hg : s.globalChanged = false)
    (hp : PollsExtended s) (hf : s.finished = true → p = B.length) :
    ∃ s', s.poll = .ok (.again, s') ∧
      Extending B stage cfg.global size pad (start + BLOCK) 0 s' p := by
  obtain ⟨hst, hav, hz, hx⟩ := hp
  have hblock : s.block = hdr := by rw [← h.block, hr.block hav]
  have hin := hb.inBuf
  refine ⟨{ s with
    pending := {}, stage := stage, payloadChunkLimit := u64Max, cursor := s.cursor + BLOCK
    state := .sparseExtensions size pad }, ?_, ?_, rfl, rfl, hr.global, hg, ?_, hf⟩
  · have hread : readHeader s.block s.pending s.global = .ok (.entry size pad stage) := by
      rw [hblock, hr.pending, hr.global]
      exact h.read
    simp only [poll, hst, pollHeader]
    rw [if_neg (by omega), if_neg hz, hread]
    simp only [ok_bind, enter, hblock, h.extended, if_true]
    rfl
  · refine hb.of_moved rfl ?_
    simp only [available] at hav ⊢
    omega
  · have hplace : B.drop start = B.drop (p - s.available) := by
      rw [← h.stream, ← hr.stream, hb.left_eq]
    have hlen := congrArg List.length hplace
    have h1 := hb.available_le
    have h2 := hb.le_length
    have h3 := h.start_le
    rw [List.length_drop, List.length_drop] at hlen
    simp only [available] at *
    omega

/-- Outside an entry the decoder is between entries. -/
theorem between_of_rep {d : TarDecoder} {tail : List Byte} (hr : Rep d tail k)
    (hp : plan k = none) : Between k d :=
  ⟨hr.limits, hr.notDone, by have := hr.plan; rw [hp] at this; exact this, hr.entries, hr.totalBytes,
    hr.metadataBytes⟩

theorem Site.chain (h : Site B ats cfg hdr exts size pad stage start)
    (hr : Rep (decoding .unlimited c n).decoder (B.drop (decoding .unlimited c n).consumed) k)
    (hx : Extends (decoding .unlimited c n).decoder
      (window B (decoding .unlimited c n).consumed (c.supplied n)) (c.outputLen n) (c.eoi n) k)
    (hs : Steps machine k [] cfg) (hb : Between k (decoding .unlimited c n).decoder)
    (hcut : window B (decoding .unlimited c n).consumed (c.supplied n) ++ B.drop (c.supplied n) =
      B.drop (decoding .unlimited c n).consumed) :
    Between cfg (decoding .unlimited c n).decoder ∧ ∀ d1,
      Handed ((decoding .unlimited c n).decoder.setChunkLimit u64Max)
        (window B (decoding .unlimited c n).consumed (c.supplied n)) (c.eoi n)
        (taken (decoding .unlimited c n).decoder
          (window B (decoding .unlimited c n).consumed (c.supplied n))) d1 →
      ∃ j s1, j < exts.length ∧ Silent d1.source.compact s1 ∧
        Extending B stage cfg.global size pad (start + BLOCK) j s1 (heldAt c n) := by
  have hend : c.eoi n = .end → B.drop (c.supplied n) = [] := fun he => by
    rw [c.supplied_of_end n he, List.drop_length]
  rw [← hcut] at hr
  obtain ⟨d0, m, d2, s1, c1, hhole, hfeed, hsil, hg, hp, hq, hrep, hm⟩ :=
    reaches_of_extends hr hend hx
  obtain rfl := hq.steps.halt_unique hm hs h.halt
  rw [hb.sparseHole] at hhole
  cases hhole
  obtain ⟨d3, hfeed'⟩ := hb.feedInput (window B (decoding .unlimited c n).consumed (c.supplied n))
  rw [hfeed'] at hfeed
  cases hfeed
  refine ⟨⟨hb.limits, hb.notDone, hb.dense, hb.entries.trans hq.entries.symm,
    hb.totalBytes.trans hq.totalBytes.symm, hb.metadataBytes.trans hq.metadataBytes.symm⟩, ?_⟩
  intro d1 ha
  have hhanded : Handed _ _ (c.eoi n) _ _ := handed_of_feed hfeed'
  obtain rfl := ha.eq.trans hhanded.eq.symm
  have hset := ((tar_placed .unlimited c n).ready (hb.sparseHole (c.outputLen n))).1
  have hp1 := (hset.handed ha (c.supplied_of_end n)).1
  change Placed B _ ((decoding .unlimited c n).consumed + _) at hp1
  rw [← heldAt_eq] at hp1
  rw [hcut, List.drop_drop, ← heldAt_eq] at hrep
  obtain ⟨s2, hpoll, he⟩ := extending_of_polled h (hp1.buffers.compact.silent hsil) hrep hg hp
    fun hf => hp1.finished (finished_of_silent hsil ▸ hf)
  exact ⟨0, s2, List.length_pos_iff.mpr h.nonempty, hsil.snoc hg hpoll, he⟩

/-! ### One call -/

/-- Between entries, a call without output asks for more input. -/
theorem asks_of_silent {d d' : TarDecoder} {input : List Byte} {outputLen : ℕ} {eoi : EndOfInput}
    {st : DecodeStep} (hb : Between k d) (hs : d.step input outputLen eoi = .ok (st, d'))
    (he : st.event ≠ .done) (ha : atoms st.event = []) :
    d'.needsInput = true ∧ st.consumed = taken d input := by
  obtain ⟨d1, -, hstep⟩ := hb.step_eq input outputLen eoi
  rw [hstep] at hs
  obtain ⟨⟨ev, d2⟩, hr, hs⟩ := map_eq_ok.mp hs
  cases hs
  refine ⟨?_, rfl⟩
  obtain ⟨⟨sev, s2⟩, hp, hh⟩ := bind_eq_ok.mp hr
  obtain ⟨s1, -, hans⟩ := answered_of_pull (mapError_eq_ok.mp hp)
  cases hans with
  | needInput =>
    simp only [handle] at hh
    split_ifs at hh
    cases hh
    rfl
  | globalMetadata => cases hh; cases ha
  | done => cases hh; exact absurd rfl he
  | entry =>
    obtain ⟨d3, -, hh⟩ := bind_eq_ok.mp hh
    cases hh
    cases ha
  | endEntry =>
    simp only [handle] at hh
    split_ifs at hh
    cases hh
    cases ha
  | data _ r p m hs hm hpos =>
    obtain ⟨d3, -, hh⟩ := bind_eq_ok.mp hh
    obtain ⟨d4, -, hh⟩ := bind_eq_ok.mp hh
    cases hh
    have hlen : (s1.rest.take m).length = m := by
      rw [List.length_take, length_rest]
      omega
    have hnil : s1.rest.take m = [] := by simpa [atoms] using ha
    rw [hnil, List.length_nil] at hlen
    omega

theorem plan_none_of_silent {as : List Atom} (hs : Steps machine k as cfg) (has : as = [])
    (hph : cfg.phase = .header) : plan k = none := by
  induction hs with
  | refl => rw [plan, hph]
  | @head k k1 k2 as bs h1 h2 ih =>
    obtain ⟨rfl, rfl⟩ := List.append_eq_nil_iff.mp has
    have hk1 := ih rfl hph
    rw [plan] at hk1 ⊢
    cases hk : k.phase with
    | header => rfl
    | record => rfl
    | payload p pad =>
      rw [machine, hk] at h1
      simp only [onPayload, emit, truncated] at h1
      split at h1
      all_goals first
        | (split_ifs at h1; cases h1)
        | (cases h1; cases hk1)
        | cases h1

/-- A source that stands where the machine stands and cannot go on holds less than a block. -/
theorem available_lt_of_starving {s : TarSource} {tail : List Byte} (hr : SourceRep s tail k)
    (hs : Starving s) : s.available < BLOCK := by
  have hph := hr.phase
  obtain ⟨-, hst⟩ := hs
  cases hk : k.phase with
  | header =>
    rw [hk] at hph
    rw [show s.state = .header from hph] at hst
    exact hst
  | record kind data pad acc =>
    rw [hk] at hph
    rw [hph.1] at hst
    exact hst.1 ▸ (by decide)
  | payload p pad =>
    rw [hk] at hph
    rw [hph.1] at hst
    exact hst.1 ▸ (by decide)

/-- The call that answers for the extension blocks. -/
structure Concludes (ats : List Atom) (cfg : Config) (stage : Stage) (size pad q : ℕ)
    (exts : List (List Byte)) (c : Cutting B) (n : ℕ) : Prop where
  completes : Completes ats (q + BLOCK * exts.length) c n
  between : Between cfg (decoding .unlimited c n).decoder
  call : Call cfg stage size pad q exts c n

/-- What a call before the answer leads to: the run still approaches it, or this call answers. -/
def Moves (ats : List Atom) (cfg : Config) (stage : Stage) (size pad q : ℕ) (exts : List (List Byte))
    (c : Cutting B) (n : ℕ) : Prop :=
  (Approaches ats cfg stage size pad q exts c (n + 1) ∧
      ((decoding .unlimited c n).atoms = ats → heldAt c n < q + BLOCK * exts.length)) ∨
    Concludes ats cfg stage size pad q exts c n

theorem atoms_snoc {r r' : Run TarDecoder} {ev : DecodeEvent} (h : r'.events = r.events ++ [ev]) :
    r'.atoms = r.atoms ++ atoms ev := by
  simp [Run.atoms, h]

/-- A call before extension blocks asks for more input or answers. -/
theorem moves_of_call {q : ℕ} (hg : (decoding .unlimited c n).halted = false)
    (hb : Between cfg (decoding .unlimited c n).decoder)
    (ha : (decoding .unlimited c n).atoms = ats) (hp : place c n < q + BLOCK * exts.length)
    (hc : Call cfg stage size pad q exts c n) : Moves ats cfg stage size pad q exts c n := by
  cases hc with
  | asks hk d' j hj hw hrun =>
    refine .inl ⟨.waiting ?_ ?_ j hj ?_, fun _ => hk⟩
    · rw [hrun]
      exact halted_eq_false (by simp)
    · rw [atoms_snoc (congrArg Run.events hrun), ha]
      exact List.append_nil _
    · rw [hrun]
      exact hw
  | shows hk m cfg' hm hcharge d' hs hact hplace hrun =>
    exact .inr ⟨⟨hg, ha, hp, hk⟩, hb, .shows hk m cfg' hm hcharge d' hs hact hplace hrun⟩
  | refuses hk hno e hrun => exact .inr ⟨⟨hg, ha, hp, hk⟩, hb, .refuses hk hno e hrun⟩

theorem Site.moves_waiting (h : Site B ats cfg hdr exts size pad stage start)
    (hg : (decoding .unlimited c n).halted = false) (ha : (decoding .unlimited c n).atoms = ats)
    {j : ℕ} (hj : j < exts.length) (hw : Waiting B cfg stage size pad (start + BLOCK) j
      (decoding .unlimited c n).decoder (decoding .unlimited c n).consumed) :
    Moves ats cfg stage size pad (start + BLOCK) exts c n := by
  refine moves_of_call hg hw.between ha ?_ (call_of_chain hg hw.between h.empties h.valid fun d1 hd => ?_)
  · have hplace : place c n = start + BLOCK + BLOCK * j := hw.source.place
    have hmul : BLOCK * (j + 1) ≤ BLOCK * exts.length := Nat.mul_le_mul_left _ hj
    rw [hplace]
    simp only [BLOCK] at *
    omega
  · refine ⟨j, d1.source.compact, hj, .refl _, ?_⟩
    rw [heldAt_eq]
    exact hw.chain (tar_placed .unlimited c n) rfl (c.supplied_of_end n) hd

theorem supplied_cut (c : Cutting B) (n : ℕ) :
    window B (decoding .unlimited c n).consumed (c.supplied n) ++ B.drop (c.supplied n) =
      B.drop (decoding .unlimited c n).consumed := by
  have hcl := (run_consumed_le (c := c) (d := TarDecoder.new .unlimited) Idle.tar_progress.ending
    ⟨Nat.zero_le _, nofun⟩ n).1
  have h1 : B.drop (c.supplied n) = (B.drop (decoding .unlimited c n).consumed).drop
      (c.supplied n - (decoding .unlimited c n).consumed) := by
    rw [List.drop_drop]
    congr 1
    exact (Nat.add_sub_of_le hcl).symm
  rw [h1, window, List.take_append_drop]

theorem Site.moves_before (h : Site B ats cfg hdr exts size pad stage start) (hout : c.Scratch)
    (hg : (decoding .unlimited c n).halted = false)
    (hs : Steps machine (initial B) (decoding .unlimited c n).atoms k)
    (hr : Rep (decoding .unlimited c n).decoder (B.drop (decoding .unlimited c n).consumed) k) :
    Moves ats cfg stage size pad (start + BLOCK) exts c n := by
  have hcut := supplied_cut c n
  have hend : c.eoi n = .end → B.drop (c.supplied n) = [] := fun he => by
    rw [c.supplied_of_end n he, List.drop_length]
  have hplaced : Placed B (decoding .unlimited c n).decoder (decoding .unlimited c n).consumed :=
    tar_placed .unlimited c n
  have hlen : BLOCK ≤ BLOCK * exts.length :=
    Nat.le_mul_of_pos_right _ (List.length_pos_iff.mpr h.nonempty)
  have hr' := hr
  rw [← hcut] at hr'
  obtain hag | hx := step_agrees hr' (hout n) hend
  · have hrun : decoding .unlimited c (n + 1) = (decoding .unlimited c n).advance TarDecoder.step B
      (c.supplied n) (c.outputLen n) (c.eoi n) := rfl
    rw [Run.advance, if_neg (by simp [hg])] at hrun
    cases hstep : (decoding .unlimited c n).decoder.step
        (window B (decoding .unlimited c n).consumed (c.supplied n)) (c.outputLen n) (c.eoi n) with
    | error e =>
      rw [hstep] at hag
      obtain hfail | ⟨-, bs, hov⟩ := hag
      · cases (h.only hs hfail).1
      · cases (h.only hs hov).1
    | ok r =>
      obtain ⟨st, d'⟩ := r
      rw [hstep] at hag hrun
      dsimp only at hrun
      obtain ⟨-, hdone⟩ | ⟨he, k', hs', hr2⟩ := hag
      · cases (h.only hs hdone).1
      rw [hcut, List.drop_drop] at hr2
      have hatoms := atoms_snoc (congrArg Run.events hrun)
      have hs2 : Steps machine (initial B) (decoding .unlimited c (n + 1)).atoms k' :=
        hatoms ▸ hs.trans hs'
      obtain ⟨cs, hcs, hahead⟩ := h.ahead hs2
      refine .inl ⟨.before ?_ k' hs2 ?_, fun hats => ?_⟩
      · rw [hrun]
        exact halted_eq_false he
      · rw [hrun]
        exact hr2
      · -- a call without output is hungry afterwards, so it holds less than a block behind its place
        rw [hatoms, ← hats] at hcs
        have hnil : atoms st.event ++ cs = [] := by simpa [List.append_assoc] using hcs
        obtain ⟨hev, rfl⟩ := List.append_eq_nil_iff.mp hnil
        rw [hev] at hs'
        have hb := between_of_rep hr (plan_none_of_silent (hs'.silent_trans hahead) rfl h.phase)
        obtain ⟨hneeds, hcons⟩ := asks_of_silent hb hstep he hev
        have hp := hplaced.step hstep (c.supplied_of_end n)
        have hle := h.place_le hp hr2 hahead
        have hav := available_lt_of_starving hr2.source (hp.hungry hneeds)
        rw [heldAt_eq, ← hcons]
        simp only [BLOCK] at *
        omega
  · obtain ⟨-, hats⟩ := h.only hs hx.1
    rw [List.append_nil] at hats
    obtain ⟨cs, hcs, hahead⟩ := h.ahead hs
    obtain rfl : cs = [] := by simpa [hats] using hcs
    have hb := between_of_rep hr (plan_none_of_silent hahead rfl h.phase)
    obtain ⟨hb', hchain⟩ := h.chain hr hx hahead hb hcut
    refine moves_of_call hg hb' hats.symm ?_ (call_of_chain hg hb' h.empties h.valid hchain)
    have hle : place c n ≤ start := h.place_le hplaced hr hahead
    simp only [BLOCK] at *
    omega

/-- **One call** on the way. -/
theorem Site.moves (h : Site B ats cfg hdr exts size pad stage start) (hout : c.Scratch)
    (ha : Approaches ats cfg stage size pad (start + BLOCK) exts c n) :
    Moves ats cfg stage size pad (start + BLOCK) exts c n := by
  cases ha with
  | before hg k hs hr => exact h.moves_before hout hg hs hr
  | waiting hg ha j hj hw => exact h.moves_waiting hg ha hj hw

/-! ### The whole run -/

theorem atoms_mono {i : ℕ} (h : i ≤ n) :
    (decoding .unlimited c i).atoms <+: (decoding .unlimited c n).atoms := by
  obtain ⟨evs, hevs⟩ : (decoding .unlimited c i).events <+: (decoding .unlimited c n).events :=
    events_prefix h
  exact ⟨evs.flatMap atoms, by rw [Run.atoms, Run.atoms, ← hevs, List.flatMap_append]⟩

namespace Concludes

variable {q i : ℕ} {md : EntryMetadata}

/-- The call shows an entry or fails. -/
theorem answer (h : Concludes ats cfg stage size pad q exts c n) :
    (∃ m cfg' d', shown stage cfg.global (window B (place c n) (q + BLOCK * exts.length)) = .ok m ∧
      charge cfg m = .ok cfg' ∧ d'.source.state = .payload size pad ∧
      d'.sparseActive = stage.isSparse ∧
      heldAt c n - d'.source.available = q + BLOCK * exts.length ∧ decoding .unlimited c (n + 1) =
        ⟨d', heldAt c n, (decoding .unlimited c n).events ++ [.entry m], none⟩) ∨
    ((∀ m cfg', shown stage cfg.global (window B (place c n) (q + BLOCK * exts.length)) = .ok m →
      charge cfg m ≠ .ok cfg') ∧
      ∃ e, decoding .unlimited c (n + 1) = { decoding .unlimited c n with failure := some e }) := by
  cases h.call with
  | asks hk => exact absurd h.completes.le_held (not_le.mpr hk)
  | shows _ m cfg' hm hc d' hs ha hp hrun => exact .inl ⟨m, cfg', d', hm, hc, hs, ha, hp, hrun⟩
  | refuses _ hno e hrun => exact .inr ⟨hno, e, hrun⟩

/-- After it the output goes on, or the run has halted. -/
theorem after (h : Concludes ats cfg stage size pad q exts c n) (hi : n < i) :
    (decoding .unlimited c i).halted = true ∨ (decoding .unlimited c i).atoms ≠ ats := by
  rcases h.answer with ⟨m, -, d', -, -, -, -, -, hrun⟩ | ⟨-, e, hrun⟩
  · refine .inr fun hats => ?_
    have h1 := (atoms_mono (c := c) (Nat.succ_le_of_lt hi)).length_le
    rw [hats, atoms_snoc (congrArg Run.events hrun), h.completes.atoms_eq, List.length_append] at h1
    simp [atoms] at h1
  · have hh : (decoding .unlimited c (n + 1)).halted = true := by simp [hrun, Run.halted]
    left
    rw [decoding, run_of_halted hh (Nat.succ_le_of_lt hi)]
    exact hh

theorem unique (h : Concludes ats cfg stage size pad q exts c n)
    (hi : Completes ats (q + BLOCK * exts.length) c i) : i ≤ n := by
  by_contra hlt
  rcases h.after (not_le.mp hlt) with hh | hats
  · exact absurd (hh.symm.trans hi.going) (by simp)
  · exact hats hi.atoms_eq

end Concludes

end LibarchiveOxide.Tar.Continuation
