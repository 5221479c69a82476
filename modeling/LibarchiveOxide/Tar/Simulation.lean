import LibarchiveOxide.Tar.Stream

/-! # The source simulates the stream machine

`SourceRep s tail c` relates a source, the bytes it has not been fed yet and a configuration of the
stream machine. A poll that asks to be repeated is a number of silent steps of the machine
(`silent_sim`), whatever part of the stream is in the buffer. -/

namespace LibarchiveOxide.Tar.Simulation

open Core.Failure Core.Metadata Core.Drive Lib.Machine Lib.Result Tar.Header Tar.Pax Tar.Source
open Tar.Source.TarSource Tar.Stream

/-! ### Runs of the machine over several bytes -/

section
variable {c : Config} {rest : List Byte} {pad : ℕ}

theorem steps_recordData {kind : MetaKind} : ∀ (bs : List Byte) {c : Config} {m : ℕ}
    {acc : List Byte}, c.stream = bs ++ rest → c.phase = .record kind (bs.length + m) pad acc →
    Steps machine c [] { c with stream := rest, phase := .record kind m pad (acc ++ bs) }
  | [], c, m, acc, hs, hp => by
    have : c = { c with stream := rest, phase := .record kind m pad (acc ++ []) } := by
      cases c; simp_all
    rw [← this]
    exact .refl c
  | b :: bs, c, m, acc, hs, hp => by
    have h1 : machine c = .next [] { c with
        stream := bs ++ rest, phase := .record kind (bs.length + m) pad (acc ++ [b]) } := by
      have hp' : c.phase = .record kind ((bs.length + m) + 1) pad acc := by
        rw [hp, List.length_cons]; congr 1; omega
      simp only [machine, hp', onRecord, hs, List.cons_append]
    have h2 := steps_recordData bs (c := { c with
      stream := bs ++ rest, phase := .record kind (bs.length + m) pad (acc ++ [b]) }) rfl rfl
    simpa using Steps.head h1 h2

theorem steps_recordPad {kind : MetaKind} {acc : List Byte} : ∀ (bs : List Byte) {c : Config}
    {m : ℕ}, c.stream = bs ++ rest → c.phase = .record kind 0 (bs.length + m) acc →
    Steps machine c [] { c with stream := rest, phase := .record kind 0 m acc }
  | [], c, m, hs, hp => by
    have : c = { c with stream := rest, phase := .record kind 0 m acc } := by
      cases c; simp_all
    rw [← this]
    exact .refl c
  | b :: bs, c, m, hs, hp => by
    have h1 : machine c = .next [] { c with
        stream := bs ++ rest, phase := .record kind 0 (bs.length + m) acc } := by
      have hp' : c.phase = .record kind 0 ((bs.length + m) + 1) acc := by
        rw [hp, List.length_cons]; congr 1; omega
      simp only [machine, hp', onRecord, hs, List.cons_append]
    have h2 := steps_recordPad bs (c := { c with
      stream := bs ++ rest, phase := .record kind 0 (bs.length + m) acc }) rfl rfl
    simpa using Steps.head h1 h2

theorem steps_payloadPad : ∀ (bs : List Byte) {c : Config} {m : ℕ}, c.stream = bs ++ rest →
    c.phase = .payload [] (bs.length + m) →
    Steps machine c [] { c with stream := rest, phase := .payload [] m }
  | [], c, m, hs, hp => by
    have : c = { c with stream := rest, phase := .payload [] m } := by
      cases c; simp_all
    rw [← this]
    exact .refl c
  | b :: bs, c, m, hs, hp => by
    have h1 : machine c = .next [] { c with
        stream := bs ++ rest, phase := .payload [] (bs.length + m) } := by
      have hp' : c.phase = .payload [] ((bs.length + m) + 1) := by
        rw [hp, List.length_cons]; congr 1; omega
      simp only [machine, hp', onPayload, hs, List.cons_append]
    have h2 := steps_payloadPad bs (c := { c with
      stream := bs ++ rest, phase := .payload [] (bs.length + m) }) rfl rfl
    simpa using Steps.head h1 h2

variable {plan : List Bool}

/-- Stored bytes, while the account of data bytes has room. -/
theorem steps_data : ∀ (bs : List Byte) {c : Config},
    c.stream = bs ++ rest → c.phase = .payload (List.replicate bs.length true ++ plan) pad →
    c.totalBytes + bs.length ≤ u64Max →
    Steps machine c (bs.map .byte)
      { c with stream := rest, phase := .payload plan pad, totalBytes := c.totalBytes + bs.length }
  | [], c, hs, hp, ht => by
    have : c = { c with
        stream := rest, phase := .payload plan pad
        totalBytes := c.totalBytes + ([] : List Byte).length } := by
      cases c; simp_all
    rw [← this]
    exact .refl c
  | b :: bs, c, hs, hp, ht => by
    rw [List.length_cons] at ht
    have h1 : machine c = .next [.byte b] { c with
        stream := bs ++ rest, phase := .payload (List.replicate bs.length true ++ plan) pad
        totalBytes := c.totalBytes + 1 } := by
      simp only [machine, hp, List.length_cons, List.replicate_succ, List.cons_append, onPayload,
        hs, emit]
      rw [if_pos (by omega)]
    have h2 := steps_data bs (c := { c with
      stream := bs ++ rest, phase := .payload (List.replicate bs.length true ++ plan) pad
      totalBytes := c.totalBytes + 1 }) rfl rfl (by simp only; omega)
    have h3 := Steps.head h1 h2
    simp only [Nat.add_assoc, Nat.add_comm 1] at h3
    exact h3

/-- Bytes of a hole, while the account of data bytes has room. -/
theorem steps_hole : ∀ (n : ℕ) {c : Config},
    c.phase = .payload (List.replicate n false ++ plan) pad → c.totalBytes + n ≤ u64Max →
    Steps machine c ((List.replicate n 0).map .byte)
      { c with phase := .payload plan pad, totalBytes := c.totalBytes + n }
  | 0, c, hp, ht => by
    have : c = { c with phase := .payload plan pad, totalBytes := c.totalBytes + 0 } := by
      cases c; simp_all
    rw [← this]
    exact .refl c
  | n + 1, c, hp, ht => by
    have h1 : machine c = .next [.byte 0] { c with
        phase := .payload (List.replicate n false ++ plan) pad
        totalBytes := c.totalBytes + 1 } := by
      simp only [machine, hp, List.replicate_succ, List.cons_append, onPayload, emit]
      rw [if_pos (by omega)]
    have h2 := steps_hole n (c := { c with
      phase := .payload (List.replicate n false ++ plan) pad
      totalBytes := c.totalBytes + 1 }) rfl (by simp only; omega)
    have h3 := Steps.head h1 h2
    simp only [Nat.add_assoc, Nat.add_comm 1] at h3
    exact h3

/-- Stored bytes for which the account has no room: the machine emits those that fit. -/
theorem halts_data_overflow {bs : List Byte} (hs : c.stream = bs ++ rest)
    (hp : c.phase = .payload (List.replicate bs.length true ++ plan) pad)
    (ht : c.totalBytes ≤ u64Max) (hbig : u64Max < c.totalBytes + bs.length) :
    ∃ bs' : List Byte, Halts machine c (bs'.map .byte) .overflow := by
  obtain ⟨k, hk⟩ : ∃ k, u64Max = c.totalBytes + k := ⟨_, (Nat.add_sub_of_le ht).symm⟩
  have hlen : (bs.take k).length = k := by simp; omega
  obtain ⟨n, hn⟩ : ∃ n, bs.length = k + (n + 1) := ⟨bs.length - k - 1, by omega⟩
  have hs' : c.stream = bs.take k ++ (bs.drop k ++ rest) := by
    rw [hs, ← List.append_assoc, List.take_append_drop]
  have hp' : c.phase = .payload (List.replicate (bs.take k).length true ++
      true :: (List.replicate n true ++ plan)) pad := by
    rw [hp, hlen, hn, List.replicate_add, List.replicate_succ, List.append_assoc, List.cons_append]
  have h1 := steps_data (bs.take k) hs' hp' (by omega)
  obtain ⟨b, r, hb⟩ : ∃ b r, bs.drop k = b :: r := by
    cases hd : bs.drop k with
    | nil => have := List.drop_eq_nil_iff.mp hd; omega
    | cons b r => exact ⟨b, r, rfl⟩
  refine ⟨bs.take k, _, h1, ?_⟩
  simp only [machine, onPayload, hb, List.cons_append, emit]
  rw [if_neg (by omega)]

/-- Bytes of a hole for which the account has no room. -/
theorem halts_hole_overflow {n : ℕ} (hp : c.phase = .payload (List.replicate n false ++ plan) pad)
    (ht : c.totalBytes ≤ u64Max) (hbig : u64Max < c.totalBytes + n) :
    ∃ bs' : List Byte, Halts machine c (bs'.map .byte) .overflow := by
  obtain ⟨k, hk⟩ : ∃ k, u64Max = c.totalBytes + k := ⟨_, (Nat.add_sub_of_le ht).symm⟩
  obtain ⟨m, hm⟩ : ∃ m, n = k + (m + 1) := ⟨n - k - 1, by omega⟩
  have hp' : c.phase = .payload (List.replicate k false ++
      false :: (List.replicate m false ++ plan)) pad := by
    rw [hp, hm, List.replicate_add, List.replicate_succ, List.append_assoc, List.cons_append]
  have h1 := steps_hole k hp' (by omega)
  refine ⟨List.replicate k 0, _, h1, ?_⟩
  simp only [machine, onPayload, emit]
  rw [if_neg (by omega)]

end

/-! ### The relation -/

/-- The state of the source is the phase of the machine. -/
def PhaseRep (s : TarSource) : Phase → Prop
  | .header => s.state = .header
  | .record kind data pad acc =>
    s.state = .record kind data pad ∧ s.record = acc ∧ s.globalChanged = false
  | .payload plan pad =>
    s.state = .payload (plan.count true) pad ∧ plan.count true ≤ u64Max ∧ s.globalChanged = false

/-- The source with the unfed `tail` stands where the machine stands. -/
structure SourceRep (s : TarSource) (tail : List Byte) (c : Config) : Prop where
  inBuf : s.cursor ≤ s.buf.length
  stream : s.rest ++ tail = c.stream
  finished : s.finished = true → tail = []
  pending : s.pending = c.pending
  global : s.global = c.global
  globalChanged : s.globalChanged = c.globalChanged
  phase : PhaseRep s c.phase

/-- The plan of the open entry. -/
def plan (c : Config) : Option (List Bool) :=
  match c.phase with
  | .payload plan _ => some plan
  | _ => none

/-- Steps without output that leave the plan and the accounts as they are. -/
structure Quiet (c c' : Config) : Prop where
  steps : Steps machine c [] c'
  plan : plan c' = plan c
  entries : c'.entries = c.entries
  totalBytes : c'.totalBytes = c.totalBytes
  metadataBytes : c'.metadataBytes = c.metadataBytes

theorem Quiet.refl (c : Config) : Quiet c c := ⟨.refl c, rfl, rfl, rfl, rfl⟩

theorem Quiet.trans {a b c : Config} (h : Quiet a b) (h' : Quiet b c) : Quiet a c :=
  ⟨h.steps.trans h'.steps, h'.plan.trans h.plan, h'.entries.trans h.entries,
    h'.totalBytes.trans h.totalBytes, h'.metadataBytes.trans h.metadataBytes⟩

/-- The next logical byte is not in a hole. -/
def NoHole (c : Config) : Prop := ∀ p, plan c ≠ some (false :: p)

theorem Quiet.noHole {c c' : Config} (h : Quiet c c') (hn : NoHole c) : NoHole c' :=
  fun p hp => hn p (h.plan ▸ hp)

variable {s s' : TarSource} {tail : List Byte} {c : Config}

/-- What a payload phase of the machine says about a source outside it. -/
theorem SourceRep.phase_of_header (h : SourceRep s tail c) (hs : s.state = .header) :
    c.phase = .header := by
  have hp := h.phase
  cases hc : c.phase with
  | header => rfl
  | record => rw [hc] at hp; rw [hp.1] at hs; cases hs
  | payload => rw [hc] at hp; rw [hp.1] at hs; cases hs

theorem SourceRep.phase_of_record {kind : MetaKind} {data pad : ℕ} (h : SourceRep s tail c)
    (hs : s.state = .record kind data pad) : c.phase = .record kind data pad s.record := by
  have hp := h.phase
  cases hc : c.phase with
  | header => rw [hc] at hp; rw [hp] at hs; cases hs
  | record => rw [hc] at hp; rw [hp.1] at hs; cases hs; rw [hp.2.1]
  | payload => rw [hc] at hp; rw [hp.1] at hs; cases hs

theorem SourceRep.phase_of_payload {remaining pad : ℕ} (h : SourceRep s tail c)
    (hs : s.state = .payload remaining pad) :
    ∃ plan, c.phase = .payload plan pad ∧ plan.count true = remaining := by
  have hp := h.phase
  cases hc : c.phase with
  | header => rw [hc] at hp; rw [hp] at hs; cases hs
  | record => rw [hc] at hp; rw [hp.1] at hs; cases hs
  | payload plan pad' => rw [hc] at hp; rw [hp.1] at hs; cases hs; exact ⟨plan, rfl, rfl⟩

theorem SourceRep.state_ne_extensions (h : SourceRep s tail c) (remaining pad : ℕ) :
    s.state ≠ .sparseExtensions remaining pad := by
  intro hs
  have hp := h.phase
  cases hc : c.phase with
  | header => rw [hc] at hp; rw [hp] at hs; cases hs
  | record => rw [hc] at hp; rw [hp.1] at hs; cases hs
  | payload => rw [hc] at hp; rw [hp.1] at hs; cases hs

/-- A plan without stored bytes and without a hole in front is empty. -/
theorem plan_eq_nil {p : List Bool} {pad : ℕ} (hn : NoHole c) (hc : c.phase = .payload p pad)
    (h0 : p.count true = 0) : p = [] := by
  cases p with
  | nil => rfl
  | cons b p =>
    cases b with
    | true => simp at h0
    | false => exact absurd (by simp [plan, hc]) (hn p)

/-- The first bytes of the stream are in the buffer. -/
theorem SourceRep.take_rest (h : SourceRep s tail c) (n : ℕ) :
    c.stream = s.rest.take n ++ (s.rest.drop n ++ tail) := by
  rw [← h.stream, ← List.append_assoc, List.take_append_drop]

theorem SourceRep.cursor_le (h : SourceRep s tail c) {n : ℕ} (hn : n ≤ s.available) :
    s.cursor + n ≤ s.buf.length := by
  have := h.inBuf
  unfold available at hn
  omega

theorem SourceRep.block (h : SourceRep s tail c) (ha : BLOCK ≤ s.available) :
    c.stream.take BLOCK = s.block := by
  rw [← h.stream, List.take_append_of_le_length (by rw [length_rest]; exact ha)]
  rfl

theorem SourceRep.length_le (h : SourceRep s tail c) : s.available ≤ c.stream.length := by
  rw [← h.stream, List.length_append, length_rest]; omega

/-! ### Silent polls -/

/-- The source polls an old-GNU header with extension blocks. -/
def PollsExtended (s : TarSource) : Prop :=
  s.state = .header ∧ BLOCK ≤ s.available ∧ ¬ s.block.all (· == 0) ∧ isExtended s.block

/-- The machine on a header block that the buffer holds. -/
theorem machine_header (h : SourceRep s tail c) (hs : s.state = .header)
    (hg : s.globalChanged = false) (ha : BLOCK ≤ s.available) (hz : ¬ s.block.all (· == 0)) :
    machine c = onAnnounced c s.block (readHeader s.block s.pending s.global) := by
  have hlen := h.length_le
  have hcond : ¬ (c.stream.length < BLOCK ∨ s.block.all (· == 0)) := by
    rintro (h1 | h1)
    · omega
    · exact hz h1
  rw [h.pending, h.global, machine, h.phase_of_header hs]
  simp only [onHeader]
  rw [if_neg (by rw [← h.globalChanged, hg]; decide), h.block ha, if_neg hcond]

theorem advance_sim (h : SourceRep s tail c) (hn : NoHole c) (hg : s.globalChanged = false)
    (hp : Polled s .again s') :
    (∃ c', Quiet c c' ∧ SourceRep s' tail c') ∨
      (machine c = .halt .extended ∧ PollsExtended s) := by
  have hgc : c.globalChanged = false := h.globalChanged ▸ hg
  cases hp with
  | record kind data pad hs ha hz hr =>
    left
    have hm := machine_header h hs hg ha hz
    rw [hr] at hm
    refine ⟨_, ⟨.single hm, ?_, rfl, rfl, rfl⟩, h.cursor_le ha, ?_, h.finished, h.pending, h.global,
      h.globalChanged, rfl, rfl, hg⟩
    · simp [plan, h.phase_of_header hs]
    · rw [rest, drop_rest, ← h.stream, List.drop_append_of_le_length (by rw [length_rest]; exact ha)]
  | extended size pad stage hs ha hz hr hx =>
    right
    have hm := machine_header h hs hg ha hz
    simp only [hr, onAnnounced, if_pos hx] at hm
    exact ⟨hm, hs, ha, hz, hx⟩
  | recordData kind data pad n hs hn' hpos =>
    left
    have hc := h.phase_of_record hs
    have hlen : (s.rest.take n).length = n := by rw [List.length_take, length_rest]; omega
    have hst := steps_recordData (s.rest.take n) (m := data - n) (h.take_rest n)
      (by rw [hc, hlen]; congr 1; omega)
    refine ⟨_, ⟨hst, ?_, rfl, rfl, rfl⟩, h.cursor_le (by omega), ?_, h.finished, h.pending, h.global,
      h.globalChanged, rfl, rfl, hg⟩
    · simp [plan, hc]
    · rw [rest, drop_rest]
  | recordPad kind pad n hs hn' hpos =>
    left
    have hc := h.phase_of_record hs
    have hlen : (s.rest.take n).length = n := by rw [List.length_take, length_rest]; omega
    have hst := steps_recordPad (s.rest.take n) (m := pad - n) (h.take_rest n)
      (by rw [hc, hlen]; congr 1; omega)
    refine ⟨_, ⟨hst, ?_, rfl, rfl, rfl⟩, h.cursor_le (by omega), ?_, h.finished, h.pending, h.global,
      h.globalChanged, rfl, rfl, hg⟩
    · simp [plan, hc]
    · rw [rest, drop_rest]
  | recordEnd kind pending global hs hr =>
    left
    have hc := h.phase_of_record hs
    have hm : machine c = .next [] { c with
        phase := .header, pending, global, globalChanged := kind == .paxGlobal } := by
      rw [h.pending, h.global] at hr
      simp only [machine, hc, onRecord, hr]
    refine ⟨_, ⟨.single hm, ?_, rfl, rfl, rfl⟩, h.inBuf, h.stream, h.finished, rfl, rfl, ?_, rfl⟩
    · simp [plan, hc]
    · simp [hg]
  | extension remaining pad more hs => exact absurd hs (h.state_ne_extensions _ _)
  | payloadPad pad n hs hn' hpos =>
    left
    obtain ⟨p, hc, h0⟩ := h.phase_of_payload hs
    obtain rfl := plan_eq_nil hn hc h0
    have hlen : (s.rest.take n).length = n := by rw [List.length_take, length_rest]; omega
    have hst := steps_payloadPad (s.rest.take n) (m := pad - n) (h.take_rest n)
      (by rw [hc, hlen]; congr 1; omega)
    refine ⟨_, ⟨hst, ?_, rfl, rfl, rfl⟩, h.cursor_le (by omega), ?_, h.finished, h.pending, h.global,
      h.globalChanged, rfl, Nat.zero_le _, hg⟩
    · simp [plan, hc]
    · rw [rest, drop_rest]

/-- **Silent polls are silent steps** up to an extended header. -/
theorem silent_sim_to (hs : Silent s s') : ∀ {c : Config}, SourceRep s tail c → NoHole c →
    (∃ c', Quiet c c' ∧ SourceRep s' tail c') ∨
      ∃ s1 c1, Silent s s1 ∧ s1.globalChanged = false ∧ PollsExtended s1 ∧ Quiet c c1 ∧
        SourceRep s1 tail c1 ∧ machine c1 = .halt .extended := by
  induction hs with
  | refl s => exact fun h _ => .inl ⟨_, .refl _, h⟩
  | @head s s1 s' hg hp hs ih =>
    intro c h hn
    obtain ⟨c1, hq, h1⟩ | ⟨hm, hx⟩ := advance_sim h hn hg (polled_of_poll hp)
    · obtain ⟨c2, hq2, h2⟩ | ⟨s2, c2, hs2, hg2, hp2, hq2, h2, hm2⟩ := ih h1 (hq.noHole hn)
      · exact .inl ⟨c2, hq.trans hq2, h2⟩
      · exact .inr ⟨s2, c2, .head hg hp hs2, hg2, hp2, hq.trans hq2, h2, hm2⟩
    · exact .inr ⟨s, c, .refl s, hg, hx, .refl c, h, hm⟩

/-- Silent polls are silent steps, unless an extended header is polled. -/
theorem silent_sim (hs : Silent s s') (h : SourceRep s tail c) (hn : NoHole c) :
    (∃ c', Quiet c c' ∧ SourceRep s' tail c') ∨
      (Halts machine c [] .extended ∧ ∃ s1, Silent s s1 ∧ s1.globalChanged = false ∧
        PollsExtended s1) := by
  obtain hq | ⟨s1, c1, hs1, hg, hp, hq, -, hm⟩ := silent_sim_to hs h hn
  · exact .inl hq
  · exact .inr ⟨⟨c1, hq.steps, hm⟩, s1, hs1, hg, hp⟩

end LibarchiveOxide.Tar.Simulation
