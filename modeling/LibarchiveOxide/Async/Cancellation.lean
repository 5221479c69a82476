import LibarchiveOxide.Async.Writer
import LibarchiveOxide.Tar.Encoder

/-! # Dropping the futures of the asynchronous writer

The bytes of an encoder step are held by the future that writes them. A future dropped while it waits
for the destination takes them with it, and the writer goes on as if they were written: the archive is
whole if and only if no future was dropped so (`delivered_iff`). -/

namespace LibarchiveOxide.Async.Cancellation

open Core.Failure Core.Metadata Core.Protocol Stream.Event Async.Writer Async.Writer.State
open Tar.Encoder

/-- The bytes that only the future holds. -/
def unwritten {σ : Type} (s : State σ) : List Byte :=
  match s.activity with
  | .busy (.writing _ _ rest) => rest
  | _ => []

/-- The label does not drop a future that waits for the destination to take bytes. -/
def harmless {σ : Type} (s : State σ) : Label → Bool
  | .drop => (unwritten s).isEmpty
  | _ => true

/-- No future is dropped while it waits for the destination to take bytes. -/
def spares {σ : Type} (enc : RuntimeEncoder σ) : State σ → List Label → Bool
  | _, [] => true
  | s, l :: ls =>
    harmless s l &&
    match s.next enc l with
    | none => true
    | some s' => spares enc s' ls

/-- A writer before its first operation. -/
def fresh {σ : Type} (encoder : σ) : State σ := { encoder }

variable {σ : Type} {enc : RuntimeEncoder σ} {s s' : State σ} {l : Label} {ls : List Label}

/-! ### One step -/

/-- The bytes stay together: those received and those still to be written are what the encoder
produced before, and now. -/
structure Keeps (s s' : State σ) : Prop where
  failed : s'.failed = s.failed
  bytes : ∃ new, s'.encoded = s.encoded ++ new ∧
    s'.received ++ unwritten s' = s.received ++ unwritten s ++ new

/-- Bytes that were to be written are lost. -/
structure Loses (s s' : State σ) : Prop where
  encoded : s'.encoded = s.encoded
  received : s'.received = s.received
  unwritten_after : unwritten s' = []
  unwritten_before : unwritten s ≠ []

theorem keeps_of_eq (hf : s'.failed = s.failed) (he : s'.encoded = s.encoded)
    (hr : s'.received = s.received) (hu : unwritten s' = unwritten s) : Keeps s s' :=
  ⟨hf, [], by rw [he, List.append_nil], by rw [hr, hu, List.append_nil]⟩

@[simp] theorem unwritten_returns (op : Operation) (result : Except StreamError Unit) :
    unwritten (s.returns op result) = [] := by
  unfold State.returns unwritten
  dsimp only
  split_ifs <;> rfl

theorem keeps_returns (hu : unwritten s = []) (op : Operation) (result : Except StreamError Unit) :
    Keeps s (s.returns op result) := keeps_of_eq rfl rfl rfl (by rw [unwritten_returns, hu])

theorem keeps_goTo (hu : unwritten s = []) {p : Point} (hp : unwritten (s.goTo p) = []) :
    Keeps s (s.goTo p) := keeps_of_eq rfl rfl rfl (hp.trans hu.symm)

theorem keeps_begins (hu : unwritten s = []) (op : Operation) : Keeps s (s.begins op) := by
  unfold begins
  split
  · exact keeps_returns hu _ _
  · split
    · split
      · exact keeps_returns hu _ _
      · exact keeps_goTo hu rfl
    · exact keeps_goTo hu rfl

theorem keeps_emitted (hu : unwritten s = []) (op : Operation) (step : EncodeStep) :
    Keeps s (s.emitted op step) := by
  unfold emitted
  cases op with
  | startEntry m =>
    dsimp only
    split_ifs
    · exact keeps_returns hu _ _
    · exact keeps_returns hu _ _
    · exact keeps_goTo hu rfl
  | writeData data =>
    dsimp only
    split_ifs
    · exact keeps_returns hu _ _
    · exact keeps_goTo hu rfl
  | endEntry =>
    dsimp only
    split_ifs
    · exact keeps_returns hu _ _
    · exact keeps_returns hu _ _
    · exact keeps_goTo hu rfl
  | finish =>
    dsimp only
    split_ifs
    · exact keeps_goTo hu rfl
    · exact keeps_returns hu _ _
    · exact keeps_goTo hu rfl

theorem keeps_encodes (hu : unwritten s = []) (op : Operation) : Keeps s (s.encodes enc op) := by
  unfold encodes
  split
  · next encoder e _ =>
    exact keeps_of_eq rfl rfl rfl ((unwritten_returns op _).trans hu.symm)
  · next encoder step _ =>
    refine ⟨rfl, step.produced, rfl, ?_⟩
    rw [hu, List.append_nil]
    rfl

theorem keeps_runs {p : Point} (hs : s.activity = .busy p) (h : s.runs enc p = some s') :
    Keeps s s' := by
  unfold runs at h
  split at h
  · cases h
    exact keeps_begins (by rw [unwritten, hs]) _
  · cases h
    exact keeps_returns (by rw [unwritten, hs]) _ _
  · cases h
    exact keeps_encodes (by rw [unwritten, hs]) _
  · cases h
    exact keeps_emitted (by rw [unwritten, hs]) _ _
  · cases h
  · cases h

/-- **What the answer of the destination does**: it takes bytes, or the writer fails. -/
theorem accepts_cases {op : Operation} {step : EncodeStep} {b : Byte} {rest : List Byte}
    (hs : s.activity = .busy (.writing op step (b :: rest))) (a : Answer ℕ) :
    Keeps s (s.accepts op step (b :: rest) a) ∨
      (Loses s (s.accepts op step (b :: rest) a) ∧
        (s.accepts op step (b :: rest) a).failed = true) := by
  have hu : unwritten s = b :: rest := by rw [unwritten, hs]
  have hfail : ∀ result, Loses s (({ s with failed := true } : State σ).returns op result) ∧
      (({ s with failed := true } : State σ).returns op result).failed = true := fun result =>
    ⟨⟨rfl, rfl, unwritten_returns _ _, by rw [hu]; simp⟩, rfl⟩
  cases a with
  | pending => exact .inl (keeps_of_eq rfl rfl rfl rfl)
  | ready r =>
    cases r with
    | error e => exact .inr (hfail _)
    | ok n =>
      simp only [accepts]
      split_ifs with hn
      · exact .inr (hfail _)
      · refine .inl ⟨rfl, [], (List.append_nil _).symm, ?_⟩
        rw [hu, List.append_nil]
        change s.received ++ (b :: rest).take n ++ (b :: rest).drop n = _
        rw [List.append_assoc, List.take_append_drop]

/-- **What one step does to the bytes.** -/
theorem next_cases (h : s.next enc l = some s') :
    (Keeps s s' ∧ (l = .drop → unwritten s = [])) ∨
      (Loses s s' ∧ (s'.failed = true ∧ l ≠ .drop ∨ s'.failed = s.failed ∧ l = .drop)) := by
  unfold next at h
  cases l with
  | call op =>
    dsimp only at h
    split at h
    · next hs =>
      cases h
      exact .inl ⟨keeps_goTo (by rw [unwritten, hs]) rfl, nofun⟩
    · cases h
  | setArchiveMetadata m =>
    dsimp only at h
    split at h
    · split at h <;> cases h <;> exact .inl ⟨keeps_of_eq rfl rfl rfl rfl, nofun⟩
    · cases h
  | run =>
    dsimp only at h
    split at h
    · next hs => exact .inl ⟨keeps_runs hs h, nofun⟩
    · cases h
  | written a =>
    dsimp only at h
    split at h
    · next hs =>
      cases h
      rcases accepts_cases hs a with hk | ⟨hl, hf⟩
      · exact .inl ⟨hk, nofun⟩
      · exact .inr ⟨hl, .inl ⟨hf, nofun⟩⟩
    · cases h
  | flushed a =>
    dsimp only at h
    split at h
    · cases h
      exact .inl ⟨keeps_of_eq rfl rfl rfl rfl, nofun⟩
    · next hs =>
      cases h
      exact .inl ⟨keeps_returns (by rw [unwritten, hs]) _ _, nofun⟩
    · cases h
  | drop =>
    dsimp only at h
    split at h
    · next p hs =>
      have hidle : ∀ op : Operation, unwritten
          { s with activity := if op = .finish then .gone else .idle } = [] := by
        intro op
        unfold unwritten
        dsimp only
        split_ifs <;> rfl
      unfold dropped at h
      split at h
      · cases h
        have hu : unwritten s = [] := by rw [unwritten, hs]
        exact .inl ⟨keeps_of_eq rfl rfl rfl (by rw [hu]; exact hidle _), fun _ => hu⟩
      · cases h
        exact .inr ⟨⟨rfl, rfl, hidle _, by rw [unwritten, hs]; simp⟩, .inr ⟨rfl, rfl⟩⟩
      · cases h
        have hu : unwritten s = [] := by rw [unwritten, hs]
        exact .inl ⟨keeps_of_eq rfl rfl rfl hu.symm, fun _ => hu⟩
      · cases h
      · cases h
    · cases h

/-- The writer works on, or returned its destination, only as long as nothing failed. -/
def Live (s : State σ) : Prop :=
  match s.activity with
  | .busy (.created _) | .idle | .closed (.error _) | .gone => True
  | _ => s.failed = false

theorem live_returns_error (op : Operation) (e : StreamError) : Live (s.returns op (.error e)) := by
  unfold Live State.returns
  dsimp only
  split_ifs <;> trivial

theorem live_returns (hf : s.failed = false) (op : Operation) (result : Except StreamError Unit) :
    Live (s.returns op result) := by
  unfold Live State.returns
  dsimp only
  split_ifs
  · cases result with
    | error e => trivial
    | ok u => exact hf
  · trivial

theorem live_goTo (hf : s.failed = false) (p : Point) : Live (s.goTo p) := by
  unfold Live goTo
  cases p with
  | created op => trivial
  | _ => exact hf

theorem live_begins (op : Operation) : Live (s.begins op) := by
  unfold begins ensureLive
  by_cases hf : s.failed = true
  · rw [if_pos hf]
    exact live_returns_error _ _
  · rw [if_neg hf]
    have hf' : s.failed = false := by simpa using hf
    split
    · exact live_returns_error _ _
    · split
      · split
        · exact live_returns_error _ _
        · exact live_goTo hf' _
      · exact live_goTo hf' _

theorem live_emitted (hf : s.failed = false) (op : Operation) (step : EncodeStep) :
    Live (s.emitted op step) := by
  have hr := fun result => live_returns hf op result
  have hg := fun p => live_goTo hf p
  unfold emitted
  cases op <;> dsimp only <;> split_ifs <;> first | exact hr _ | exact hg _

theorem live_encodes (hf : s.failed = false) (op : Operation) : Live (s.encodes enc op) := by
  unfold encodes
  split
  · exact live_returns_error _ _
  · apply live_goTo
    exact hf

theorem live_of_busy (h : Live s) {p : Point} (hs : s.activity = .busy p)
    (hp : ∀ op, p ≠ .created op) : s.failed = false := by
  unfold Live at h
  rw [hs] at h
  cases p with
  | created op => exact absurd rfl (hp op)
  | _ => exact h

theorem live_runs (h : Live s) {p : Point} (hs : s.activity = .busy p)
    (hr : s.runs enc p = some s') : Live s' := by
  unfold runs at hr
  split at hr
  · cases hr
    exact live_begins _
  · cases hr
    exact live_returns (live_of_busy h hs (by simp)) _ _
  · cases hr
    exact live_encodes (live_of_busy h hs (by simp)) _
  · cases hr
    exact live_emitted (live_of_busy h hs (by simp)) _ _
  · cases hr
  · cases hr

theorem live_accepts (hf : s.failed = false) {op : Operation} {step : EncodeStep} {rest : List Byte}
    (hs : s.activity = .busy (.writing op step rest)) (a : Answer ℕ) :
    Live (s.accepts op step rest a) := by
  cases a with
  | pending =>
    unfold accepts Live
    rw [hs]
    exact hf
  | ready r =>
    cases r with
    | error e => exact live_returns_error _ _
    | ok n =>
      simp only [accepts]
      split_ifs
      · exact live_returns_error _ _
      · apply live_goTo
        exact hf

theorem live_next (h : Live s) (hn : s.next enc l = some s') : Live s' := by
  unfold next at hn
  cases l with
  | call op =>
    dsimp only at hn
    split at hn
    · cases hn
      trivial
    · cases hn
  | setArchiveMetadata m =>
    dsimp only at hn
    split at hn
    · next hs =>
      split at hn <;> cases hn <;> (unfold Live; rw [hs]; trivial)
    · cases hn
  | run =>
    dsimp only at hn
    split at hn
    · next hs => exact live_runs h hs hn
    · cases hn
  | written a =>
    dsimp only at hn
    split at hn
    · next hs =>
      cases hn
      exact live_accepts (live_of_busy h hs (by simp)) hs a
    · cases hn
  | flushed a =>
    dsimp only at hn
    split at hn
    · cases hn
      exact h
    · next hs =>
      cases hn
      exact live_returns (live_of_busy h hs (by simp)) _ _
    · cases hn
  | drop =>
    dsimp only at hn
    split at hn
    · unfold dropped at hn
      split at hn
      · cases hn
        unfold Live
        dsimp only
        split_ifs <;> trivial
      · cases hn
        unfold Live
        dsimp only
        split_ifs <;> trivial
      · cases hn
        trivial
      · cases hn
      · cases hn
    · cases hn

/-! ### Runs -/

/-- The bytes that the destination or a future has. -/
def held (s : State σ) : ℕ := s.received.length + (unwritten s).length

theorem Keeps.held_eq (h : Keeps s s') :
    s.encoded.length + held s' = s'.encoded.length + held s := by
  obtain ⟨-, new, he, hb⟩ := h
  have hlen := congrArg List.length hb
  rw [List.length_append, List.length_append, List.length_append] at hlen
  rw [he, List.length_append, held, held]
  omega

theorem Loses.held_lt (h : Loses s s') :
    s.encoded.length + held s' < s'.encoded.length + held s := by
  have hpos := List.length_pos_iff.mpr h.unwritten_before
  rw [h.encoded, held, held, h.received, h.unwritten_after, List.length_nil]
  omega

/-- Bytes that are missing stay missing, and dropped futures add to them. -/
theorem missing_of_after : ∀ {s : State σ} {ls : List Label}, after enc s ls = some s' →
    s.encoded.length + held s' ≤ s'.encoded.length + held s ∧
      (spares enc s ls = false → s.encoded.length + held s' < s'.encoded.length + held s)
  | s, [], h => by
    cases h
    exact ⟨le_rfl, nofun⟩
  | s, l :: ls, h => by
    obtain ⟨s1, hn, h⟩ := Option.bind_eq_some_iff.mp h
    obtain ⟨ih, ihs⟩ := missing_of_after h
    rw [spares, hn]
    rcases next_cases hn with ⟨hk, hd⟩ | ⟨hl, -⟩
    · have heq := hk.held_eq
      refine ⟨by omega, fun hs => ?_⟩
      have hs1 : spares enc s1 ls = false := by
        cases l with
        | drop => simpa [harmless, hd rfl] using hs
        | call | setArchiveMetadata | run | written | flushed => simpa [harmless] using hs
      have := ihs hs1
      omega
    · have hlt := hl.held_lt
      exact ⟨by omega, fun _ => by omega⟩

/-- The destination and the futures have all bytes, or the writer failed. -/
theorem whole_of_after : ∀ {s : State σ} {ls : List Label}, after enc s ls = some s' →
    spares enc s ls = true → (s.failed = true ∨ s.received ++ unwritten s = s.encoded) →
    s'.failed = true ∨ s'.received ++ unwritten s' = s'.encoded
  | s, [], h, _, hs => by
    cases h
    exact hs
  | s, l :: ls, h, hsp, hs => by
    obtain ⟨s1, hn, h⟩ := Option.bind_eq_some_iff.mp h
    rw [spares, hn, Bool.and_eq_true] at hsp
    refine whole_of_after h hsp.2 ?_
    rcases next_cases hn with ⟨hk, -⟩ | ⟨hl, ⟨hf, -⟩ | ⟨-, rfl⟩⟩
    · rcases hs with hs | hs
      · exact .inl (hk.failed.trans hs)
      · obtain ⟨-, new, he, hb⟩ := hk
        exact .inr (by rw [hb, he, hs])
    · exact .inl hf
    · exact absurd (List.isEmpty_iff.mp hsp.1) hl.unwritten_before

theorem live_of_after : ∀ {s : State σ} {ls : List Label}, after enc s ls = some s' → Live s →
    Live s'
  | s, [], h, hs => by
    cases h
    exact hs
  | s, l :: ls, h, hs => by
    obtain ⟨s1, hn, h⟩ := Option.bind_eq_some_iff.mp h
    exact live_of_after h (live_next hs hn)

/-- The writer was finished, or can go on. -/
def Usable (s : State σ) : Prop :=
  s.activity = .closed (.ok ()) ∨ (s.activity = .idle ∧ s.failed = false)

/-- **What arrives.** Once `finish` returned the destination, and between operations of a writer that
did not fail, the destination has received exactly what the encoder produced if and only if no future
was dropped while it waited for the destination to take bytes. -/
theorem delivered_iff {encoder : σ} (h : after enc (fresh encoder) ls = some s) (hs : Usable s) :
    s.received = s.encoded ↔ spares enc (fresh encoder) ls = true := by
  have hu : unwritten s = [] := by
    rcases hs with hs | ⟨hs, -⟩ <;> rw [unwritten, hs]
  have hf : s.failed = false := by
    rcases hs with hs | ⟨-, hf⟩
    · have hl := live_of_after h (s := fresh encoder) trivial
      unfold Live at hl
      rw [hs] at hl
      exact hl
    · exact hf
  constructor
  · intro hr
    by_contra hsp
    have hlt := (missing_of_after h).2 (by simpa using hsp)
    rw [held, held, hu, hr] at hlt
    simp [fresh, unwritten] at hlt
  · intro hsp
    have hw := (whole_of_after h hsp (.inr rfl)).resolve_left (by simp [hf])
    rwa [hu, List.append_nil] at hw

/-! ### A tar archive of one empty file -/

/-- The tar encoder. -/
def tarEncoder : RuntimeEncoder TarEncoder := ⟨TarEncoder.step, TarEncoder.setArchiveMetadata⟩

/-- An empty file. -/
def emptyFile : EntryMetadata where
  kind := .file
  path := .fromBytes (bstr "m")
  size := some 0

/-- The entry is ended and the archive finished, and the destination takes all at once. -/
def ending : List Label :=
  [.call .endEntry, .run, .run, .run, .call .finish, .run, .run, .written (.ready (.ok 1024)), .run,
    .flushed (.ready (.ok ()))]

/-- The destination is not ready for the header, then takes it in two parts. -/
def patient : List Label :=
  ([.call (.startEntry emptyFile), .run, .run, .written .pending, .written (.ready (.ok 500)),
    .written (.ready (.ok 500)), .run] : List Label) ++ ending

/-- The destination is not ready for the header, and the future is dropped. -/
def cancelled : List Label :=
  ([.call (.startEntry emptyFile), .run, .run, .written .pending, .drop] : List Label) ++ ending

/-- How a tar writer ends: its activity, and how many bytes were received and produced. -/
def outcome (ls : List Label) : Option (Activity × ℕ × ℕ) :=
  (after tarEncoder (fresh (.new .safe)) ls).map fun s =>
    (s.activity, s.received.length, s.encoded.length)

theorem delivered_patient : ∃ s, after tarEncoder (fresh (.new .safe)) patient = some s ∧
    s.received = s.encoded := by
  have hrun : (outcome patient).map (·.1) = some (.closed (.ok ())) ∧
      spares tarEncoder (fresh (.new .safe)) patient = true := by
    decide +kernel
  obtain ⟨a, ha, hclosed⟩ := Option.map_eq_some_iff.mp hrun.1
  obtain ⟨s, hs, rfl⟩ := Option.map_eq_some_iff.mp ha
  exact ⟨s, hs, (delivered_iff hs (.inl hclosed)).mpr hrun.2⟩

/-- **A dropped future damages the archive**, and `finish` still returns the destination. -/
theorem not_always_delivered : ¬ ∀ (σ : Type) (enc : RuntimeEncoder σ) (encoder : σ)
    (ls : List Label) (s : State σ), after enc (fresh encoder) ls = some s →
    s.activity = .closed (.ok ()) → s.received = s.encoded := by
  intro h
  have hrun : outcome cancelled = some (.closed (.ok ()), 1024, 1536) := by decide +kernel
  obtain ⟨s, hs, he⟩ := Option.map_eq_some_iff.mp hrun
  rw [Prod.mk.injEq, Prod.mk.injEq] at he
  have := h TarEncoder tarEncoder (.new .safe) cancelled s hs he.1
  rw [this] at he
  omega

end LibarchiveOxide.Async.Cancellation
