import LibarchiveOxide.Extract.Driver
import LibarchiveOxide.Lib.Result

/-! # The order of the adapter calls

`proceed` is the call protocol of an adapter as an automaton: whether an entry is in flight. The driver
keeps to it, and leaves no entry in flight when it fails for another reason than an adapter call, with
one exception: `applyPlan_obeys_iff`. -/

namespace LibarchiveOxide.Extract.CallProtocol

open Core.Failure Core.Metadata Core.Budget Extract.Path Extract.Plan Extract.Filesystem
open Extract.Driver Stream.Event Lib.Result

/-! ### The protocol -/

variable {log : List Call}

/-- Whether an entry is in flight after a call inside a session; `none` if the call is out of order. -/
def proceed : Bool → Call → Option Bool
  | _, .beginSession => none
  | false, .beginEntry _ => some true
  | true, .beginEntry _ => none
  | true, .writeData _ => some true
  | false, .writeData _ => none
  | true, .finishEntry => some false
  | false, .finishEntry => none
  | _, .abortEntry => some false
  | flying, .finishSession => some flying
  | flying, .removePath _ => some flying
  | flying, .clearDirectory _ => some flying

/-- The calls open a session and are in order from there on; `flying` says whether an entry is in
flight after them. -/
def Follows (log : List Call) (flying : Bool) : Prop :=
  ∃ rest, log = .beginSession :: rest ∧ rest.foldlM proceed false = some flying

theorem follows_beginSession : Follows [.beginSession] false := ⟨[], rfl, rfl⟩

theorem Follows.append {b b' : Bool} {c : Call} (h : Follows log b) (hc : proceed b c = some b') :
    Follows (log ++ [c]) b' := by
  obtain ⟨rest, rfl, hrest⟩ := h
  refine ⟨rest ++ [c], rfl, ?_⟩
  rw [List.foldlM_append, hrest]
  simp [hc]

theorem Follows.unique {b b' : Bool} (h : Follows log b) (h' : Follows log b') : b = b' := by
  obtain ⟨rest, rfl, hrest⟩ := h
  obtain ⟨rest', heq, hrest'⟩ := h'
  cases heq
  rw [hrest] at hrest'
  exact Option.some.inj hrest'

/-- A result with the calls of a driver: they are in order, and no entry is in flight after a failure
that is not the adapter's. -/
def Obeys {ε α : Type} (ofAdapter : ε → Bool) (good : α → Prop) : Except (ε × List Call) α → Prop
  | .ok x => good x
  | .error (e, log) => ∃ flying, Follows log flying ∧ (ofAdapter e = false → flying = false)

section
variable {ε α β : Type} {ofAdapter : ε → Bool} {good : α → Prop} {good' : β → Prop}

theorem obeys_error {e : ε} (h : Follows log false) : Obeys ofAdapter good (.error (e, log)) :=
  ⟨false, h, fun _ => rfl⟩

theorem obeys_adapter {e : ε} {flying : Bool} (h : Follows log flying) (he : ofAdapter e = true) :
    Obeys ofAdapter good (.error (e, log)) := by
  refine ⟨flying, h, ?_⟩
  rw [he]
  exact Bool.noConfusion

theorem Obeys.bind {r : Except (ε × List Call) α} {f : α → Except (ε × List Call) β}
    (h : Obeys ofAdapter good r) (hf : ∀ x, r = .ok x → good x → Obeys ofAdapter good' (f x)) :
    Obeys ofAdapter good' (r >>= f) := by
  cases r with
  | error e => exact h
  | ok x => exact hf x rfl h

/-- A check that fails when no entry is in flight. -/
theorem obeys_guard {e : ε} {c : Prop} [Decidable c] {r : Except (ε × List Call) α}
    (h : Follows log false) (hr : Obeys ofAdapter good r) :
    Obeys ofAdapter good (do
      if c then
        throw (e, log)
      r) := by
  split_ifs
  · exact obeys_error h
  · exact hr

end

/-! ### The driver -/

/-- An answer of the adapter was the reason. -/
def ofAdapter : Fault → Bool
  | .adapter _ => true
  | .stream _ => false

section
variable {host : Host} {a : FilesystemAdapter} {d : AdapterDriver host}

/-- An entry is in flight. -/
def flying (d : AdapterDriver host) : Bool := d.current.any CurrentEntry.materializing

/-- The driver knows whether an entry is in flight. -/
def Tracks (d : AdapterDriver host) : Prop := Follows d.log (flying d)

theorem obeys_new (a : FilesystemAdapter) (policy : Policy) (limits : Limits)
    (planned : List (PlannedEntry host)) :
    Obeys ofAdapter Tracks (AdapterDriver.new a policy limits planned) := by
  unfold AdapterDriver.new
  dsimp only
  split
  · exact obeys_error follows_beginSession
  · exact follows_beginSession

theorem obeys_observeEntry (h : Follows d.log false) (m : EntryMetadata) :
    Obeys ofAdapter (fun d' => d'.log = d.log ∧ d'.current = d.current) (d.observeEntry m) := by
  unfold AdapterDriver.observeEntry
  cases checkedAdd d.entriesSeen 1 with
  | none => exact obeys_error h
  | some n =>
    exact obeys_guard h (obeys_guard h (obeys_guard h ⟨rfl, rfl⟩))

theorem obeys_beginMaterializing (h : Follows d.log false) (m : EntryMetadata)
    (requests : List FilesystemOperation) (destination : DestinationKey host)
    (linkTarget : Option (DestinationKey host)) :
    Obeys ofAdapter Tracks (d.beginMaterializing a m requests destination linkTarget) := by
  unfold AdapterDriver.beginMaterializing
  dsimp only
  split
  · exact obeys_adapter (h.append rfl) rfl
  · exact h.append rfl

theorem obeys_startMaterialize (h : Follows d.log false) (m : EntryMetadata)
    (requests : List FilesystemOperation) (p : PlannedEntry host) :
    Obeys ofAdapter Tracks (d.startMaterialize a m requests p) := by
  unfold AdapterDriver.startMaterialize
  split
  · exact obeys_error h
  split_ifs
  · exact h
  split
  · exact h
  · exact obeys_beginMaterializing h m requests _ _

/-- An entry that begins when none is in flight. -/
theorem obeys_startEntry (h : Tracks d) (hf : flying d = false) (m : EntryMetadata) :
    Obeys ofAdapter Tracks (d.startEntry a m) := by
  have hlog : Follows d.log false := hf ▸ h
  unfold AdapterDriver.startEntry
  split_ifs
  · exact obeys_error hlog
  refine (obeys_observeEntry hlog m).bind ?_
  rintro d' - ⟨hd', -⟩
  rw [← hd'] at hlog
  cases d'.planned[d.entriesSeen]? with
  | none => exact obeys_error hlog
  | some p =>
    refine obeys_guard hlog ?_
    dsimp only
    split
    · exact hlog
    · exact hlog
    · apply obeys_startMaterialize
      exact hlog

theorem obeys_writeData (h : Tracks d) (bytes : List Byte) :
    Obeys ofAdapter Tracks (d.writeData a bytes) := by
  unfold AdapterDriver.writeData
  unfold Tracks flying at h
  split
  · next hc =>
    rw [hc] at h
    exact obeys_error h
  next current hc =>
  split_ifs with hm
  · rw [hc, Option.any_some, hm] at h
    split
    · exact obeys_adapter (h.append rfl) rfl
    · unfold Obeys Tracks flying
      dsimp only
      rw [hc, Option.any_some, hm]
      exact h.append rfl
  · exact h

theorem obeys_settleEntry (h : Follows d.log false) (hc : d.current = none)
    (current : CurrentEntry host) (report : FilesystemEntryReport) :
    Obeys ofAdapter Tracks (d.settleEntry current report) := by
  unfold AdapterDriver.settleEntry
  split
  · exact obeys_error (h.append rfl)
  · exact obeys_error h
  · unfold Obeys Tracks flying
    dsimp only
    rw [hc]
    exact h

theorem obeys_endEntry (h : Tracks d) : Obeys ofAdapter Tracks (d.endEntry a) := by
  unfold AdapterDriver.endEntry
  unfold Tracks flying at h
  split
  · next hc =>
    rw [hc] at h
    exact obeys_error h
  next current hc =>
  rw [hc, Option.any_some] at h
  dsimp only
  split_ifs with hm
  · rw [Bool.not_eq_true'] at hm
    rw [hm] at h
    split
    · exact obeys_error h
    · exact h
  · have hm' : current.materializing = true := by simpa using hm
    rw [hm'] at h
    split
    · exact obeys_adapter (h.append rfl) rfl
    · exact obeys_settleEntry (h.append rfl) rfl current _

theorem obeys_conclude (h : Tracks d) (ending : Except StreamError Unit) :
    Obeys ofAdapter (fun r => ∃ flying, Follows r.2 flying) (d.conclude a ending) := by
  unfold AdapterDriver.conclude
  split
  · exact obeys_error (h.append rfl)
  unfold AdapterDriver.finish
  split_ifs with hc
  · exact obeys_error (h.append rfl)
  all_goals
    have hnone : d.current = none := by simpa using hc
    unfold Tracks flying at h
    rw [hnone] at h
  · exact obeys_error h
  · exact obeys_error h
  split
  · exact obeys_adapter (h.append rfl) rfl
  · exact ⟨false, h.append rfl⟩

/-- No entry begins while one is in flight. -/
def Orderly (a : FilesystemAdapter) (d : AdapterDriver host) (events : List ReaderEvent) : Prop :=
  ∀ pre m post, events = pre ++ .entry m :: post → ∀ d', d.applyEvents a pre = .ok d' →
    flying d' = false

theorem orderly_cons {event : ReaderEvent} {events : List ReaderEvent} :
    Orderly a d (event :: events) ↔ (∀ m, event = .entry m → flying d = false) ∧
      ∀ d', d.applyEvent a event = .ok d' → Orderly a d' events := by
  constructor
  · intro h
    refine ⟨?_, ?_⟩
    · rintro m rfl
      exact h [] m events rfl d rfl
    · rintro d' hd' pre m post rfl d'' hd''
      refine h (event :: pre) m post rfl d'' ?_
      rw [AdapterDriver.applyEvents, hd']
      exact hd''
  · rintro ⟨hnow, hlater⟩ pre m post heq d'' hd''
    cases pre with
    | nil =>
      cases heq
      cases hd''
      exact hnow m rfl
    | cons x pre =>
      cases heq
      rw [AdapterDriver.applyEvents] at hd''
      obtain ⟨d', hd', hpre⟩ := bind_eq_ok.mp hd''
      exact hlater d' hd' pre m post rfl d'' hpre

theorem obeys_applyEvent (h : Tracks d) (event : ReaderEvent)
    (hf : ∀ m, event = .entry m → flying d = false) :
    Obeys ofAdapter Tracks (d.applyEvent a event) := by
  cases event with
  | archiveMetadata m => exact h
  | entry m => exact obeys_startEntry h (hf m rfl) m
  | data bytes => exact obeys_writeData h bytes
  | endEntry => exact obeys_endEntry h

/-- **Whole streams, if no entry begins too early.** -/
theorem obeys_applyEvents (events : List ReaderEvent) : ∀ {d : AdapterDriver host}, Tracks d →
    Orderly a d events → Obeys ofAdapter Tracks (d.applyEvents a events) := by
  induction events with
  | nil =>
    intro d h _
    exact h
  | cons event events ih =>
    intro d h ho
    obtain ⟨hnow, hlater⟩ := orderly_cons.mp ho
    refine (obeys_applyEvent h event hnow).bind ?_
    intro d' hd' h'
    exact ih h' (hlater d' hd')

/-- An entry that begins too early leaves the one before in flight. -/
theorem startEntry_of_flying (hf : flying d = true) (m : EntryMetadata) :
    d.startEntry a m =
      .error (protocolError "entry began before the preceding entry ended", d.log) := by
  unfold flying at hf
  have hsome : d.current.isSome = true := by
    cases hc : d.current with
    | none =>
      rw [hc] at hf
      cases hf
    | some c => rfl
  rw [AdapterDriver.startEntry, if_pos hsome]

/-- **Whole streams, if an entry begins too early.** -/
theorem inFlight_of_not_orderly (events : List ReaderEvent) : ∀ {d : AdapterDriver host}, Tracks d →
    ¬ Orderly a d events → ∃ e log, d.applyEvents a events = .error (e, log) ∧
      ofAdapter e = false ∧ Follows log true := by
  induction events with
  | nil =>
    intro d h ho
    refine absurd ?_ ho
    intro pre m post heq
    simp at heq
  | cons event events ih =>
    intro d h ho
    rw [orderly_cons, not_and_or] at ho
    by_cases hnow : ∀ m, event = .entry m → flying d = false
    · obtain ⟨d', hd', hrest⟩ : ∃ d', d.applyEvent a event = .ok d' ∧ ¬ Orderly a d' events := by
        simpa using ho.resolve_left (not_not.mpr hnow)
      have hev := obeys_applyEvent (a := a) h event hnow
      rw [hd'] at hev
      obtain ⟨e, log, he, hofa, hlog⟩ := ih hev hrest
      refine ⟨e, log, ?_, hofa, hlog⟩
      rw [AdapterDriver.applyEvents, hd']
      exact he
    · simp only [not_forall, Bool.not_eq_false] at hnow
      obtain ⟨m, rfl, hf⟩ := hnow
      have hfail : d.applyEvents a (.entry m :: events) =
          .error (protocolError "entry began before the preceding entry ended", d.log) := by
        rw [AdapterDriver.applyEvents, AdapterDriver.applyEvent, startEntry_of_flying hf]
        rfl
      exact ⟨_, d.log, hfail, rfl, hf ▸ h⟩

end

/-- **The driver and the call protocol.** The calls of an apply session are in order and no entry is
left in flight by a failure that is not the adapter's if and only if no entry begins while one is in
flight. -/
theorem applyPlan_obeys_iff {host : Host} (a : FilesystemAdapter) (policy : Policy) (limits : Limits)
    (planned : List (PlannedEntry host)) (archive : Events) :
    Obeys ofAdapter (fun r => ∃ flying, Follows r.2 flying) (applyPlan a policy limits planned archive)
      ↔ ∀ d, AdapterDriver.new a policy limits planned = .ok d → Orderly a d archive.events := by
  have hnew := obeys_new a policy limits planned
  constructor
  · intro h d hd
    by_contra ho
    rw [hd] at hnew
    obtain ⟨e, log, he, hofa, hlog⟩ := inFlight_of_not_orderly archive.events hnew ho
    have hrun : applyPlan a policy limits planned archive = .error (e, log) := by
      rw [applyPlan, hd, ok_bind, he]
      rfl
    rw [hrun] at h
    obtain ⟨b, hb, hb'⟩ := h
    have hclash := hb.unique hlog
    rw [hb' hofa] at hclash
    cases hclash
  · intro h
    refine hnew.bind ?_
    intro d hd htracks
    refine (obeys_applyEvents archive.events htracks (h d hd)).bind ?_
    intro d' _ htracks'
    exact obeys_conclude htracks' archive.ending

end LibarchiveOxide.Extract.CallProtocol
