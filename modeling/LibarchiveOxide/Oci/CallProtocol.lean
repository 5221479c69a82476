import LibarchiveOxide.Extract.CallProtocol
import LibarchiveOxide.Oci.Alignment

/-! # The adapter calls of both drivers

The layer driver keeps to the call protocol too, but it does not abort the entry in flight when the
reader fails or the layer ends before the plan. -/

namespace LibarchiveOxide.Oci.CallProtocol

open Core.Failure Core.Metadata Core.Budget Stream.Event Extract.Path Extract.Plan
open Extract.Filesystem Extract.Driver Extract.CallProtocol Oci.Plan Oci.Apply Lib.Result

/-- An answer of the adapter was the reason. -/
def blamesAdapter : OciLayerError → Bool
  | .adapter _ => true
  | _ => false

/-- The operation has an entry in flight. -/
def flies : Option Active → Bool
  | some (.materialize _) => true
  | _ => false

/-- The driver knows whether an entry is in flight. -/
def Knows (s : ApplyState) : Prop := Follows s.log (flies s.active)

section
variable {a : FilesystemAdapter} {overwrite : Bool} {s : ApplyState}

theorem obeys_beginOperation {log : List Call} (h : Follows log false) (op : OciPlanOperation) :
    Obeys blamesAdapter (fun r => Follows r.2 (flies (some r.1)))
      (beginOperation a overwrite log op) := by
  cases op with
  | materialize m | mapOwnership m =>
    unfold beginOperation
    dsimp only
    split
    · exact obeys_adapter (h.append rfl) rfl
    · exact h.append rfl
  | whiteout r => exact h
  | opaqueDir r => exact h
  | reject r => exact h

theorem knows_of_active {active : Option Active} (hs : s.active = active)
    (h : Follows s.log (flies active)) : Knows s := by
  unfold Knows
  rw [hs]
  exact h

theorem obeys_finishOperation (hs : s.active = none) (active : Active)
    (h : Follows s.log (flies (some active))) :
    Obeys blamesAdapter Knows (finishOperation a s active) := by
  cases active with
  | skip => exact knows_of_active hs h
  | reject r => exact knows_of_active (s := { s with findings := _, counts := _ }) hs h
  | materialize m =>
    rw [finishOperation]
    split
    · exact obeys_adapter (h.append rfl) rfl
    · exact knows_of_active hs (h.append rfl)
  | whiteout r =>
    rw [finishOperation]
    split
    · exact obeys_adapter (h.append rfl) rfl
    · exact knows_of_active hs (h.append rfl)
  | opaqueDir r =>
    rw [finishOperation]
    split
    · exact obeys_adapter (h.append rfl) rfl
    · exact knows_of_active hs (h.append rfl)

theorem obeys_applyEvent (h : Knows s) (event : ReaderEvent) :
    Obeys blamesAdapter Knows (Apply.applyEvent a overwrite s event) := by
  cases event with
  | archiveMetadata m => exact h
  | entry m =>
    rw [Apply.applyEvent]
    by_cases hactive : s.active.isSome = true
    · rw [if_pos hactive]
      exact obeys_error (h.append rfl)
    have hidle : Follows s.log false := by
      unfold Knows at h
      have hnone : s.active = none := by simpa using hactive
      rw [hnone] at h
      exact h
    rw [if_neg hactive]
    split_ifs
    · exact hidle
    split
    · exact obeys_error hidle
    · refine (obeys_beginOperation hidle _).bind ?_
      rintro ⟨active, log⟩ _ hlog
      exact hlog
  | data bytes =>
    rw [Apply.applyEvent]
    split
    · next m hm =>
      unfold Knows at h
      rw [hm] at h
      split
      · exact obeys_adapter (h.append rfl) rfl
      · exact knows_of_active hm (h.append rfl)
    · exact h
  | endEntry =>
    rw [Apply.applyEvent]
    unfold Knows at h
    split
    · next hnone =>
      rw [hnone] at h
      exact obeys_error h
    · next current hc =>
      rw [hc] at h
      exact obeys_finishOperation rfl current h

/-- **Whole layers up to their end.** -/
theorem obeys_applyEvents (events : List ReaderEvent) : ∀ {s : ApplyState}, Knows s →
    Obeys blamesAdapter Knows (applyEvents a overwrite s events) := by
  induction events with
  | nil =>
    intro s h
    exact h
  | cons event events ih =>
    intro s h
    refine (obeys_applyEvent h event).bind ?_
    intro s' _ h'
    exact ih h'

/-- The end of a layer that is a failure finds no entry in flight. -/
def EndsIdle (ending : Except StreamError Unit) (s : ApplyState) : Prop :=
  (∃ e, ending = .error e) ∨ s.operations ≠ [] → flies s.active = false

theorem obeys_finishApply_iff (h : Knows s) (ending : Except StreamError Unit) :
    Obeys blamesAdapter (fun r => ∃ flying, Follows r.2 flying) (finishApply a s ending) ↔
      EndsIdle ending s := by
  -- a failure that is not the adapter's and comes with the calls made so far
  have hfail : ∀ {e : OciLayerError}, blamesAdapter e = false →
      (Obeys blamesAdapter (fun r : OciApplyReport × List Call => ∃ flying, Follows r.2 flying)
        (.error (e, s.log)) ↔ flies s.active = false) := by
    intro e he
    constructor
    · rintro ⟨b, hb, hb'⟩
      exact h.unique hb ▸ hb' he
    · intro hf
      exact obeys_error (hf ▸ h)
  unfold finishApply EndsIdle
  cases ending with
  | error e =>
    rw [hfail rfl]
    simp
  | ok u =>
    dsimp only
    split_ifs with hops
    · rw [hfail rfl]
      have hne : s.operations ≠ [] := by simpa using hops
      simp [hne]
    · have hnil : s.operations = [] := by simpa using hops
      refine iff_of_true ?_ (by simp [hnil])
      split
      · exact obeys_adapter (h.append rfl) rfl
      · exact ⟨_, h.append rfl⟩

end

/-- **The layer driver and the call protocol.** -/
theorem driveApply_obeys_iff (a : FilesystemAdapter) (policy : Policy)
    (operations : List OciPlanOperation) (layer : Events) :
    Obeys blamesAdapter (fun r => ∃ flying, Follows r.2 flying)
        (driveApply a policy operations layer) ↔
      ∀ s, a.beginSession [] = .ok () → applyEvents a policy.overwrite
        { operations, log := [.beginSession] } layer.events = .ok s → EndsIdle layer.ending s := by
  unfold driveApply
  cases hb : a.beginSession [] with
  | error e =>
    refine iff_of_true (obeys_error follows_beginSession) ?_
    intro s h
    cases h
  | ok u =>
    have hev := @obeys_applyEvents a policy.overwrite layer.events
      { operations, log := [.beginSession] } follows_beginSession
    cases hs : applyEvents a policy.overwrite { operations, log := [.beginSession] } layer.events with
    | error e =>
      rw [hs] at hev
      refine iff_of_true hev ?_
      intro s _ h
      cases h
    | ok s =>
      rw [hs] at hev
      dsimp only
      rw [ok_bind, obeys_finishApply_iff hev]
      simp

/-- **The call protocol of both drivers.** For every plan, stream and adapter the calls of an apply
session, and those of the application of a layer, are in order and leave no entry in flight at a
failure that is not the adapter's, if and only if no entry of the session begins while one is in
flight, and no entry of the layer is in flight when its reader fails or when it ends before its
plan. -/
theorem drivers_obey_iff {host : Host} (a : FilesystemAdapter) (policy : Policy) (limits : Limits)
    (planned : List (PlannedEntry host)) (operations : List OciPlanOperation) (stream : Events) :
    (Obeys ofAdapter (fun r => ∃ flying, Follows r.2 flying)
          (applyPlan a policy limits planned stream) ↔
        ∀ d, AdapterDriver.new a policy limits planned = .ok d → Orderly a d stream.events) ∧
      (Obeys blamesAdapter (fun r => ∃ flying, Follows r.2 flying)
          (driveApply a policy operations stream) ↔
        ∀ s, a.beginSession [] = .ok () → applyEvents a policy.overwrite
          { operations, log := [.beginSession] } stream.events = .ok s → EndsIdle stream.ending s) :=
  ⟨applyPlan_obeys_iff a policy limits planned stream, driveApply_obeys_iff a policy operations stream⟩

/-- A layer whose reader fails inside the only file. -/
def truncatedLayer : Events :=
  ⟨[.entry { kind := .file, path := .fromBytes (bstr "a") }, .data [1]],
    .error (.io ⟨"UnexpectedEof", "truncated layer"⟩)⟩

/-- The file is begun and never aborted. -/
theorem not_obeys_truncatedLayer :
    ¬ Obeys blamesAdapter (fun r => ∃ flying, Follows r.2 flying)
      (driveApply Alignment.fileAdapter {} [.materialize
        ⟨{ kind := .file, path := .fromBytes (bstr "a") }, [bstr "a"], none, none⟩] truncatedLayer) := by
  rw [driveApply_obeys_iff]
  intro h
  have hidle := h _ rfl rfl (.inl ⟨_, rfl⟩)
  revert hidle
  decide

end LibarchiveOxide.Oci.CallProtocol
