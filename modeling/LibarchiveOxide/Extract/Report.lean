import LibarchiveOxide.Extract.Driver
import LibarchiveOxide.Lib.Result

/-! # The report of an apply session

`Accounts` reads a report next to the calls that were made: one outcome and one group of findings for
each planned entry, in order. An entry is either decided on without the adapter, or begun, written and
finished, and then the adapter's report says what became of it. The driver keeps such an account
(`Recorded`), and returns it (`report_complete`). -/

namespace LibarchiveOxide.Extract.Report

open Core.Failure Core.Metadata Core.Budget Extract.Path Extract.Plan Extract.Filesystem
open Extract.Driver Stream.Event Lib.Result

variable {host : Host} {a : FilesystemAdapter}

/-! ### Accounts -/

/-- What an answer of the adapter means for the report. -/
def meaning : FilesystemMaterialization → EntryOutcomeKind
  | .file => .file
  | .directory => .directory
  | .symlink => .symlink
  | .hardlink => .hardlink
  | .special => .special
  | .destinationExists => .rejected .destinationExists
  | .failed => .rejected .filesystemError

/-- The answer commits a file that later hard links can name. -/
def Commits (m : FilesystemMaterialization) : Prop := m = .file ∨ m = .hardlink

instance (m : FilesystemMaterialization) : Decidable (Commits m) := inferInstanceAs (Decidable (_ ∨ _))

/-- The refusals of an entry that does not reach the adapter, one for each of its operations. -/
def refusals (m : EntryMetadata) (detail : String) : List FilesystemFinding :=
  (requestedOperations m).map fun operation => ⟨m.path, operation, .refused, detail⟩

/-- **What became of a planned entry**: its outcome, its findings, and the commits and calls from those
before it. -/
inductive Handled (a : FilesystemAdapter) (committed : List (DestinationKey host)) (log : List Call)
    (p : PlannedEntry host) :
    EntryOutcomeKind → List FilesystemFinding → List (DestinationKey host) → List Call → Prop where
  | skipped (hplan : p.disposition = .skip) :
      Handled a committed log p .skipped [.applied p.metadata.path .entry] committed log
  | rejected (reason : RejectionReason) (detail : String) (hplan : p.disposition ≠ .skip) :
      Handled a committed log p (.rejected reason) (refusals p.metadata detail) committed log
  | finished {destination : DestinationKey host} {entry : FilesystemEntry} {data : List (List Byte)}
      {report : FilesystemEntryReport} {findings : List FilesystemFinding}
      (hmetadata : entry.metadata = p.metadata) (hdestination : p.destination = some destination)
      (hpath : entry.destination = destination.path)
      (hlink : p.metadata.kind = .hardlink → ∃ target, p.linkTarget = some target ∧
        entry.linkTarget = some target.path ∧ ∃ file ∈ committed, file.identity = target.identity)
      (hreport : a.finishEntry (log ++ .beginEntry entry :: data.map .writeData) = .ok report)
      (happlied : ∀ f ∈ findings, f.kind = .applied → f ∈ report.findings) :
      Handled a committed log p (meaning report.materialization) findings
        (if Commits report.materialization then destination :: committed else committed)
        (log ++ .beginEntry entry :: data.map .writeData ++ [.finishEntry])

/-- **An account of the entries of a plan**, with the destinations of those that the adapter finished
as a file or a hard link, and the calls. -/
inductive Accounts (a : FilesystemAdapter) : List (PlannedEntry host) → List EntryOutcome →
    List (List FilesystemFinding) → List (DestinationKey host) → List Call → Prop where
  | opened : Accounts a [] [] [] [] [.beginSession]
  | entry {planned : List (PlannedEntry host)} {outcomes : List EntryOutcome}
      {groups : List (List FilesystemFinding)} {committed committed' : List (DestinationKey host)}
      {log log' : List Call} {p : PlannedEntry host} {outcome : EntryOutcomeKind}
      {findings : List FilesystemFinding} (h : Accounts a planned outcomes groups committed log)
      (handled : Handled a committed log p outcome findings committed' log') :
      Accounts a (planned ++ [p]) (outcomes ++ [⟨p.metadata.path, outcome⟩]) (groups ++ [findings])
        committed' log'

/-- Every planned entry has its outcome, under its path. -/
theorem Accounts.paths {planned : List (PlannedEntry host)} {outcomes : List EntryOutcome}
    {groups : List (List FilesystemFinding)} {committed : List (DestinationKey host)}
    {log : List Call} (h : Accounts a planned outcomes groups committed log) :
    outcomes.map EntryOutcome.path = planned.map fun p => p.metadata.path := by
  induction h with
  | opened => rfl
  | entry h handled ih => rw [List.map_append, List.map_append, ih]; rfl

/-! ### The account of a driver -/

/-- What a plan asks for. -/
def requested (planned : List (PlannedEntry host)) : List (ArchivePath × FilesystemOperation) :=
  planned.flatMap fun p => (requestedOperations p.metadata).map (p.metadata.path, ·)

theorem requested_append (planned : List (PlannedEntry host)) (p : PlannedEntry host) :
    requested (planned ++ [p]) =
      requested planned ++ (requestedOperations p.metadata).map (p.metadata.path, ·) := by
  rw [requested, List.flatMap_append, List.flatMap_singleton]
  rfl

/-- The account of the entries before the one that is being replayed. -/
structure Before (a : FilesystemAdapter) (planned : List (PlannedEntry host)) (d : AdapterDriver host)
    (done rest : List (PlannedEntry host)) (groups : List (List FilesystemFinding))
    (committed : List (DestinationKey host)) (log : List Call) : Prop where
  plan : d.planned = planned
  planned : planned = done ++ rest
  accounts : Accounts a done d.extraction groups committed log
  commits : ∀ file ∈ d.committedFiles, file ∈ committed

/-- An entry that will not reach the adapter. -/
def Decided (a : FilesystemAdapter) (d : AdapterDriver host) (p : PlannedEntry host)
    (current : CurrentEntry host) (groups : List (List FilesystemFinding))
    (committed : List (DestinationKey host)) (log : List Call) : Prop :=
  current.materializing = false ∧ d.log = log ∧ ∃ outcome findings,
    current.directOutcome = some outcome ∧ d.findings = groups.flatten ++ findings ∧
      Handled a committed log p outcome findings committed log

/-- An entry that the adapter has begun. -/
structure Begun (d : AdapterDriver host) (p : PlannedEntry host) (current : CurrentEntry host)
    (groups : List (List FilesystemFinding)) (committed : List (DestinationKey host))
    (log : List Call) (entry : FilesystemEntry) (data : List (List Byte))
    (destination : DestinationKey host) (undeclared : List FilesystemFinding) : Prop where
  materializing : current.materializing = true
  called : d.log = log ++ .beginEntry entry :: data.map .writeData
  metadata : entry.metadata = p.metadata
  planned : p.destination = some destination
  kept : current.destination = some destination
  path : entry.destination = destination.path
  link : p.metadata.kind = .hardlink → ∃ target, p.linkTarget = some target ∧
    entry.linkTarget = some target.path ∧ ∃ file ∈ committed, file.identity = target.identity
  findings : d.findings = groups.flatten ++ undeclared
  unapplied : ∀ f ∈ undeclared, f.kind ≠ .applied

/-- **The driver has an account** of what it has replayed. -/
inductive Recorded (a : FilesystemAdapter) (planned : List (PlannedEntry host))
    (d : AdapterDriver host) : Prop where
  | between {done rest : List (PlannedEntry host)} {groups : List (List FilesystemFinding)}
      {committed : List (DestinationKey host)} (before : Before a planned d done rest groups committed d.log)
      (hcurrent : d.current = none) (hseen : d.entriesSeen = done.length)
      (hexpected : d.expected = requested done) (hfindings : d.findings = groups.flatten)
  | within {done rest : List (PlannedEntry host)} {p : PlannedEntry host}
      {current : CurrentEntry host} {groups : List (List FilesystemFinding)}
      {committed : List (DestinationKey host)} {log : List Call}
      (before : Before a planned d done (p :: rest) groups committed log) (hcurrent : d.current = some current)
      (hseen : d.entriesSeen = done.length + 1) (hexpected : d.expected = requested (done ++ [p]))
      (hpath : current.path = p.metadata.path) (hkind : current.kind = p.metadata.kind)
      (hstage : Decided a d p current groups committed log ∨ ∃ entry data destination undeclared,
        Begun d p current groups committed log entry data destination undeclared)

variable {planned : List (PlannedEntry host)} {d d' : AdapterDriver host}

theorem recorded_new {policy : Policy} {limits : Limits}
    (h : AdapterDriver.new a policy limits planned = .ok d) :
    Recorded a planned d := by
  unfold AdapterDriver.new at h
  dsimp only at h
  split at h
  · cases h
  · cases h
    exact .between ⟨rfl, (List.nil_append _).symm, .opened, fun _ hmem => absurd hmem List.not_mem_nil⟩
      rfl rfl rfl rfl

/-! ### The beginning of an entry -/

variable {files : List (DestinationKey host)}

theorem observeEntry_eq_ok {m : EntryMetadata} (h : d.observeEntry m = .ok d') :
    d' = { d with entriesSeen := d.entriesSeen + 1 } := by
  unfold AdapterDriver.observeEntry at h
  obtain ⟨n, hadd, h⟩ := bind_eq_ok.mp h
  obtain ⟨rfl, -⟩ := checkedAdd_eq_some.mp (okOr_eq_ok.mp hadd)
  obtain ⟨-, h⟩ := guard_eq_ok.mp h
  obtain ⟨-, h⟩ := guard_eq_ok.mp h
  obtain ⟨-, h⟩ := guard_eq_ok.mp h
  cases h
  rfl

/-- A target that the driver knows is the destination of a file that was committed. -/
theorem committed_of_contains {committed : List (DestinationKey host)}
    (hcommits : ∀ file ∈ files, file ∈ committed) {target : DestinationKey host}
    (h : contains files target = true) : ∃ file ∈ committed, file.identity = target.identity := by
  obtain ⟨file, hmem, heq⟩ := List.any_eq_true.mp h
  exact ⟨file, hcommits file hmem, eq_of_beq heq⟩

/-- The driver behind the checks at the beginning of an entry: its counter and its expectations have
moved on. -/
structure Ready (a : FilesystemAdapter) (planned : List (PlannedEntry host)) (d : AdapterDriver host)
    (p : PlannedEntry host) (done rest : List (PlannedEntry host)) (groups : List (List FilesystemFinding))
    (committed : List (DestinationKey host)) : Prop where
  before : Before a planned d done (p :: rest) groups committed d.log
  seen : d.entriesSeen = done.length + 1
  expected : d.expected = requested (done ++ [p])
  findings : d.findings = groups.flatten

section

variable {p : PlannedEntry host} {done rest : List (PlannedEntry host)}
  {groups : List (List FilesystemFinding)} {committed : List (DestinationKey host)}

theorem Ready.reject (h : Ready a planned d p done rest groups committed) (hplan : p.disposition ≠ .skip)
    (reason : RejectionReason) (detail : String) :
    Recorded a planned (d.reject p.metadata (requestedOperations p.metadata) reason detail) := by
  refine .within ⟨h.before.plan, h.before.planned, h.before.accounts, h.before.commits⟩ rfl h.seen h.expected rfl rfl
    (.inl ⟨rfl, rfl, _, _, rfl, ?_, .rejected reason detail hplan⟩)
  exact congrArg (· ++ _) h.findings

theorem Ready.beginMaterializing (h : Ready a planned d p done rest groups committed)
    {destination : DestinationKey host} (hdestination : p.destination = some destination)
    (hlink : p.metadata.kind = .hardlink → ∃ target, p.linkTarget = some target ∧
      ∃ file ∈ committed, file.identity = target.identity)
    (hbegin : d.beginMaterializing a p.metadata (requestedOperations p.metadata) destination
      p.linkTarget = .ok d') : Recorded a planned d' := by
  unfold AdapterDriver.beginMaterializing at hbegin
  dsimp only at hbegin
  split at hbegin
  · cases hbegin
  · cases hbegin
    refine .within ⟨h.before.plan, h.before.planned, h.before.accounts, h.before.commits⟩ rfl h.seen h.expected rfl
      rfl (.inr ⟨_, [], destination, _, ⟨rfl, rfl, rfl, hdestination, rfl, rfl, fun hkind => ?_,
        congrArg (· ++ _) h.findings, ?_⟩⟩)
    · obtain ⟨target, htarget, hfile⟩ := hlink hkind
      exact ⟨target, htarget, by rw [htarget]; rfl, hfile⟩
    · intro f hf
      obtain ⟨operation, -, rfl⟩ := List.mem_map.mp hf
      exact nofun

theorem Ready.startMaterialize (h : Ready a planned d p done rest groups committed)
    (hplan : p.disposition ≠ .skip)
    (hstart : d.startMaterialize a p.metadata (requestedOperations p.metadata) p = .ok d') :
    Recorded a planned d' := by
  unfold AdapterDriver.startMaterialize at hstart
  cases hdestination : p.destination with
  | none =>
    rw [hdestination] at hstart
    cases hstart
  | some destination =>
    rw [hdestination] at hstart
    dsimp only at hstart
    by_cases huncommitted : p.metadata.kind = .hardlink ∧
        p.linkTarget.any (contains d.committedFiles ·) = false
    · rw [if_pos huncommitted] at hstart
      cases hstart
      exact h.reject hplan _ _
    rw [if_neg huncommitted] at hstart
    cases hkind : AdapterDriver.kindRejection d.capabilities p.metadata.kind with
    | some r =>
      rw [hkind] at hstart
      cases hstart
      exact h.reject hplan _ _
    | none =>
      rw [hkind] at hstart
      refine h.beginMaterializing hdestination (fun hhardlink => ?_) hstart
      have hcommitted : p.linkTarget.any (contains d.committedFiles ·) = true := by
        by_contra hnot
        exact huncommitted ⟨hhardlink, Bool.eq_false_iff.mpr hnot⟩
      obtain ⟨target, htarget, hcontains⟩ := (Option.any_eq_true _ _).mp hcommitted
      exact ⟨target, htarget, committed_of_contains h.before.commits hcontains⟩

end

theorem recorded_startEntry (h : Recorded a planned d) {m : EntryMetadata} (hstart : d.startEntry a m = .ok d') :
    Recorded a planned d' := by
  unfold AdapterDriver.startEntry at hstart
  cases h with
  | within before hcurrent =>
    rw [hcurrent] at hstart
    cases hstart
  | @between done rest groups committed before hcurrent hseen hexpected hfindings =>
    rw [if_neg (by rw [hcurrent]; exact nofun)] at hstart
    obtain ⟨d₁, hobserve, hstart⟩ := bind_eq_ok.mp hstart
    obtain rfl := observeEntry_eq_ok hobserve
    obtain ⟨p, hplanned, hstart⟩ := bind_eq_ok.mp hstart
    have hnext := okOr_eq_ok.mp hplanned
    dsimp only at hnext
    rw [before.plan, before.planned, hseen, List.getElem?_append_right le_rfl, Nat.sub_self] at hnext
    obtain ⟨rest, rfl⟩ : ∃ rest', rest = p :: rest' := by
      cases rest with
      | nil => cases hnext
      | cons q rest =>
        cases hnext
        exact ⟨rest, rfl⟩
    obtain ⟨hmetadata, hstart⟩ := guard_eq_ok.mp hstart
    obtain rfl : p.metadata = m := not_not.mp hmetadata
    have hready : Ready a planned { d with
        entriesSeen := d.entriesSeen + 1
        expected := d.expected ++ (requestedOperations p.metadata).map (p.metadata.path, ·) } p done rest
        groups committed := by
      refine ⟨⟨before.plan, before.planned, before.accounts, before.commits⟩, ?_, ?_, hfindings⟩
      · exact congrArg (· + 1) hseen
      · rw [requested_append]
        exact congrArg (· ++ _) hexpected
    cases hplan : p.disposition with
    | skip =>
      rw [hplan] at hstart
      cases hstart
      refine .within ⟨before.plan, before.planned, before.accounts, before.commits⟩ rfl hready.seen hready.expected
        rfl rfl (.inl ⟨rfl, rfl, _, _, rfl, ?_, .skipped hplan⟩)
      exact congrArg (· ++ _) hfindings
    | reject reason =>
      rw [hplan] at hstart
      cases hstart
      exact hready.reject (by rw [hplan]; exact nofun) _ _
    | materialize =>
      rw [hplan] at hstart
      exact hready.startMaterialize (by rw [hplan]; exact nofun) hstart

/-! ### The rest of an entry -/

theorem recorded_writeData (h : Recorded a planned d) {bytes : List Byte} (hwrite : d.writeData a bytes = .ok d') :
    Recorded a planned d' := by
  unfold AdapterDriver.writeData at hwrite
  cases h with
  | between before hcurrent =>
    rw [hcurrent] at hwrite
    cases hwrite
  | @within done rest p current groups committed log before hcurrent hseen hexpected hpath hkind hstage =>
    rw [hcurrent] at hwrite
    dsimp only at hwrite
    rcases hstage with hdecided | ⟨entry, data, destination, undeclared, hbegun⟩
    · rw [hdecided.1] at hwrite
      cases hwrite
      exact .within before hcurrent hseen hexpected hpath hkind (.inl hdecided)
    · rw [hbegun.materializing, if_pos rfl] at hwrite
      split at hwrite
      · cases hwrite
      · cases hwrite
        refine .within ⟨before.plan, before.planned, before.accounts, before.commits⟩ rfl hseen hexpected hpath
          hkind (.inr ⟨entry, data ++ [bytes], destination, undeclared, ⟨hbegun.materializing, ?_,
            hbegun.metadata, hbegun.planned, hbegun.kept, hbegun.path, hbegun.link, hbegun.findings,
            hbegun.unapplied⟩⟩)
        change d.log ++ [.writeData bytes] = _
        rw [hbegun.called, List.map_append, List.append_assoc]
        rfl

/-- Filling in what is missing adds refusals only. -/
theorem applied_fillMissing {path : ArchivePath} {detail : String} {f : FilesystemFinding}
    (happlied : f.kind = .applied) : ∀ (operations : List FilesystemOperation)
    (findings : List FilesystemFinding), f ∈ fillMissingFindings path operations findings detail →
    f ∈ findings
  | [], findings, h => h
  | operation :: operations, findings, h => by
    have hrest := applied_fillMissing happlied operations _ h
    dsimp only at hrest
    split_ifs at hrest
    · exact hrest
    · refine (List.mem_append.mp hrest).resolve_right fun hnew => ?_
      rw [List.mem_singleton.mp hnew] at happlied
      cases happlied

theorem insert_subset {committed : List (DestinationKey host)}
    (hcommits : ∀ file ∈ files, file ∈ committed) (destination : DestinationKey host) :
    ∀ file ∈ Path.insert files destination, file ∈ destination :: committed := by
  intro file hmem
  unfold Path.insert at hmem
  split_ifs at hmem
  · exact List.mem_cons_of_mem _ (hcommits file hmem)
  · exact (List.mem_cons.mp hmem).elim (fun heq => heq ▸ List.mem_cons_self)
      fun hmem => List.mem_cons_of_mem _ (hcommits file hmem)

/-- What the adapter's answer comes to. -/
theorem outcomeOf_eq {current : CurrentEntry host} {report : FilesystemEntryReport}
    {outcome : EntryOutcomeKind} {committed : List (DestinationKey host)}
    {findings : List FilesystemFinding} {destination : DestinationKey host}
    (hdestination : current.destination = some destination)
    (hcommits : ∀ file ∈ d.committedFiles, file ∈ committed)
    (h : d.outcomeOf current report = some (.ok (outcome, files, findings))) :
    outcome = meaning report.materialization ∧
      (∀ file ∈ files, file ∈ if Commits report.materialization then destination :: committed
        else committed) ∧ ∀ f ∈ findings, f.kind = .applied → f ∈ report.findings := by
  unfold AdapterDriver.outcomeOf at h
  rw [hdestination] at h
  cases hm : report.materialization with
  | file =>
    rw [hm] at h
    dsimp only at h
    split_ifs at h
    cases h
    exact ⟨rfl, insert_subset hcommits destination, fun f hf _ => hf⟩
  | hardlink =>
    rw [hm] at h
    dsimp only at h
    split_ifs at h
    cases h
    exact ⟨rfl, insert_subset hcommits destination, fun f hf _ => hf⟩
  | directory =>
    rw [hm] at h
    dsimp only at h
    split_ifs at h
    cases h
    exact ⟨rfl, hcommits, fun f hf _ => hf⟩
  | symlink =>
    rw [hm] at h
    dsimp only at h
    split_ifs at h
    cases h
    exact ⟨rfl, hcommits, fun f hf _ => hf⟩
  | special =>
    rw [hm] at h
    dsimp only at h
    split_ifs at h
    cases h
    exact ⟨rfl, hcommits, fun f hf _ => hf⟩
  | destinationExists =>
    rw [hm] at h
    cases h
    exact ⟨rfl, hcommits, fun f hf happlied => applied_fillMissing happlied _ _ hf⟩
  | failed =>
    rw [hm] at h
    cases h
    exact ⟨rfl, hcommits, fun f hf happlied => applied_fillMissing happlied _ _ hf⟩

theorem recorded_endEntry (h : Recorded a planned d) (hend : d.endEntry a = .ok d') : Recorded a planned d' := by
  unfold AdapterDriver.endEntry at hend
  cases h with
  | between before hcurrent =>
    rw [hcurrent] at hend
    cases hend
  | @within done rest p current groups committed log before hcurrent hseen hexpected hpath hkind hstage =>
    rw [hcurrent] at hend
    dsimp only at hend
    have hplanned : planned = (done ++ [p]) ++ rest := by
      rw [before.planned, List.append_assoc]
      rfl
    have hlength : d.entriesSeen = (done ++ [p]).length := by
      rw [hseen, List.length_append]
      rfl
    rcases hstage with ⟨hmaterializing, hlog, outcome, findings, houtcome, hfindings, handled⟩ |
      ⟨entry, data, destination, undeclared, hbegun⟩
    · rw [hmaterializing, houtcome] at hend
      cases hend
      subst hlog
      have haccount := before.accounts.entry handled
      rw [← hpath] at haccount
      refine .between ⟨before.plan, hplanned, haccount, before.commits⟩ rfl hlength hexpected ?_
      · rw [List.flatten_append, List.flatten_singleton]
        exact hfindings
    · rw [hbegun.materializing, if_neg (by decide)] at hend
      split at hend
      · cases hend
      · rename_i report hreport
        unfold AdapterDriver.settleEntry at hend
        split at hend
        · cases hend
        · cases hend
        · rename_i outcome files findings hsettled
          cases hend
          obtain ⟨rfl, hcommits, happlied⟩ := outcomeOf_eq hbegun.kept before.commits hsettled
          rw [hbegun.called] at hreport
          have hadapter : ∀ f ∈ undeclared ++ findings, f.kind = .applied → f ∈ report.findings := by
            intro f hf hkind
            rcases List.mem_append.mp hf with hmem | hmem
            · exact absurd hkind (hbegun.unapplied f hmem)
            · exact happlied f hmem hkind
          have haccount := before.accounts.entry (.finished hbegun.metadata hbegun.planned hbegun.path
            hbegun.link hreport hadapter)
          rw [← hpath, ← hbegun.called] at haccount
          refine .between ⟨before.plan, hplanned, haccount, hcommits⟩ rfl hlength hexpected ?_
          · rw [List.flatten_append, List.flatten_singleton, ← List.append_assoc]
            exact congrArg (· ++ _) hbegun.findings

/-- **Every event keeps the account.** -/
theorem recorded_applyEvent (h : Recorded a planned d) {event : ReaderEvent}
    (hevent : d.applyEvent a event = .ok d') : Recorded a planned d' := by
  cases event with
  | archiveMetadata m =>
    cases hevent
    exact h
  | entry m => exact recorded_startEntry h hevent
  | data bytes => exact recorded_writeData h hevent
  | endEntry => exact recorded_endEntry h hevent

theorem recorded_applyEvents : ∀ {events : List ReaderEvent} {d : AdapterDriver host}, Recorded a planned d →
    d.applyEvents a events = .ok d' → Recorded a planned d'
  | [], d, h, hevents => by
    cases hevents
    exact h
  | event :: events, d, h, hevents => by
    obtain ⟨d₁, hevent, hevents⟩ := bind_eq_ok.mp hevents
    exact recorded_applyEvents (recorded_applyEvent h hevent) hevents

/-! ### The end -/

/-- What is missing is added with a finding that is not Applied, and nothing is taken away. -/
theorem missingFindings_spec : ∀ (expected : List (ArchivePath × FilesystemOperation))
    (findings : List FilesystemFinding), ∃ missing,
    AdapterDriver.missingFindings expected findings = findings ++ missing ∧ (∀ f ∈ missing, f.kind = .partly) ∧
      ∀ x ∈ expected, ∃ f ∈ findings ++ missing, f.path = x.1 ∧ f.operation = x.2
  | [], findings => ⟨[], (List.append_nil _).symm, fun _ h => absurd h List.not_mem_nil,
      fun _ h => absurd h List.not_mem_nil⟩
  | x :: expected, findings => by
    have hstep : AdapterDriver.missingFindings (x :: expected) findings =
        AdapterDriver.missingFindings expected
          (if findings.any (fun f => f.path == x.1 && f.operation == x.2) then findings
          else findings ++ [⟨x.1, x.2, .partly,
            "adapter declared support but did not report the requested operation"⟩]) := rfl
    rw [hstep]
    by_cases hany : findings.any (fun f => f.path == x.1 && f.operation == x.2) = true
    · rw [if_pos hany]
      obtain ⟨missing, heq, hpartly, hall⟩ := missingFindings_spec expected findings
      refine ⟨missing, heq, hpartly, fun y hy => ?_⟩
      rcases List.mem_cons.mp hy with rfl | hy
      · obtain ⟨f, hf, hsame⟩ := List.any_eq_true.mp hany
        rw [Bool.and_eq_true, beq_iff_eq, beq_iff_eq] at hsame
        exact ⟨f, List.mem_append_left _ hf, hsame⟩
      · exact hall y hy
    · rw [if_neg hany]
      obtain ⟨missing, heq, hpartly, hall⟩ := missingFindings_spec expected (findings ++ [⟨x.1, x.2,
        .partly, "adapter declared support but did not report the requested operation"⟩])
      rw [List.append_assoc] at heq hall
      refine ⟨_, heq, fun f hf => ?_, fun y hy => ?_⟩
      · rcases List.mem_cons.mp hf with rfl | hf
        · rfl
        · exact hpartly f hf
      · rcases List.mem_cons.mp hy with rfl | hy
        · exact ⟨_, List.mem_append_right _ List.mem_cons_self, rfl, rfl⟩
        · exact hall y hy

theorem mem_requested {p : PlannedEntry host} (hp : p ∈ planned) {operation : FilesystemOperation}
    (hrequest : operation ∈ requestedOperations p.metadata) :
    (p.metadata.path, operation) ∈ requested planned :=
  List.mem_flatMap.mpr ⟨p, hp, List.mem_map.mpr ⟨operation, hrequest, rfl⟩⟩

/-- **The report is complete.** When a session returns, its report has one outcome for each planned
entry, in order and under its path, and the calls account for it. Its findings are those of the entries
and those of the session, with what was missing; every operation that an entry asks for has one. -/
theorem report_complete (a : FilesystemAdapter) (policy : Policy) (limits : Limits)
    (planned : List (PlannedEntry host)) (archive : Events) (r : AdapterExtraction) (log : List Call)
    (h : applyPlan a policy limits planned archive = .ok (r, log)) :
    r.extraction.map EntryOutcome.path = planned.map (fun p => p.metadata.path) ∧
      (∃ groups committed calls deferred missing, log = calls ++ [.finishSession] ∧
        Accounts a planned r.extraction groups committed calls ∧ a.finishSession calls = .ok deferred ∧
        r.findings = groups.flatten ++ deferred ++ missing ∧ ∀ f ∈ missing, f.kind = .partly) ∧
      ∀ p ∈ planned, ∀ operation ∈ requestedOperations p.metadata, ∃ f ∈ r.findings,
        f.path = p.metadata.path ∧ f.operation = operation := by
  obtain ⟨d, hnew, h⟩ := bind_eq_ok.mp h
  obtain ⟨d', hevents, hend⟩ := bind_eq_ok.mp h
  have hrecorded := recorded_applyEvents (recorded_new hnew) hevents
  unfold AdapterDriver.conclude at hend
  split at hend
  · cases hend
  unfold AdapterDriver.finish at hend
  by_cases hopen : d'.current.isSome = true
  · rw [if_pos hopen] at hend
    cases hend
  rw [if_neg hopen] at hend
  cases hrecorded with
  | within before hcurrent =>
    rw [hcurrent] at hopen
    exact absurd rfl hopen
  | @between done rest groups committed before hcurrent hseen hexpected hfindings =>
    split_ifs at hend with hcapabilities hcount
    have hrest : rest = [] := by
      have hlength := not_not.mp hcount
      rw [before.plan, before.planned, hseen, List.length_append] at hlength
      exact List.length_eq_zero_iff.mp (by omega)
    have hall : planned = done := by
      rw [before.planned, hrest, List.append_nil]
    subst hall
    cases hfinish : a.finishSession d'.log with
    | error e =>
      rw [hfinish] at hend
      cases hend
    | ok deferred =>
      rw [hfinish] at hend
      cases hend
      obtain ⟨missing, hmissing, hpartly, hanswered⟩ :=
        missingFindings_spec d'.expected (d'.findings ++ deferred)
      rw [hfindings] at hmissing hanswered
      refine ⟨before.accounts.paths, ⟨groups, committed, d'.log, deferred, missing, rfl, before.accounts,
        hfinish, ?_, hpartly⟩, fun p hp operation hrequest => ?_⟩
      · rw [hfindings]
        exact hmissing
      · rw [hexpected] at hanswered
        obtain ⟨f, hf, hsame⟩ := hanswered _ (mem_requested hp hrequest)
        refine ⟨f, ?_, hsame⟩
        rw [hfindings, hexpected]
        rw [hexpected] at hmissing
        rw [hmissing]
        exact hf

/-! ### Two files of one name -/

/-- A file. -/
def file : EntryMetadata := { kind := .file, path := .fromBytes (bstr "a") }

/-- An adapter that publishes every file and says so. -/
def publisher : FilesystemAdapter where
  capabilities _ := { atomicCommit := true }
  beginSession _ := .ok ()
  beginEntry _ _ := .ok ()
  writeData _ _ := .ok ()
  finishEntry _ := .ok ⟨.file, [.applied file.path .entry, .applied file.path .atomicCommit]⟩
  finishSession _ := .ok []
  removePath _ r := .ok (.applied r.path .removePath)
  clearDirectory _ r := .ok (.applied r.path .clearDirectory)

/-- The archive has the file twice. -/
def twice : Events := ⟨[.entry file, .data [1], .endEntry, .entry file, .data [2], .endEntry], .ok ()⟩

/-- The report on it. -/
def twiceReport : AdapterExtraction :=
  ⟨[⟨file.path, .file⟩, ⟨file.path, .rejected .destinationCollision⟩],
    [.applied file.path .entry, .applied file.path .atomicCommit] ++
      refusals file "another archive entry already claims this host destination"⟩

/-- The calls of it: the second file does not reach the adapter. -/
def twiceCalls : List Call :=
  [.beginSession, .beginEntry ⟨file, [bstr "a"], none, false⟩, .writeData [1], .finishEntry]

theorem applyPlan_twice :
    applyPlan publisher {} .safe (plan (Host.unix true) {} [file, file]) twice =
      .ok (twiceReport, twiceCalls ++ [.finishSession]) := by
  decide +kernel

/-- The second file is rejected before it reaches the adapter, and every operation it asks for is
reported as applied, under its path. -/
theorem twice_applied :
    applyPlan publisher {} .safe (plan (Host.unix true) {} [file, file]) twice =
        .ok (twiceReport, twiceCalls ++ [.finishSession]) ∧
      twiceReport.extraction[1]? = some ⟨file.path, .rejected .destinationCollision⟩ ∧
      ∀ operation ∈ requestedOperations file, .applied file.path operation ∈ twiceReport.findings :=
  ⟨applyPlan_twice, by decide, by decide⟩

/-- The account of it. -/
theorem report_twice :
    ∃ groups committed, Accounts publisher (plan (Host.unix true) {} [file, file])
      twiceReport.extraction groups committed twiceCalls := by
  obtain ⟨-, ⟨groups, committed, calls, deferred, missing, hcalls, haccounts, -⟩, -⟩ :=
    report_complete publisher {} .safe _ twice twiceReport _ applyPlan_twice
  rw [List.append_cancel_right hcalls]
  exact ⟨groups, committed, haccounts⟩

end LibarchiveOxide.Extract.Report
