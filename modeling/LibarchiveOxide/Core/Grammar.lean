import LibarchiveOxide.Core.Drive
import LibarchiveOxide.Core.Failure

/-! # The grammar and the account of decoder events

`Trace closes evs p` reads the events from the left: between entries, inside an entry with the data
windows reported so far, or finished. `closes m windows` is what must hold when an entry ends.
`Trace.shaped` turns a trace into the shape of the grammar: archive metadata and whole entries, and at
the end nothing, an open entry or `Done`. `Ledger` adds the budgets. -/

namespace LibarchiveOxide.Core.Grammar

open Core.Failure Core.Budget Core.Metadata Core.Protocol

/-! ### Traces -/

/-- Where a sequence of events stands. -/
inductive Phase where
  | between
  | inside (m : EntryMetadata) (windows : List (List Byte))
  | finished
deriving DecidableEq

/-- The events that only ask for something. -/
def isRequest : DecodeEvent → Bool
  | .needInput | .needOutput => true
  | _ => false

/-- The well-formed sequences of events. -/
inductive Trace (closes : EntryMetadata → List (List Byte) → Prop) :
    List DecodeEvent → Phase → Prop
  | nil : Trace closes [] .between
  | request {evs : List DecodeEvent} {p : Phase} {ev : DecodeEvent} (h : Trace closes evs p)
      (hr : isRequest ev = true) (hp : p ≠ .finished) : Trace closes (evs ++ [ev]) p
  | archiveMetadata {evs : List DecodeEvent} (m : ArchiveMetadata) (h : Trace closes evs .between) :
      Trace closes (evs ++ [.archiveMetadata m]) .between
  | entry {evs : List DecodeEvent} (m : EntryMetadata) (h : Trace closes evs .between) :
      Trace closes (evs ++ [.entry m]) (.inside m [])
  | data {evs : List DecodeEvent} {m : EntryMetadata} {windows : List (List Byte)}
      (bytes : List Byte) (h : Trace closes evs (.inside m windows)) :
      Trace closes (evs ++ [.data bytes]) (.inside m (windows ++ [bytes]))
  | endEntry {evs : List DecodeEvent} {m : EntryMetadata} {windows : List (List Byte)}
      (h : Trace closes evs (.inside m windows)) (hc : closes m windows) :
      Trace closes (evs ++ [.endEntry]) .between
  | done {evs : List DecodeEvent} (h : Trace closes evs .between) :
      Trace closes (evs ++ [.done]) .finished

section
variable {closes : EntryMetadata → List (List Byte) → Prop} {evs : List DecodeEvent} {p : Phase}

/-- Only `Done` finishes a trace. -/
theorem Trace.getLast_of_finished (h : Trace closes evs .finished) :
    evs.getLast? = some .done := by
  cases h with
  | request _ _ hp => exact absurd rfl hp
  | done => exact List.getLast?_concat ..

theorem Trace.not_finished (h : Trace closes evs p) (hl : evs.getLast? ≠ some .done) :
    p ≠ .finished := by
  rintro rfl
  exact hl h.getLast_of_finished

/-! ### The grammar -/

/-- A complete part of an archive: a metadata event, or an entry with its data windows. -/
inductive Item where
  | archiveMetadata (m : ArchiveMetadata)
  | member (m : EntryMetadata) (windows : List (List Byte))

def Item.events : Item → List DecodeEvent
  | .archiveMetadata m => [.archiveMetadata m]
  | .member m windows => .entry m :: windows.map .data ++ [.endEntry]

/-- What follows the complete parts. -/
def tailEvents : Phase → List DecodeEvent
  | .between => []
  | .inside m windows => .entry m :: windows.map .data
  | .finished => [.done]

/-- The events without the requests. -/
def signal (evs : List DecodeEvent) : List DecodeEvent := evs.filter fun ev => !isRequest ev

/-- The events are complete parts, each closed as it must be, and at the end nothing, an open entry
or `Done`: a prefix of `(ArchiveMetadata* Entry Data* EndEntry)* ArchiveMetadata* Done`. -/
def Shaped (closes : EntryMetadata → List (List Byte) → Prop) (evs : List DecodeEvent) : Prop :=
  ∃ (items : List Item) (p : Phase), signal evs = items.flatMap Item.events ++ tailEvents p ∧
    ∀ m windows, Item.member m windows ∈ items → closes m windows

theorem signal_append_of_request {ev : DecodeEvent} (h : isRequest ev = true) :
    signal (evs ++ [ev]) = signal evs := by
  simp [signal, h]

theorem signal_append {ev : DecodeEvent} (h : isRequest ev = false) :
    signal (evs ++ [ev]) = signal evs ++ [ev] := by
  simp [signal, h]

/-- The parts of a trace that stands at a phase. -/
theorem Trace.parts (h : Trace closes evs p) : ∃ items : List Item,
    signal evs = items.flatMap Item.events ++ tailEvents p ∧
      ∀ m windows, Item.member m windows ∈ items → closes m windows := by
  induction h with
  | nil => exact ⟨[], rfl, by simp⟩
  | request _ hr _ ih =>
    obtain ⟨items, hs, hc⟩ := ih
    exact ⟨items, (signal_append_of_request hr).trans hs, hc⟩
  | archiveMetadata m _ ih =>
    obtain ⟨items, hs, hc⟩ := ih
    refine ⟨items ++ [.archiveMetadata m], ?_, ?_⟩
    · rw [signal_append rfl, hs]
      simp [tailEvents, Item.events]
    · intro m' w hm
      rcases List.mem_append.mp hm with hm | hm
      · exact hc m' w hm
      · simp at hm
  | entry m _ ih =>
    obtain ⟨items, hs, hc⟩ := ih
    refine ⟨items, ?_, hc⟩
    rw [signal_append rfl, hs]
    simp [tailEvents]
  | data bytes _ ih =>
    obtain ⟨items, hs, hc⟩ := ih
    refine ⟨items, ?_, hc⟩
    rw [signal_append rfl, hs]
    simp [tailEvents]
  | @endEntry _ m windows _ hcl ih =>
    obtain ⟨items, hs, hc⟩ := ih
    refine ⟨items ++ [.member m windows], ?_, ?_⟩
    · rw [signal_append rfl, hs]
      simp [tailEvents, Item.events]
    · intro m' w hm
      rcases List.mem_append.mp hm with hm | hm
      · exact hc m' w hm
      · simp only [List.mem_singleton, Item.member.injEq] at hm
        rw [hm.1, hm.2]
        exact hcl
  | done _ ih =>
    obtain ⟨items, hs, hc⟩ := ih
    refine ⟨items, ?_, hc⟩
    rw [signal_append rfl, hs]
    simp [tailEvents]

theorem Trace.shaped (h : Trace closes evs p) : Shaped closes evs := by
  obtain ⟨items, hs, hc⟩ := h.parts
  exact ⟨items, p, hs, hc⟩

end

/-! ### Sizes and budgets -/

variable {ev : DecodeEvent}

/-- The bytes in some windows. -/
def windowBytes (windows : List (List Byte)) : ℕ := (windows.map List.length).sum

@[simp] theorem windowBytes_nil : windowBytes [] = 0 := rfl

@[simp] theorem windowBytes_append (ws : List (List Byte)) (w : List Byte) :
    windowBytes (ws ++ [w]) = windowBytes ws + w.length := by
  simp [windowBytes]

/-- The windows have the declared size together. -/
def Exact (m : EntryMetadata) (windows : List (List Byte)) : Prop :=
  m.size.map UInt64.toNat = some (windowBytes windows)

/-- The data bytes of an event. -/
def dataLength : DecodeEvent → ℕ
  | .data bytes => bytes.length
  | _ => 0

/-- All data bytes of some events. -/
def dataTotal (evs : List DecodeEvent) : ℕ := (evs.map dataLength).sum

/-- The entry events. -/
def isEntry : DecodeEvent → Bool
  | .entry _ => true
  | _ => false

/-- The number of entry events. -/
def entryCount (evs : List DecodeEvent) : ℕ := evs.countP isEntry

theorem entryCount_append_entry (evs : List DecodeEvent) (m : EntryMetadata) :
    entryCount (evs ++ [.entry m]) = entryCount evs + 1 := by
  simp [entryCount, isEntry]

theorem entryCount_append_of_not {evs : List DecodeEvent} (h : isEntry ev = false) :
    entryCount (evs ++ [ev]) = entryCount evs := by
  simp [entryCount, h]

/-- One more event in the account of data bytes per entry, the last entry first. -/
def tally (acc : List ℕ) : DecodeEvent → List ℕ
  | .entry _ => 0 :: acc
  | .data bytes => (acc.headD 0 + bytes.length) :: acc.tail
  | _ => acc

/-- The data bytes of each entry, the last entry first. -/
def perEntry (evs : List DecodeEvent) : List ℕ := evs.foldl tally []

/-- Some events stay within the budgets. -/
structure Budgeted (limits : Limits) (evs : List DecodeEvent) : Prop where
  total : Within (dataTotal evs) limits.decodedTotal
  perEntry : ∀ n ∈ perEntry evs, Within n limits.entryBytes
  entries : Within (entryCount evs) limits.entries
  paths : ∀ m, DecodeEvent.entry m ∈ evs → Within m.path.raw.length limits.pathBytes

/-- The counters of a decoder are true of its events and of the `begun` records, stay within the
budgets and do not wrap. -/
structure Solvent (limits : Limits) (evs : List DecodeEvent) (begun total entries : ℕ) : Prop where
  budgeted : Budgeted limits evs
  total_eq : total = dataTotal evs
  total_max : total ≤ u64Max
  entries_eq : entries = begun
  entries_max : entries ≤ u64Max
  begun_within : Within begun limits.entries

/-- What a decoder knows about its events: they are a trace within the budgets, `total` counts their
data bytes and `entries` the records begun, and neither count exceeds `u64::MAX`. -/
structure Ledger (limits : Limits) (closes : EntryMetadata → List (List Byte) → Prop)
    (evs : List DecodeEvent) (p : Phase) (total entries : ℕ) : Prop where
  trace : Trace closes evs p
  total_eq : dataTotal evs = total
  total_le : total ≤ u64Max
  total_within : Within total limits.decodedTotal
  entries_le : entryCount evs ≤ entries
  entries_max : entries ≤ u64Max
  entries_within : Within entries limits.entries
  perEntry_within : ∀ n ∈ perEntry evs, Within n limits.entryBytes
  current : ∀ m windows, p = .inside m windows → (perEntry evs).head? = some (windowBytes windows)
  paths : ∀ m, DecodeEvent.entry m ∈ evs → Within m.path.raw.length limits.pathBytes

section
variable {limits : Limits} {closes : EntryMetadata → List (List Byte) → Prop}
  {evs : List DecodeEvent} {p : Phase} {total entries : ℕ}

theorem Ledger.budgeted (h : Ledger limits closes evs p total entries) : Budgeted limits evs := by
  refine ⟨?_, h.perEntry_within, h.entries_within.mono h.entries_le, h.paths⟩
  rw [h.total_eq]
  exact h.total_within

theorem Ledger.solvent {begun : ℕ} (h : Ledger limits closes evs p total entries)
    (hb : entries = begun) : Solvent limits evs begun total entries :=
  ⟨h.budgeted, h.total_eq.symm, h.total_le, hb, h.entries_max, hb ▸ h.entries_within⟩

theorem perEntry_append (evs : List DecodeEvent) (ev : DecodeEvent) :
    perEntry (evs ++ [ev]) = tally (perEntry evs) ev := by
  simp [perEntry]

theorem ledger_nil (limits : Limits) (closes : EntryMetadata → List (List Byte) → Prop) :
    Ledger limits closes [] .between 0 0 where
  trace := .nil
  total_eq := rfl
  total_le := Nat.zero_le _
  total_within := within_zero _
  entries_le := Nat.zero_le _
  entries_max := Nat.zero_le _
  entries_within := within_zero _
  perEntry_within := by simp [perEntry]
  current := by simp
  paths := by simp

/-- An event that is neither an entry nor data changes no account. -/
theorem Ledger.other {p' : Phase} (h : Ledger limits closes evs p total entries)
    (ht : Trace closes (evs ++ [ev]) p') (hd : dataLength ev = 0) (he : ∀ m, ev ≠ .entry m)
    (hb : ∀ b, ev ≠ .data b) (hp : ∀ m windows, p' = .inside m windows → p = .inside m windows) :
    Ledger limits closes (evs ++ [ev]) p' total entries := by
  have hpe : perEntry (evs ++ [ev]) = perEntry evs := by
    rw [perEntry_append]
    cases ev with
    | entry m => exact absurd rfl (he m)
    | data b => exact absurd rfl (hb b)
    | _ => rfl
  have hcount : entryCount (evs ++ [ev]) = entryCount evs := by
    refine entryCount_append_of_not ?_
    cases ev with
    | entry m => exact absurd rfl (he m)
    | _ => rfl
  refine ⟨ht, ?_, h.total_le, h.total_within, ?_, h.entries_max, h.entries_within, ?_, ?_, ?_⟩
  · rw [← h.total_eq]
    simp [dataTotal, hd]
  · rw [hcount]
    exact h.entries_le
  · rw [hpe]
    exact h.perEntry_within
  · intro m windows hq
    rw [hpe]
    exact h.current m windows (hp m windows hq)
  · intro m hm
    rcases List.mem_append.mp hm with hm | hm
    · exact h.paths m hm
    · exact absurd (List.mem_singleton.mp hm).symm (he m)

theorem Ledger.request (h : Ledger limits closes evs p total entries) (hr : isRequest ev = true)
    (hp : p ≠ .finished) : Ledger limits closes (evs ++ [ev]) p total entries := by
  refine h.other (.request h.trace hr hp) ?_ ?_ ?_ fun _ _ hq => hq
  · cases ev <;> first | rfl | simp [isRequest] at hr
  · rintro m rfl
    simp [isRequest] at hr
  · rintro b rfl
    simp [isRequest] at hr

theorem Ledger.archiveMetadata (m : ArchiveMetadata)
    (h : Ledger limits closes evs .between total entries) :
    Ledger limits closes (evs ++ [.archiveMetadata m]) .between total entries :=
  h.other (.archiveMetadata m h.trace) rfl (by simp) (by simp) (by simp)

variable {m : EntryMetadata}

theorem Ledger.endEntry {windows : List (List Byte)}
    (h : Ledger limits closes evs (.inside m windows) total entries) (hc : closes m windows) :
    Ledger limits closes (evs ++ [.endEntry]) .between total entries :=
  h.other (.endEntry h.trace hc) rfl (by simp) (by simp) (by simp)

theorem Ledger.done (h : Ledger limits closes evs .between total entries) :
    Ledger limits closes (evs ++ [.done]) .finished total entries :=
  h.other (.done h.trace) rfl (by simp) (by simp) (by simp)

/-- More records were begun than entries reported. -/
theorem Ledger.begin {entries' : ℕ} (h : Ledger limits closes evs p total entries)
    (hle : entries ≤ entries') (hmax : entries' ≤ u64Max) (hw : Within entries' limits.entries) :
    Ledger limits closes evs p total entries' :=
  { h with entries_le := h.entries_le.trans hle, entries_max := hmax, entries_within := hw }

theorem Ledger.entry (h : Ledger limits closes evs .between total entries)
    (hlt : entryCount evs < entries) (hp : Within m.path.raw.length limits.pathBytes) :
    Ledger limits closes (evs ++ [.entry m]) (.inside m []) total entries := by
  refine ⟨.entry m h.trace, ?_, h.total_le, h.total_within, ?_, h.entries_max, h.entries_within,
    ?_, ?_, ?_⟩
  · rw [← h.total_eq]
    simp [dataTotal, dataLength]
  · have hcount := entryCount_append_entry evs m
    omega
  · rw [perEntry_append]
    intro n hn
    rcases List.mem_cons.mp hn with rfl | hn
    · exact within_zero _
    · exact h.perEntry_within n hn
  · intro m' windows hq
    cases hq
    rw [perEntry_append]
    rfl
  · intro m' hm
    rcases List.mem_append.mp hm with hm | hm
    · exact h.paths m' hm
    · cases List.mem_singleton.mp hm
      exact hp

theorem Ledger.data {windows : List (List Byte)} {b : List Byte}
    (h : Ledger limits closes evs (.inside m windows) total entries)
    (hmax : total + b.length ≤ u64Max) (ht : Within (total + b.length) limits.decodedTotal)
    (he : Within (windowBytes windows + b.length) limits.entryBytes) :
    Ledger limits closes (evs ++ [.data b]) (.inside m (windows ++ [b]))
      (total + b.length) entries := by
  obtain ⟨rest, hrest⟩ : ∃ rest, perEntry evs = windowBytes windows :: rest := by
    have hc := h.current m windows rfl
    cases hpe : perEntry evs with
    | nil => simp [hpe] at hc
    | cons n rest => exact ⟨rest, by rw [hpe] at hc; simpa using hc⟩
  have hpe : perEntry (evs ++ [.data b]) = (windowBytes windows + b.length) :: rest := by
    rw [perEntry_append, hrest]
    rfl
  refine ⟨.data b h.trace, ?_, hmax, ht, ?_, h.entries_max, h.entries_within, ?_, ?_, ?_⟩
  · rw [← h.total_eq]
    simp [dataTotal, dataLength]
  · rw [entryCount_append_of_not rfl]
    exact h.entries_le
  · rw [hpe]
    intro n hn
    rcases List.mem_cons.mp hn with rfl | hn
    · exact he
    · refine h.perEntry_within n ?_
      rw [hrest]
      exact List.mem_cons_of_mem _ hn
  · intro m' w hq
    cases hq
    rw [hpe, windowBytes_append]
    rfl
  · intro m' hm
    rcases List.mem_append.mp hm with hm | hm
    · exact h.paths m' hm
    · simp at hm

end

end LibarchiveOxide.Core.Grammar
