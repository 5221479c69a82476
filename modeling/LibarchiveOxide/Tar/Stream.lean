import LibarchiveOxide.Core.Drive
import LibarchiveOxide.Lib.Machine
import LibarchiveOxide.Tar.Decoder
import LibarchiveOxide.Tar.SourceLemmas

/-! # Tar as a language of streams

What the decoder is for, said without buffers: a deterministic machine that reads a whole stream one
header block or one byte at a time. The payload of an entry is a plan, one flag per logical byte: a
stored byte is read from the stream, a byte of a hole is a zero. The decoder with unlimited budgets
simulates this machine for every cutting of the stream (`Tar.Simulation`). -/

namespace LibarchiveOxide.Tar.Stream

open Core.Failure Core.Metadata Core.Drive Lib.Machine Tar.Header Tar.Pax Tar.Source Tar.Decoder

/-- Where the machine stands. -/
inductive Phase where
  | header
  | record (kind : MetaKind) (data pad : ℕ) (acc : List Byte)
  | payload (plan : List Bool) (pad : ℕ)
deriving DecidableEq

/-- A configuration: the rest of the stream, the phase, the overrides and the accounts. -/
structure Config where
  stream : List Byte
  phase : Phase := .header
  pending : Overrides := {}
  global : Overrides := {}
  globalChanged : Bool := false
  entries : ℕ := 0
  totalBytes : ℕ := 0
  metadataBytes : ℕ := 0
deriving DecidableEq

/-- How the machine ends. An account of data bytes that overflows and an old-GNU header with
extension blocks are ends of their own. -/
inductive Outcome where
  | done
  | fail (e : ArchiveError)
  | overflow
  | extended
deriving DecidableEq

/-- The plan of the logical bytes from `position` on: `true` for a stored byte. -/
def planFrom (logicalSize : ℕ) : ℕ → List SparseExtent → List Bool
  | position, [] => List.replicate (logicalSize - position) false
  | position, e :: rest =>
    List.replicate (e.offset - position) false ++
      List.replicate (e.end - max position e.offset) true ++ planFrom logicalSize e.end rest

/-- The plan of a staged entry. -/
def planOf (stage : Stage) (size : ℕ) : List Bool :=
  if stage.isSparse then planFrom stage.logicalSize.toNat 0 stage.sparse
  else List.replicate size true

/-- The accounts with a new entry. -/
def charge (c : Config) (m : EntryMetadata) : Except ArchiveError Config := do
  let entries ← okOr (checkedAdd c.entries 1) (tarError .limit "entry count overflow")
  let cost ← entryMetadataCost m
  let metadataBytes ← okOr (checkedAdd c.metadataBytes cost)
    (tarError .limit "metadata accounting overflow")
  return { c with entries, metadataBytes }

/-- An entry header read, up to its event. -/
def beginEntry (c : Config) (hdr : List Byte) (size pad : ℕ) (stage : Stage) :
    Except ArchiveError (EntryMetadata × Config) := do
  let m ← liftError (stagedMetadata hdr stage c.global)
  let c ← charge c m
  return (m, { c with
    stream := c.stream.drop BLOCK, pending := {}, phase := .payload (planOf stage size) pad })

/-- A header block read. -/
def onAnnounced (c : Config) (hdr : List Byte) : Except Error Announced → Next Config Atom Outcome
  | .error e => .halt (.fail (.ofError e))
  | .ok (.record kind data pad) =>
    .next [] { c with stream := c.stream.drop BLOCK, phase := .record kind data pad [] }
  | .ok (.entry size pad stage) =>
    if isExtended hdr then .halt .extended
    else match beginEntry c hdr size pad stage with
      | .error e => .halt (.fail e)
      | .ok (m, c) => .next [.entry m] c

/-- A header block. -/
def onHeader (c : Config) : Next Config Atom Outcome :=
  if c.globalChanged then
    .next [.archiveMetadata { extensions := c.global.pax.map fun r => ⟨"pax", r.1, r.2⟩ }]
      { c with globalChanged := false }
  else if c.stream.length < BLOCK ∨ (c.stream.take BLOCK).all (· == 0) then .halt .done
  else
    onAnnounced c (c.stream.take BLOCK) (readHeader (c.stream.take BLOCK) c.pending c.global)

/-- A truncated stream. -/
def truncated (what : String) : Next Config Atom Outcome :=
  .halt (.fail (.ofError (.malformed what)))

/-- A byte of a record. -/
def onRecord (c : Config) (kind : MetaKind) (data pad : ℕ) (acc : List Byte) :
    Next Config Atom Outcome :=
  match data, pad, c.stream with
  | 0, 0, _ =>
    match recordOverrides kind acc c.pending c.global with
    | .error e => .halt (.fail (.ofError e))
    | .ok (pending, global) =>
      .next [] { c with
        phase := .header, pending, global, globalChanged := kind == .paxGlobal }
  | data + 1, pad, b :: stream =>
    .next [] { c with stream, phase := .record kind data pad (acc ++ [b]) }
  | 0, pad + 1, _ :: stream => .next [] { c with stream, phase := .record kind 0 pad acc }
  | _, _, [] => truncated "tar: truncated extended header"

/-- One logical byte of an entry. -/
def emit (c : Config) (b : Byte) (phase : Phase) : Next Config Atom Outcome :=
  if c.totalBytes + 1 ≤ u64Max then
    .next [.byte b] { c with phase, totalBytes := c.totalBytes + 1 }
  else .halt .overflow

/-- A byte of a payload or of its padding. -/
def onPayload (c : Config) (plan : List Bool) (pad : ℕ) : Next Config Atom Outcome :=
  match plan, pad, c.stream with
  | false :: plan, pad, _ => emit c 0 (.payload plan pad)
  | true :: plan, pad, b :: stream => emit { c with stream } b (.payload plan pad)
  | true :: _, _, [] => truncated "tar: truncated payload"
  | [], pad + 1, _ :: stream => .next [] { c with stream, phase := .payload [] pad }
  | [], _ + 1, [] => truncated "tar: truncated payload padding"
  | [], 0, _ => .next [.endEntry] { c with phase := .header }

/-- The machine. -/
def machine (c : Config) : Next Config Atom Outcome :=
  match c.phase with
  | .header => onHeader c
  | .record kind data pad acc => onRecord c kind data pad acc
  | .payload plan pad => onPayload c plan pad

/-- The stream is only read. -/
theorem suffix_of_machine {c c' : Config} {as : List Atom} (h : machine c = .next as c') :
    c'.stream <:+ c.stream := by
  unfold machine at h
  split at h
  · unfold onHeader at h
    split_ifs at h
    · cases h; exact List.suffix_rfl
    · unfold onAnnounced at h
      split at h
      · cases h
      · cases h; exact List.drop_suffix _ _
      · split_ifs at h
        split at h
        · cases h
        · next hb =>
          cases h
          obtain ⟨_, -, hb⟩ := Lib.Result.bind_eq_ok.mp hb
          obtain ⟨c1, hc, hb⟩ := Lib.Result.bind_eq_ok.mp hb
          cases hb
          obtain ⟨_, -, hc⟩ := Lib.Result.bind_eq_ok.mp hc
          obtain ⟨_, -, hc⟩ := Lib.Result.bind_eq_ok.mp hc
          obtain ⟨_, -, hc⟩ := Lib.Result.bind_eq_ok.mp hc
          cases hc
          exact List.drop_suffix _ _
  · unfold onRecord at h
    split at h
    · split at h
      · cases h
      · cases h; exact List.suffix_rfl
    · next heq _ => cases h; rw [heq]; exact List.suffix_cons _ _
    · next heq _ => cases h; rw [heq]; exact List.suffix_cons _ _
    · cases h
  · unfold onPayload emit at h
    split at h
    · split_ifs at h; cases h; exact List.suffix_rfl
    · next heq _ => split_ifs at h; cases h; rw [heq]; exact List.suffix_cons _ _
    · cases h
    · next heq _ => cases h; rw [heq]; exact List.suffix_cons _ _
    · cases h
    · cases h; exact List.suffix_rfl

theorem suffix_of_steps {c c' : Config} {as : List Atom} (h : Steps machine c as c') :
    c'.stream <:+ c.stream := by
  induction h with
  | refl => exact List.suffix_rfl
  | head h1 _ ih => exact ih.trans (suffix_of_machine h1)

/-! ### Plans -/

variable {n : ℕ} {es : List SparseExtent}

/-- The extents lie in order, from `position` on and inside the logical size. -/
def Sorted (logicalSize : ℕ) : ℕ → List SparseExtent → Prop
  | position, [] => position ≤ logicalSize
  | position, e :: rest => position ≤ e.offset ∧ Sorted logicalSize e.end rest

/-- As `Sorted`, with the position possibly inside the first extent. -/
def Fits (logicalSize : ℕ) : ℕ → List SparseExtent → Prop
  | position, [] => position ≤ logicalSize
  | position, e :: rest => position ≤ e.end ∧ Sorted logicalSize e.end rest

theorem Sorted.fits {p : ℕ} (h : Sorted n p es) : Fits n p es := by
  cases es with
  | nil => exact h
  | cons e es => exact ⟨h.1.trans (Nat.le_add_right _ _), h.2⟩

theorem Sorted.le : ∀ {p : ℕ} {es : List SparseExtent}, Sorted n p es → p ≤ n
  | _, [], h => h
  | p, e :: es, h => by
    have h1 : e.offset ≤ e.end := Nat.le_add_right _ _
    exact h.1.trans (h1.trans (Sorted.le h.2))

theorem Fits.le {p : ℕ} (h : Fits n p es) : p ≤ n := by
  cases es with
  | nil => exact h
  | cons e es => exact h.1.trans h.2.le

theorem Sorted.end_le : ∀ {p : ℕ} {es : List SparseExtent}, Sorted n p es →
    ∀ e ∈ es, e.end ≤ n
  | _, [], _, e, he => absurd he List.not_mem_nil
  | p, e :: es, h, e', he => by
    rcases List.mem_cons.mp he with rfl | he
    · exact h.2.le
    · exact Sorted.end_le h.2 e' he

theorem length_planFrom : ∀ {p : ℕ} {es : List SparseExtent}, Fits n p es →
    (planFrom n p es).length = n - p
  | p, [], _ => by simp [planFrom]
  | p, e :: es, h => by
    have h1 := length_planFrom h.2.fits
    have h2 := h.2.le
    have h3 := h.1
    have h4 : e.offset ≤ e.end := Nat.le_add_right _ _
    simp only [planFrom, List.length_append, List.length_replicate, h1]
    omega

/-- An extent that ends at the position adds nothing to the plan. -/
theorem planFrom_cons_of_end {e : SparseExtent} (es : List SparseExtent) :
    planFrom n e.end (e :: es) = planFrom n e.end es := by
  have h : e.offset ≤ e.end := Nat.le_add_right _ _
  simp [planFrom, Nat.sub_eq_zero_of_le h]

/-- The stored bytes of a plan are those of the extents. -/
theorem count_planFrom : ∀ {p : ℕ} {es : List SparseExtent}, Sorted n p es →
    (planFrom n p es).count true = (es.map (·.length)).sum
  | p, [], _ => by simp [planFrom, List.count_replicate]
  | p, e :: es, h => by
    have h1 : e.end - max p e.offset = e.length := by
      have := h.1
      rw [max_eq_right this]
      exact Nat.add_sub_cancel_left _ _
    simp only [planFrom, List.count_append, count_planFrom h.2, List.map_cons, List.sum_cons, h1,
      List.count_replicate]
    simp

theorem validateSparseFrom_ok : ∀ {p stored total : ℕ} {es : List SparseExtent},
    p ≤ n → validateSparseFrom n p stored es = .ok total →
    Sorted n p es ∧ total = stored + (es.map (·.length)).sum
  | p, stored, total, [], hp, h => by cases h; exact ⟨hp, rfl⟩
  | p, stored, total, e :: es, hp, h => by
    rw [validateSparseFrom] at h
    split_ifs at h with h1
    cases hc : checkedAdd stored e.length with
    | none => rw [hc] at h; cases h
    | some stored' =>
      rw [hc] at h
      obtain ⟨rfl, -⟩ := checkedAdd_eq_some.mp hc
      obtain ⟨h2, h3⟩ := validateSparseFrom_ok (by omega) h
      refine ⟨⟨by omega, h2⟩, ?_⟩
      rw [h3, List.map_cons, List.sum_cons]
      omega

/-- **What validated extents give**: they are in order, and their plan has as many stored bytes as
the entry. -/
theorem validateSparseExtents_ok {size : ℕ} (h : validateSparseExtents es n size = .ok ()) :
    Sorted n 0 es ∧ (planFrom n 0 es).count true = size := by
  obtain ⟨stored, h1, h2⟩ := Lib.Result.bind_eq_ok.mp h
  obtain ⟨hs, hst⟩ := validateSparseFrom_ok (Nat.zero_le _) h1
  split_ifs at h2 with heq
  refine ⟨hs, ?_⟩
  rw [count_planFrom hs]
  omega

end LibarchiveOxide.Tar.Stream
