import Mathlib.Data.UInt
import LibarchiveOxide.Tar.Plans
import LibarchiveOxide.Tar.Refinement

/-! # The tar decoder does not depend on the chunking

Every run of the decoder, on any cutting of the input, follows the one run of the stream machine
(`tracks`), and every run halts. So two cuttings give the same events up to the cutting of the data
and the same outcome. When the account of decoded bytes overflows, the data reported before the
failure may stop earlier in one run than in the other. -/

namespace LibarchiveOxide.Tar.ChunkInvariance

open Core.Failure Core.Budget Core.Metadata Core.Protocol Core.Drive Lib.Machine Lib.Slice
open Tar.Header Tar.Source Tar.Decoder Tar.Stream Tar.Refinement Tar.Idle

variable {B : List Byte}

/-- A run of a new decoder with unlimited budgets. -/
def tarRun (c : Cutting B) (n : ℕ) : Run TarDecoder :=
  run TarDecoder.step (.new .unlimited) c n

/-- A header block that the decoder polls in some call of the run. -/
def HeaderReached (c : Cutting B) (hdr : List Byte) : Prop :=
  ∃ n, (tarRun c n).halted = false ∧ PollsHeader (tarRun c n).decoder
    (window B (tarRun c n).consumed (c.supplied n)) (c.outputLen n) (c.eoi n) hdr

/-- How a run and the run of the machine on the whole stream are related. -/
inductive Tracks (c : Cutting B) (n : ℕ) : Prop
  | running (hh : (tarRun c n).halted = false) (k : Config)
      (hs : Steps machine (initial B) (tarRun c n).atoms k)
      (hr : Rep (tarRun c n).decoder (B.drop (tarRun c n).consumed) k)
  | done (hf : (tarRun c n).failure = none) (hd : (tarRun c n).done = true)
      (hm : Halts machine (initial B) (tarRun c n).atoms .done)
  | failed (e : ArchiveError) (hf : (tarRun c n).failure = some e)
      (hd : (tarRun c n).done = false)
      (hm : Halts machine (initial B) (tarRun c n).atoms (.fail e))
  | overflowed (e : ArchiveError) (he : IsOverflow e) (hf : (tarRun c n).failure = some e)
      (bs : List Byte)
      (hm : Halts machine (initial B) ((tarRun c n).atoms ++ bs.map .byte) .overflow)
  | extended (as : List Atom) (hm : Halts machine (initial B) as .extended) (hdr : List Byte)
      (hr : HeaderReached c hdr) (hx : isExtended hdr)

theorem done_append {σ : Type} (d : σ) (k : ℕ) (evs : List DecodeEvent) (ev : DecodeEvent)
    (f : Option ArchiveError) : (⟨d, k, evs ++ [ev], f⟩ : Run σ).done = decide (ev = .done) := by
  simp [Run.done, beq_eq_decide]

theorem atoms_append {σ : Type} (d : σ) (k : ℕ) (evs : List DecodeEvent) (ev : DecodeEvent)
    (f : Option ArchiveError) :
    (⟨d, k, evs ++ [ev], f⟩ : Run σ).atoms = evs.flatMap atoms ++ atoms ev := by
  simp [Run.atoms]

section
variable {c : Cutting B}

theorem tracks_succ {n : ℕ} (hout : c.Scratch) (hh : (tarRun c n).halted = false) {k : Config}
    (hs : Steps machine (initial B) (tarRun c n).atoms k)
    (hr : Rep (tarRun c n).decoder (B.drop (tarRun c n).consumed) k) : Tracks c (n + 1) := by
  have hcl := (run_consumed_le (c := c) (d := TarDecoder.new .unlimited) tar_progress.ending
    ⟨Nat.zero_le _, nofun⟩ n).1
  have hcut : window B (tarRun c n).consumed (c.supplied n) ++ B.drop (c.supplied n) =
      B.drop (tarRun c n).consumed := by
    have h1 : B.drop (c.supplied n) = (B.drop (tarRun c n).consumed).drop
        (c.supplied n - (tarRun c n).consumed) := by
      rw [List.drop_drop]
      congr 1
      exact (Nat.add_sub_of_le hcl).symm
    rw [h1, window, List.take_append_drop]
  have hend : c.eoi n = .end → B.drop (c.supplied n) = [] := fun he => by
    rw [c.supplied_of_end n he, List.drop_length]
  have hnf : (tarRun c n).failure = none := by
    cases hf : (tarRun c n).failure with
    | none => rfl
    | some e => simp [Run.halted, hf] at hh
  have hnd : (tarRun c n).done = false := by
    cases hd : (tarRun c n).done with
    | false => rfl
    | true => simp [Run.halted, hd] at hh
  rw [← hcut] at hr
  have hrun : tarRun c (n + 1) = (tarRun c n).advance TarDecoder.step B (c.supplied n)
    (c.outputLen n) (c.eoi n) := rfl
  rw [Run.advance, if_neg (by simp [hh])] at hrun
  obtain hag | ⟨hx, hdr, hp, hext⟩ := step_agrees hr (hout n) hend
  · cases hstep : (tarRun c n).decoder.step
        (window B (tarRun c n).consumed (c.supplied n)) (c.outputLen n) (c.eoi n) with
    | error e =>
      rw [hstep] at hag hrun
      obtain hfail | ⟨ho, bs, hov⟩ := hag
      · refine .failed e ?_ ?_ ?_
        · rw [hrun]
        · rw [hrun]; exact hnd
        · rw [hrun]
          have h := Halts.prepend hs hfail
          rw [List.append_nil] at h
          exact h
      · refine .overflowed e ho ?_ bs ?_
        · rw [hrun]
        · rw [hrun]
          exact Halts.prepend hs hov
    | ok r =>
      obtain ⟨st, d'⟩ := r
      rw [hstep] at hag hrun
      simp only at hrun
      obtain ⟨he, hdone⟩ | ⟨he, k', hs', hr'⟩ := hag
      · refine .done ?_ ?_ ?_
        · rw [hrun]
        · rw [hrun, done_append, he]; rfl
        · rw [hrun, atoms_append, he]
          exact Halts.prepend hs hdone
      · refine .running ?_ k' ?_ ?_
        · rw [hrun, Run.halted, done_append]; simpa using he
        · rw [hrun, atoms_append]; exact hs.trans hs'
        · rw [hrun]
          rw [hcut, List.drop_drop] at hr'
          exact hr'
  · exact .extended _ (Halts.prepend hs hx) hdr ⟨n, hh, hp⟩ hext

/-- **Every run follows the stream machine.** -/
theorem tracks (hout : c.Scratch) : ∀ n, Tracks c n
  | 0 => .running rfl (initial B) (.refl _) (rep_new B)
  | n + 1 => by
    have hkeep : (tarRun c n).halted = true → tarRun c (n + 1) = tarRun c n :=
      run_succ_of_halted
    cases tracks hout n with
    | running hh k hs hr => exact tracks_succ hout hh hs hr
    | done hf hd hm =>
      have h := hkeep (by simp [Run.halted, hd])
      exact .done (h ▸ hf) (h ▸ hd) (h ▸ hm)
    | failed e hf hd hm =>
      have h := hkeep (by simp [Run.halted, hf])
      exact .failed e (h ▸ hf) (h ▸ hd) (h ▸ hm)
    | overflowed e he hf bs hm =>
      have h := hkeep (by simp [Run.halted, hf])
      exact .overflowed e he (h ▸ hf) bs (h ▸ hm)
    | extended as hm hdr hr hx => exact .extended as hm hdr hr hx

end

/-! ### Outcomes -/

/-- Two runs that end alike: the same failure or none, and the same events up to the cutting of the
data. If the account of decoded bytes overflows, both fail so, and the events agree up to the end of
the last data. -/
def SameOutcome (r₁ r₂ : Run TarDecoder) : Prop :=
  (r₁.failure = r₂.failure ∧ r₁.done = r₂.done ∧ r₁.atoms = r₂.atoms) ∨
    ∃ e₁ e₂, r₁.failure = some e₁ ∧ r₂.failure = some e₂ ∧ IsOverflow e₁ ∧ IsOverflow e₂ ∧
      ∃ b₁ b₂ : List Byte, r₁.atoms ++ b₁.map .byte = r₂.atoms ++ b₂.map .byte

/-- **Chunk invariance.** Two cuttings of the same input, each with non-empty scratch buffers and an
end, lead to runs that halt with the same outcome, if the first reaches no old-GNU sparse header with
extension blocks. -/
theorem tar_chunk_invariant (c₁ c₂ : Cutting B) (hs₁ : c₁.Scratch) (he₁ : c₁.Ends)
    (hs₂ : c₂.Scratch) (he₂ : c₂.Ends) (hx : ∀ hdr, HeaderReached c₁ hdr → ¬ isExtended hdr) :
    ∃ n₁ n₂, (tarRun c₁ n₁).halted = true ∧ (tarRun c₂ n₂).halted = true ∧
      SameOutcome (tarRun c₁ n₁) (tarRun c₂ n₂) := by
  have h0 : Sized (TarDecoder.new Limits.unlimited) := ⟨Nat.zero_le _, nofun⟩
  obtain ⟨n₁, hh₁⟩ := run_halts tar_progress.ending h0 hs₁ he₁
  obtain ⟨n₂, hh₂⟩ := run_halts tar_progress.ending h0 hs₂ he₂
  refine ⟨n₁, n₂, hh₁, hh₂, ?_⟩
  cases tracks hs₁ n₁ with
  | running hh => exact absurd hh₁ (by simp [tarRun] at hh; simp [hh])
  | extended _ _ hdr hr h => exact absurd h (hx hdr hr)
  | done hf₁ hd₁ hm₁ =>
    cases tracks hs₂ n₂ with
    | running hh => exact absurd hh₂ (by simp [tarRun] at hh; simp [hh])
    | done hf₂ hd₂ hm₂ =>
      exact .inl ⟨hf₁.trans hf₂.symm, hd₁.trans hd₂.symm, (hm₁.unique hm₂).1⟩
    | failed e hf₂ hd₂ hm₂ => cases (hm₁.unique hm₂).2
    | overflowed e he hf₂ bs hm₂ => cases (hm₁.unique hm₂).2
    | extended as hm₂ => cases (hm₁.unique hm₂).2
  | failed e₁ hf₁ hd₁ hm₁ =>
    cases tracks hs₂ n₂ with
    | running hh => exact absurd hh₂ (by simp [tarRun] at hh; simp [hh])
    | done hf₂ hd₂ hm₂ => cases (hm₁.unique hm₂).2
    | failed e₂ hf₂ hd₂ hm₂ =>
      obtain ⟨ha, ho⟩ := hm₁.unique hm₂
      cases ho
      exact .inl ⟨hf₁.trans hf₂.symm, hd₁.trans hd₂.symm, ha⟩
    | overflowed e he hf₂ bs hm₂ => cases (hm₁.unique hm₂).2
    | extended as hm₂ => cases (hm₁.unique hm₂).2
  | overflowed e₁ ho₁ hf₁ b₁ hm₁ =>
    cases tracks hs₂ n₂ with
    | running hh => exact absurd hh₂ (by simp [tarRun] at hh; simp [hh])
    | done hf₂ hd₂ hm₂ => cases (hm₁.unique hm₂).2
    | failed e₂ hf₂ hd₂ hm₂ => cases (hm₁.unique hm₂).2
    | overflowed e₂ ho₂ hf₂ b₂ hm₂ =>
      exact .inr ⟨e₁, e₂, hf₁, hf₂, ho₁, ho₂, b₁, b₂, (hm₁.unique hm₂).1⟩
    | extended as hm₂ => cases (hm₁.unique hm₂).2

/-! ### Two hollow files -/

/-- An open sparse file without extents. -/
structure Hollow (d : TarDecoder) : Prop where
  notDone : d.done = false
  limits : d.limits = .unlimited
  active : d.sparseActive = true
  extents : d.sparse = []
  size_lt : d.logicalSize < 2 ^ 64

/-- The decoder that has reported `p` zeros of the open file and `t` bytes in all. -/
def reported (d : TarDecoder) (p t : ℕ) : TarDecoder :=
  { d with logicalPosition := p, entryBytes := p, totalBytes := t }

section
variable {d : TarDecoder} {p t n out : ℕ} {input : List Byte} {eoi : EndOfInput}

theorem sparseHole_hollow (h : Hollow d) (hp : p < d.logicalSize) (hout : 0 < out) :
    (reported d p t).sparseHole out =
      (({ reported d p t with
          sparseIndex := d.sparseIndex
          logicalPosition := p + min (d.logicalSize - p) out } : TarDecoder).accountData
        (min (d.logicalSize - p) out)).map fun d' =>
          (some ⟨0, min (d.logicalSize - p) out,
            .data (List.replicate (min (d.logicalSize - p) out) 0)⟩, d') := by
  have hlt := h.size_lt
  have hmod : (p + min (d.logicalSize - p) out) % 2 ^ 64 = p + min (d.logicalSize - p) out :=
    Nat.mod_eq_of_lt (by omega)
  simp only [TarDecoder.sparseHole, reported, h.active, h.extents, skipFinished, List.drop_nil,
    List.takeWhile_nil, List.length_nil, Nat.add_zero, List.getElem?_nil, Option.map_none,
    Option.getD_none, hp, Nat.pos_iff_ne_zero.mp hout, hmod, Bool.not_true, if_true, if_false]
  rfl

theorem step_hollow (h : Hollow d) (hn : n = min (d.logicalSize - p) out) (hpos : 0 < n)
    (hroom : t + n ≤ u64Max) : (reported d p t).step input out eoi =
      .ok (⟨0, n, .data (List.replicate n 0)⟩, reported d (p + n) (t + n)) := by
  have hlt := h.size_lt
  have hle : p + n ≤ u64Max := by unfold u64Max; omega
  have hd : (reported d p t).done = false := h.notDone
  have hl : (reported d p t).limits = .unlimited := h.limits
  rw [TarDecoder.step, hd, hl, sparseHole_hollow h (by omega) (by omega), ← hn]
  simp [TarDecoder.accountData, reported, Limits.unlimited, checkLimit, checkedAdd, hroom, hle,
    h.limits, Except.map]

theorem step_hollow_overflow (h : Hollow d) (hn : n = min (d.logicalSize - p) out) (hpos : 0 < n)
    (hroom : u64Max < t + n) : (reported d p t).step input out eoi =
      .error (tarError .limit "decoded byte count overflow") := by
  have hlt := h.size_lt
  have hle : p + n ≤ u64Max := by unfold u64Max; omega
  have hd : (reported d p t).done = false := h.notDone
  have hl : (reported d p t).limits = .unlimited := h.limits
  rw [TarDecoder.step, hd, hl, sparseHole_hollow h (by omega) (by omega), ← hn]
  simp [TarDecoder.accountData, reported, Limits.unlimited, checkLimit, checkedAdd, hroom.not_ge,
    hle, Except.map]

end

/-- An old-GNU sparse header without extents, of a file of `real` zeros. -/
def hollowHeader (real : ℕ) : List Byte :=
  ((putField (splice (splice zeroBlock 0 (bstr "h")) oTypeflag [chr 'S']) gnuSparseRealsize real
    >>= writeChecksum).toOption).getD []

/-- Two hollow files that have more than `u64::MAX` bytes together. -/
def hollowPair : List Byte := hollowHeader (2 ^ 64 - 3) ++ hollowHeader 5

/-- The metadata of a hollow file. -/
def hollowMetadata (real : UInt64) : EntryMetadata where
  kind := .file
  path := .fromBytes (bstr "h")
  size := some real
  mode := some 0
  owner := { uid := some 0, gid := some 0 }
  times := { modified := some (.fromSeconds 0) }

/-- The decoder that has just opened a hollow file as its `entries`-th entry. -/
def holding (buf : List Byte) (real : UInt64) (entries : ℕ) : TarDecoder where
  source :=
    { buf, cursor := BLOCK, state := .payload 0 0, finished := true
      stage := { logicalSize := real, isSparse := true } }
  limits := .unlimited
  needsInput := false
  inputFinished := true
  entries := entries
  metadataBytes := entries
  sparseActive := true
  logicalSize := real.toNat

/-- The decoder between the two files. -/
def between (total : ℕ) : TarDecoder :=
  { holding (hollowHeader 5) (2 ^ 64 - 3) 1 with
    source :=
      { buf := hollowHeader 5, finished := true
        stage := { logicalSize := 2 ^ 64 - 3, isSparse := true } }
    entryBytes := 2 ^ 64 - 3
    totalBytes := total
    logicalPosition := 2 ^ 64 - 3
    sparseActive := false }

/-- The steps at the first file, at its end and at the second file. -/
theorem steps_pair : (TarDecoder.new .unlimited).step hollowPair 1 .end =
      .ok (⟨1024, 0, .entry (hollowMetadata (2 ^ 64 - 3))⟩, holding hollowPair (2 ^ 64 - 3) 1) ∧
    (reported (holding hollowPair (2 ^ 64 - 3) 1) (2 ^ 64 - 3) (2 ^ 64 - 3)).step [] 1 .end =
      .ok (⟨0, 0, .endEntry⟩, between (2 ^ 64 - 3)) ∧
    (between (2 ^ 64 - 3)).step [] 1 .end = .ok (⟨0, 0, .entry (hollowMetadata 5)⟩,
      reported (holding (hollowHeader 5) 5 2) 0 (2 ^ 64 - 3)) := by
  refine ⟨?_, ?_, ?_⟩ <;> decide +kernel

theorem hollow_holding (buf : List Byte) (real : UInt64) (entries : ℕ) :
    Hollow (holding buf real entries) :=
  ⟨rfl, rfl, rfl, rfl, real.toNat_lt⟩

theorem step_outputLen {d : TarDecoder} {input : List Byte} {eoi : EndOfInput} {out : ℕ}
    (h : d.sparseHole out = d.sparseHole 1) : d.step input out eoi = d.step input 1 eoi := by
  rw [TarDecoder.step, TarDecoder.step, h]

theorem asked_outputLen {d : TarDecoder} {input : List Byte} {eoi : EndOfInput} {out : ℕ}
    (h : d.sparseHole out = d.sparseHole 1) : asked d input out eoi = asked d input 1 eoi := by
  rw [asked, asked, h]

theorem sparseHole_inactive {d : TarDecoder} (h : d.sparseActive = false) (out : ℕ) :
    d.sparseHole out = d.sparseHole 1 := by
  simp [TarDecoder.sparseHole, h]

theorem sparseHole_full {d : TarDecoder} (h : Hollow d) (t out : ℕ) :
    (reported d d.logicalSize t).sparseHole out = (reported d d.logicalSize t).sparseHole 1 := by
  simp [TarDecoder.sparseHole, reported, h.active, h.extents, skipFinished]

theorem logicalSize_holding (buf : List Byte) (n : ℕ) :
    (holding buf (2 ^ 64 - 3) n).logicalSize = 2 ^ 64 - 3 := by
  have h : (2 ^ 64 - 3 : UInt64).toNat = 2 ^ 64 - 3 := by decide +kernel
  exact h

section
variable {B : List Byte} {out : ℕ → ℕ} {a b : ℕ} {d₁ d₂ d₃ : TarDecoder} {e₁ e₂ : DecodeEvent}

variable {k : ℕ} {evs : List DecodeEvent}

theorem whole_succ_of_ok {n : ℕ} {d d' : TarDecoder} {s : DecodeStep}
    (h : tarRun (.whole B out) n = ⟨d, k, evs, none⟩) (hd : evs.getLast? ≠ some .done)
    (hs : d.step (window B k B.length) (out n) .end = .ok (s, d')) :
    tarRun (.whole B out) (n + 1) = ⟨d', k + s.consumed, evs ++ [s.event], none⟩ :=
  run_succ_of_ok h hd hs

theorem whole_succ_of_error {n : ℕ} {d : TarDecoder} {e : ArchiveError}
    (h : tarRun (.whole B out) n = ⟨d, k, evs, none⟩) (hd : evs.getLast? ≠ some .done)
    (hs : d.step (window B k B.length) (out n) .end = .error e) :
    tarRun (.whole B out) (n + 1) = ⟨d, k, evs, some e⟩ :=
  run_succ_of_error h hd hs

/-- Two more bytes of data are two more atoms. -/
theorem atoms_ne_of_data {d d' : TarDecoder} {k' : ℕ} {b b' : Byte} {f f' : Option ArchiveError} :
    (⟨d, k, evs ++ [.data [b]] ++ [.data [b']], f⟩ : Run TarDecoder).atoms ≠
      (⟨d', k', evs, f'⟩ : Run TarDecoder).atoms := by
  intro h
  have := congrArg List.length h
  simp [Run.atoms, atoms] at this

theorem window_length (B : List Byte) : window B B.length B.length = [] := by simp [window]

/-- The events of a hollow file in two windows, and those around it. -/
def passed (e₁ e₂ : DecodeEvent) (a b : ℕ) : List DecodeEvent :=
  [e₁, .data (List.replicate a 0), .data (List.replicate b 0), .endEntry, e₂]

theorem getLast_passed (m : EntryMetadata) :
    (passed e₁ (.entry m) a b).getLast? ≠ some .done := by
  simp [passed]

/-- The run over a first hollow file, reported in two windows, to the start of a second one. -/
structure Passes (B : List Byte) (out : ℕ → ℕ) (d₁ d₂ d₃ : TarDecoder) (e₁ e₂ : DecodeEvent)
    (a b : ℕ) : Prop where
  zero : tarRun (.whole B out) 0 = ⟨.new .unlimited, 0, [], none⟩
  one : tarRun (.whole B out) 1 = ⟨reported d₁ 0 0, B.length, [e₁], none⟩
  two : tarRun (.whole B out) 2 =
    ⟨reported d₁ a a, B.length, [e₁, .data (List.replicate a 0)], none⟩
  three : tarRun (.whole B out) 3 = ⟨reported d₁ (a + b) (a + b), B.length,
    [e₁, .data (List.replicate a 0), .data (List.replicate b 0)], none⟩
  four : tarRun (.whole B out) 4 = ⟨d₂, B.length,
    [e₁, .data (List.replicate a 0), .data (List.replicate b 0), .endEntry], none⟩
  five : tarRun (.whole B out) 5 = ⟨d₃, B.length, passed e₁ e₂ a b, none⟩

theorem passes (h₁ : (TarDecoder.new .unlimited).step B (out 0) .end =
      .ok (⟨B.length, 0, e₁⟩, reported d₁ 0 0))
    (hh : Hollow d₁) (hsize : d₁.logicalSize = a + b)
    (h₂ : (reported d₁ (a + b) (a + b)).step [] (out 3) .end = .ok (⟨0, 0, .endEntry⟩, d₂))
    (h₃ : d₂.step [] (out 4) .end = .ok (⟨0, 0, e₂⟩, d₃)) (ha : 0 < a) (hb : 0 < b)
    (hout₁ : out 1 = a) (hout₂ : out 2 = b) (he₁ : e₁ ≠ .done) :
    Passes B out d₁ d₂ d₃ e₁ e₂ a b := by
  have hlt := hh.size_lt
  have hr₁ : tarRun (.whole B out) 1 = ⟨reported d₁ 0 0, B.length, [e₁], none⟩ := by
    have h0 : tarRun (.whole B out) 0 = ⟨.new .unlimited, 0, [], none⟩ := rfl
    have hw : window B 0 B.length = B := by simp [window]
    have h := whole_succ_of_ok h0 (by simp) (by rw [hw]; exact h₁)
    simpa using h
  have hr₂ := whole_succ_of_ok hr₁ (by simpa using he₁)
    (step_hollow (n := a) hh (by rw [hsize, hout₁]; omega) ha (by unfold u64Max; omega))
  have hr₃ := whole_succ_of_ok hr₂ (by simp)
    (step_hollow (n := b) hh (by rw [hsize, hout₂]; omega) hb (by unfold u64Max; omega))
  simp only [Nat.zero_add, Nat.add_zero, List.cons_append, List.nil_append] at hr₂ hr₃
  have hr₄ := whole_succ_of_ok hr₃ (by simp) (by rw [window_length]; exact h₂)
  simp only [Nat.add_zero, List.cons_append, List.nil_append] at hr₄
  have hr₅ := whole_succ_of_ok hr₄ (by simp) (by rw [window_length]; exact h₃)
  exact ⟨rfl, hr₁, hr₂, hr₃, hr₄, hr₅⟩

/-- Once a hollow file is open that overflows the account, the run stays inside it. -/
theorem run_inside {t : ℕ} (hout : ∀ i, 0 < out i) (hh : Hollow d₃)
    (hroom : u64Max < t + d₃.logicalSize) (h0 : 0 < d₃.logicalSize)
    (h5 : tarRun (.whole B out) k = ⟨reported d₃ 0 t, B.length, evs, none⟩) {n : ℕ} (hn : k ≤ n) :
    ∃ p < d₃.logicalSize, (tarRun (.whole B out) n).decoder = reported d₃ p (t + p) := by
  induction n, hn using Nat.le_induction with
  | base => exact ⟨0, h0, by rw [h5]; rfl⟩
  | succ n _ ih =>
    obtain ⟨p, hp, hd⟩ := ih
    have hrun : tarRun (.whole B out) (n + 1) = (tarRun (.whole B out) n).advance TarDecoder.step B
      B.length (out n) .end := rfl
    rw [hrun, Run.advance]
    split_ifs with hh'
    · exact ⟨p, hp, hd⟩
    have hpos := hout n
    rw [hd]
    by_cases hr : t + p + min (d₃.logicalSize - p) (out n) ≤ u64Max
    · rw [step_hollow hh rfl (by omega) hr]
      exact ⟨p + min (d₃.logicalSize - p) (out n), by omega, by rw [Nat.add_assoc]⟩
    · rw [step_hollow_overflow hh rfl (by omega) (by omega)]
      exact ⟨p, hp, rfl⟩

/-- Two runs that have opened the same hollow file with room for two bytes: scratch buffers of one
byte report both before the failure, a larger one none. -/
theorem differ_of_room {out' : ℕ → ℕ} {t : ℕ} (hh : Hollow d₃) (hd : evs.getLast? ≠ some .done)
    (h : tarRun (.whole B out) k = ⟨reported d₃ 0 t, B.length, evs, none⟩)
    (h' : tarRun (.whole B out') k = ⟨reported d₃ 0 t, B.length, evs, none⟩)
    (hsize : d₃.logicalSize = 5) (h0 : out k = 1) (h1 : out (k + 1) = 1) (h2 : out (k + 2) = 1)
    (h0' : out' k = 5) (hle : t + 2 ≤ u64Max) (hlt : u64Max < t + 3) :
    (tarRun (.whole B out) (k + 3)).halted = true ∧ (tarRun (.whole B out') (k + 1)).halted = true ∧
      (tarRun (.whole B out) (k + 3)).atoms ≠ (tarRun (.whole B out') (k + 1)).atoms := by
  have r1 := whole_succ_of_ok h hd
    (step_hollow (n := 1) hh (by rw [hsize, h0]; rfl) one_pos (by omega))
  have r2 := whole_succ_of_ok r1 (by simp)
    (step_hollow (n := 1) hh (by rw [hsize, h1]; rfl) one_pos (by omega))
  have r3 := whole_succ_of_error r2 (by simp)
    (step_hollow_overflow (n := 1) hh (by rw [hsize, h2]; rfl) one_pos (by omega))
  have r1' := whole_succ_of_error h' hd
    (step_hollow_overflow (n := 5) hh (by rw [hsize, h0']; rfl) (by omega) (by omega))
  rw [r3, r1']
  exact ⟨rfl, rfl, atoms_ne_of_data⟩

/-- A call inside a hollow file polls no header. -/
theorem not_pollsHeader_hollow {d : TarDecoder} {p t o : ℕ} {input hdr : List Byte}
    {eoi : EndOfInput} (h : Hollow d) (hp : p < d.logicalSize) (ho : 0 < o) :
    ¬ PollsHeader (reported d p t) input o eoi hdr := by
  rintro ⟨s, -, hs, -⟩
  rw [asked, sparseHole_hollow h hp ho] at hs
  cases hacc : TarDecoder.accountData _ _ with
  | error e => rw [hacc] at hs; simp [Except.map] at hs
  | ok d' => rw [hacc] at hs; simp [Except.map] at hs

/-- The header a call polls first, if that poll answers. -/
theorem block_of_pollsHeader {d : TarDecoder} {o : ℕ} {input hdr : List Byte} {eoi : EndOfInput}
    {s : TarSource} (hs : asked d input o eoi = some s)
    (ha : s.poll.toOption.map Prod.fst ≠ some .again) (h : PollsHeader d input o eoi hdr) :
    s.state = .header ∧ s.block = hdr := by
  obtain ⟨s1, s2, hs1, hsil, -, hst, -, -, hb⟩ := h
  rw [hs, Option.some.injEq] at hs1
  subst hs1
  cases hsil with
  | refl => exact ⟨hst, hb⟩
  | head _ hp => simp [hp, Except.toOption] at ha

end

/-- Scratch buffers that take the first file in two windows. -/
def scratch (last i : ℕ) : ℕ := if i = 1 then 2 ^ 63 - 1 else if i = 2 then 2 ^ 63 - 2 else last

theorem scratch_pos {last : ℕ} (h : 0 < last) (i : ℕ) : 0 < scratch last i := by
  unfold scratch
  split_ifs <;> omega

/-- The sources that these steps poll. -/
theorem asked_pair : asked (.new .unlimited) hollowPair 1 .end =
      some { buf := hollowPair, finished := true } ∧
    asked (reported (holding hollowPair (2 ^ 64 - 3) 1) (2 ^ 64 - 3) (2 ^ 64 - 3)) [] 1 .end =
      some (holding hollowPair (2 ^ 64 - 3) 1).source.compact ∧
    asked (between (2 ^ 64 - 3)) [] 1 .end = some (between (2 ^ 64 - 3)).source ∧
    hollowPair.length = 1024 := by
  refine ⟨?_, ?_, ?_, ?_⟩ <;> decide +kernel

/-- The runs on the pair. -/
theorem passes_pair (last : ℕ) : Passes hollowPair (scratch last)
    (holding hollowPair (2 ^ 64 - 3) 1) (between (2 ^ 64 - 3))
    (reported (holding (hollowHeader 5) 5 2) 0 (2 ^ 64 - 3))
    (.entry (hollowMetadata (2 ^ 64 - 3))) (.entry (hollowMetadata 5)) (2 ^ 63 - 1)
    (2 ^ 63 - 2) := by
  have hsum : 2 ^ 63 - 1 + (2 ^ 63 - 2) = 2 ^ 64 - 3 := rfl
  obtain ⟨hfirst, hend, hsecond⟩ := steps_pair
  obtain ⟨-, -, -, hlength⟩ := asked_pair
  have hsize := logicalSize_holding hollowPair 1
  have hfull := sparseHole_full (hollow_holding hollowPair (2 ^ 64 - 3) 1) (2 ^ 64 - 3)
    (scratch last 3)
  rw [hsize] at hfull
  refine passes ?_ (hollow_holding _ _ _) hsize ?_ ?_ (by decide) (by decide) rfl rfl (by simp)
  · rw [step_outputLen (sparseHole_inactive rfl _), hfirst, hlength]
    rfl
  · rw [hsum, step_outputLen hfull, hend]
  · rw [step_outputLen (sparseHole_inactive rfl _), hsecond]

theorem polls_of_reached {B hdr : List Byte} {out : ℕ → ℕ}
    (h : HeaderReached (.whole B out) hdr) : ∃ n, PollsHeader (tarRun (.whole B out) n).decoder
      (window B (tarRun (.whole B out) n).consumed B.length) (out n) .end hdr :=
  let ⟨n, _, hp⟩ := h
  ⟨n, hp⟩

theorem not_extended_pair {last : ℕ} (hlast : 0 < last) (hdr : List Byte)
    (h : HeaderReached (.whole hollowPair (scratch last)) hdr) : ¬ isExtended hdr := by
  obtain ⟨n, h⟩ := polls_of_reached h
  obtain ⟨hfirst, hend, hsecond, -⟩ := asked_pair
  have hp := passes_pair last
  have hin : ∀ k : ℕ, k < (holding hollowPair (2 ^ 64 - 3) 1).logicalSize → ∀ input o eoi,
      0 < o → ¬ PollsHeader (reported (holding hollowPair (2 ^ 64 - 3) 1) k k) input o eoi hdr :=
    fun k hk input o eoi ho => not_pollsHeader_hollow (hollow_holding _ _ _) hk ho
  rw [logicalSize_holding] at hin
  have hfull := sparseHole_full (hollow_holding hollowPair (2 ^ 64 - 3) 1) (2 ^ 64 - 3)
    (scratch last 3)
  rw [logicalSize_holding] at hfull
  rcases n with _ | _ | _ | _ | _ | n
  · have hw : window hollowPair 0 hollowPair.length = hollowPair := by simp [window]
    rw [hp.zero] at h
    simp only [hw] at h
    obtain ⟨-, rfl⟩ := block_of_pollsHeader
      ((asked_outputLen (sparseHole_inactive rfl _)).trans hfirst) (by decide +kernel) h
    decide +kernel
  · rw [hp.one] at h
    exact absurd h (hin 0 (by decide) _ _ _ (scratch_pos hlast 1))
  · rw [hp.two] at h
    exact absurd h (hin _ (by decide) _ _ _ (scratch_pos hlast 2))
  · rw [hp.three] at h
    simp only [window_length] at h
    obtain ⟨hst, -⟩ := block_of_pollsHeader ((asked_outputLen hfull).trans hend)
      (by decide +kernel) h
    exact absurd hst (by decide +kernel)
  · rw [hp.four] at h
    simp only [window_length] at h
    obtain ⟨-, rfl⟩ := block_of_pollsHeader
      ((asked_outputLen (sparseHole_inactive rfl _)).trans hsecond) (by decide +kernel) h
    decide +kernel
  · obtain ⟨p, hlt, hd⟩ := run_inside (n := n + 5) (scratch_pos hlast)
      (hollow_holding (hollowHeader 5) 5 2) (by decide +kernel) (by decide +kernel) hp.five
      (by omega)
    rw [hd] at h
    exact absurd h (not_pollsHeader_hollow (hollow_holding _ _ _) hlt (scratch_pos hlast _))

theorem whole_ends (B : List Byte) (out : ℕ → ℕ) : (Cutting.whole B out).Ends :=
  ⟨0, fun _ _ => rfl⟩

/-- The second file is cut at its second byte with one scratch buffer, and not begun with another. -/
theorem tar_chunk_data_differ : (Cutting.whole hollowPair (scratch 1)).Scratch ∧
    (Cutting.whole hollowPair (scratch 1)).Ends ∧ (Cutting.whole hollowPair (scratch 5)).Scratch ∧
    (Cutting.whole hollowPair (scratch 5)).Ends ∧
    (∀ hdr, HeaderReached (.whole hollowPair (scratch 1)) hdr → ¬ isExtended hdr) ∧
    (∀ hdr, HeaderReached (.whole hollowPair (scratch 5)) hdr → ¬ isExtended hdr) ∧
    ∃ n₁ n₂, (tarRun (.whole hollowPair (scratch 1)) n₁).halted = true ∧
      (tarRun (.whole hollowPair (scratch 5)) n₂).halted = true ∧
      (tarRun (.whole hollowPair (scratch 1)) n₁).atoms ≠
        (tarRun (.whole hollowPair (scratch 5)) n₂).atoms := by
  refine ⟨scratch_pos (by decide), whole_ends _ _, scratch_pos (by decide), whole_ends _ _,
    not_extended_pair (by decide), not_extended_pair (by decide), 8, 6, ?_⟩
  exact differ_of_room (hollow_holding (hollowHeader 5) 5 2) (getLast_passed _) (passes_pair 1).five
    (passes_pair 5).five (by decide +kernel) rfl rfl rfl rfl (by decide) (by decide)

theorem tar_chunk_invariant_pair : ∃ n₁ n₂,
    (tarRun (.whole hollowPair (scratch 1)) n₁).halted = true ∧
      (tarRun (.whole hollowPair (scratch 5)) n₂).halted = true ∧
      SameOutcome (tarRun (.whole hollowPair (scratch 1)) n₁)
        (tarRun (.whole hollowPair (scratch 5)) n₂) :=
  tar_chunk_invariant _ _ (scratch_pos (by decide)) (whole_ends _ _) (scratch_pos (by decide))
    (whole_ends _ _) (not_extended_pair (by decide))

end LibarchiveOxide.Tar.ChunkInvariance
