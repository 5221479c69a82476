import LibarchiveOxide.Tar.DecoderLemmas
import LibarchiveOxide.Tar.Stream

/-! # The tar decoder cannot idle

The rank of a decoder weighs the buffered bytes above everything else: reading any of them pays for
a new entry with holes of up to `2^64 - 1` bytes. A step that consumes no input lowers the rank. -/

namespace LibarchiveOxide.Tar.Idle

open Core.Failure Core.Metadata Core.Protocol Core.Drive Lib.Result Tar.Header Tar.Source
open Tar.Source.TarSource Tar.Decoder Tar.Decoder.TarDecoder

/-! ### The source -/

variable {ev : TarSourceEvent}

/-- What a buffered byte is worth. -/
def unit : ℕ := 2 ^ 66

/-- What a state of the source still has to report or to leave. -/
def weight (s : TarSource) : ℕ :=
  (match s.state with
    | .record .. => 3
    | .payload .. => 2
    | _ => 0) + if s.globalChanged then 1 else 0

/-- The rank of a source. -/
def sourceRank (s : TarSource) : ℕ := s.available * unit + weight s

theorem weight_le (s : TarSource) : weight s ≤ 4 := by
  unfold weight
  split <;> split <;> decide

variable {s s' : TarSource}

theorem sourceRank_lt_of_available (h : s'.available < s.available) :
    sourceRank s' < sourceRank s := by
  have hw := weight_le s'
  have h1 : (s'.available + 1) * unit ≤ s.available * unit := Nat.mul_le_mul_right _ h
  have hu : unit = 2 ^ 66 := rfl
  unfold sourceRank
  rw [Nat.add_mul] at h1
  omega

theorem sourceRank_lt_of_polled (h : Polled s .again s') : sourceRank s' < sourceRank s := by
  cases h with
  | record _ _ _ hs ha =>
    exact sourceRank_lt_of_available (by simp only [available, BLOCK] at *; omega)
  | extended _ _ _ hs ha =>
    exact sourceRank_lt_of_available (by simp only [available, BLOCK] at *; omega)
  | recordData _ _ _ n hs hn =>
    exact sourceRank_lt_of_available (by simp only [available] at *; omega)
  | recordPad _ _ n hs hn =>
    exact sourceRank_lt_of_available (by simp only [available] at *; omega)
  | recordEnd _ _ _ hs =>
    simp only [sourceRank, available, weight, hs]
    split <;> split <;> omega
  | extension _ _ _ hs ha =>
    exact sourceRank_lt_of_available (by simp only [available, BLOCK] at *; omega)
  | payloadPad _ n hs hn =>
    exact sourceRank_lt_of_available (by simp only [available] at *; omega)

theorem available_le_of_polled (h : Polled s .again s') : s'.available ≤ s.available := by
  cases h <;> simp only [available] <;> omega

theorem silent_rank (h : Silent s s') :
    sourceRank s' ≤ sourceRank s ∧ s'.available ≤ s.available := by
  refine h.invariant (P := fun s' => sourceRank s' ≤ sourceRank s ∧ s'.available ≤ s.available)
    ⟨le_rfl, le_rfl⟩ ?_
  intro s1 s2 _ hp h
  exact ⟨(sourceRank_lt_of_polled hp).le.trans h.1, (available_le_of_polled hp).trans h.2⟩

/-- What each answer of the source costs it. -/
def Costs (s s' : TarSource) : TarSourceEvent → Prop
  | .needInput => sourceRank s' ≤ sourceRank s
  | .archiveMetadata _ => sourceRank s' < sourceRank s
  | .entry .. => s'.available < s.available
  | .data _ => s'.available < s.available
  | .endEntry => sourceRank s' < sourceRank s
  | .done => True

theorem answered_costs (h : Answered s ev s') : Costs s s' ev := by
  cases h with
  | globalMetadata hg =>
    simp only [Costs, sourceRank, weight, hg, available]
    split <;> simp
  | needInput => exact le_rfl
  | done => trivial
  | entry hg hp =>
    cases hp with
    | entry _ _ _ hs ha => simp only [Costs, available, BLOCK] at *; omega
    | lastExtension _ _ _ hs ha => simp only [Costs, available, BLOCK] at *; omega
  | data hg _ _ n hs hn hpos => simp only [Costs, available] at *; omega
  | endEntry hg hs => simp only [Costs, sourceRank, weight, hs, available]; omega

theorem sourceRank_compact (s : TarSource) : sourceRank s.compact = sourceRank s := by
  simp only [sourceRank, available, compact, List.length_drop, Nat.sub_zero]
  rfl

theorem available_compact (s : TarSource) : s.compact.available = s.available := by
  simp only [available, compact, List.length_drop, Nat.sub_zero]

theorem pull_costs (h : s.pull = .ok (ev, s')) : Costs s s' ev := by
  obtain ⟨s1, hs, ha⟩ := answered_of_pull h
  obtain ⟨hr, hav⟩ := silent_rank hs
  have hc := answered_costs ha
  rw [sourceRank_compact] at hr
  rw [available_compact] at hav
  cases ev with
  | needInput => exact le_trans hc hr
  | archiveMetadata m => exact lt_of_lt_of_le hc hr
  | entry => exact lt_of_lt_of_le hc hav
  | data => exact lt_of_lt_of_le hc hav
  | endEntry => exact lt_of_lt_of_le hc hr
  | done => trivial

/-! ### The decoder -/

/-- The logical size is a `u64`, and the extents of a sparse entry end inside it. -/
structure Sized (d : TarDecoder) : Prop where
  size_le : d.logicalSize ≤ u64Max
  end_le : d.sparseActive = true → ∀ e ∈ d.sparse, e.end ≤ d.logicalSize

/-- The logical bytes of the open sparse entry that are left. -/
def sparseLeft (d : TarDecoder) : ℕ := if d.sparseActive then d.logicalSize - d.logicalPosition else 0

/-- The rank of a decoder. -/
def rank (d : TarDecoder) : ℕ :=
  sourceRank d.source + sparseLeft d + if d.needsInput then 0 else 1

theorem sparseLeft_le {d : TarDecoder} (h : Sized d) : sparseLeft d ≤ u64Max := by
  have := h.size_le
  unfold sparseLeft
  split <;> omega

theorem rank_lt_of_available {d d' : TarDecoder} (hs : Sized d')
    (h : d'.source.available < d.source.available) : rank d' < rank d := by
  have hw := weight_le d'.source
  have hl := sparseLeft_le hs
  have h1 : (d'.source.available + 1) * unit ≤ d.source.available * unit :=
    Nat.mul_le_mul_right _ h
  have hu : unit = 2 ^ 66 := rfl
  have hm : u64Max = 2 ^ 64 - 1 := rfl
  rw [Nat.add_mul] at h1
  unfold rank sourceRank
  split <;> split <;> omega

theorem sized_of_opens {d : TarDecoder} {source : TarSource} {m : EntryMetadata}
    {sparse : List SparseExtent} {isSparse : Bool} {size : UInt64} {remaining : ℕ}
    (ho : Opens source m sparse isSparse size remaining) (hs : d.sparse = sparse)
    (ha : d.sparseActive = isSparse)
    (hl : d.logicalSize = (m.size.map UInt64.toNat).getD 0) : Sized d := by
  rw [ho.size_eq] at hl
  refine ⟨?_, fun hact => ?_⟩
  · have h1 := size.toNat_lt
    have hm : u64Max = 2 ^ 64 - 1 := rfl
    simp only [Option.map_some, Option.getD_some] at hl
    omega
  · rw [hs, hl]
    exact (Stream.validateSparseExtents_ok (ho.valid (ha ▸ hact))).1.end_le

/-- What a step leaves of the invariant and the rank, once the source has answered. -/
theorem handle_rank {d d' : TarDecoder} {source : TarSource} {event : DecodeEvent} (hs : Sized d)
    (hp : d.source.pull = .ok (ev, source))
    (h : ({ d with source } : TarDecoder).handle ev = .ok (event, d')) :
    Sized d' ∧ (event = .done ∨ rank d' < rank d ∨
      (event = .needInput ∧ d.inputFinished = false ∧ d.needsInput = true)) := by
  have hc := pull_costs hp
  cases ev with
  | needInput =>
    unfold handle at h
    dsimp only at h
    split_ifs at h with hf
    cases h
    refine ⟨⟨hs.size_le, hs.end_le⟩, ?_⟩
    by_cases hn : d.needsInput = true
    · exact .inr (.inr ⟨rfl, by simpa using hf, hn⟩)
    · refine .inr (.inl ?_)
      have hc' : sourceRank source ≤ sourceRank d.source := hc
      simp only [rank, sparseLeft, hn, if_true, Bool.false_eq_true, if_false]
      omega
  | archiveMetadata m =>
    cases h
    refine ⟨⟨hs.size_le, hs.end_le⟩, .inr (.inl ?_)⟩
    have hc' : sourceRank source < sourceRank d.source := hc
    simp only [rank, sparseLeft]
    omega
  | entry m sparse isSparse =>
    obtain ⟨d1, h1, h⟩ := bind_eq_ok.mp h
    cases h
    obtain ⟨s1, -, ha⟩ := answered_of_pull hp
    obtain ⟨-, -, -, metadataBytes, rfl⟩ := beginEntry_ok h1
    cases ha with
    | entry _ _ ho =>
      have hsz := sized_of_opens (d := { d with
        source, entries := d.entries + 1, metadataBytes, entryBytes := 0
        sparseActive := isSparse, sparse, sparseIndex := 0, logicalPosition := 0
        logicalSize := (m.size.map UInt64.toNat).getD 0 }) ho rfl rfl rfl
      exact ⟨hsz, .inr (.inl (rank_lt_of_available hsz hc))⟩
  | data bytes =>
    obtain ⟨d1, h1, h⟩ := bind_eq_ok.mp h
    obtain ⟨d2, h2, h⟩ := bind_eq_ok.mp h
    cases h
    rw [advanceSparse_ok h1] at h2
    obtain ⟨-, rfl⟩ := accountData_ok h2
    have hsz : Sized (({ d with
        source
        logicalPosition := if d.sparseActive then d.logicalPosition + bytes.length
          else d.logicalPosition } : TarDecoder).charged bytes.length) := ⟨hs.size_le, hs.end_le⟩
    exact ⟨hsz, .inr (.inl (rank_lt_of_available hsz hc))⟩
  | endEntry =>
    unfold handle at h
    dsimp only at h
    split_ifs at h with hf
    cases h
    refine ⟨⟨hs.size_le, nofun⟩, .inr (.inl ?_)⟩
    have hc' : sourceRank source < sourceRank d.source := hc
    simp only [rank, sparseLeft, Bool.false_eq_true, if_false]
    omega
  | done => cases h; exact ⟨⟨hs.size_le, hs.end_le⟩, .inl rfl⟩

theorem nextStored_le {d : TarDecoder} (hs : Sized d) (ha : d.sparseActive = true) :
    d.nextStored ≤ d.logicalSize := by
  unfold nextStored
  cases he : d.sparse[skipFinished d.sparse d.sparseIndex d.logicalPosition]? with
  | none => exact le_rfl
  | some e =>
    have h1 := hs.end_le ha e (List.mem_of_getElem? he)
    have h2 : e.offset ≤ e.end := Nat.le_add_right _ _
    exact h2.trans h1

/-- **The tar decoder cannot idle.** -/
theorem tar_progress : Progress TarDecoder.step Sized rank where
  inv := by
    intro d input outputLen eoi st d' hs h
    cases stepped_of_step h with
    | finished => exact hs
    | hole _ hh =>
      obtain ⟨-, -, _, ⟨-, -, rfl⟩ | ⟨_, -, -, -, -, -, rfl⟩⟩ := sparseHole_some hh
      · exact ⟨hs.size_le, hs.end_le⟩
      · exact ⟨hs.size_le, hs.end_le⟩
    | asked _ ha hp hh =>
      obtain ⟨index, limit, fin, ifin, ni, hd1⟩ := ha.frame
      have hs1 := hd1 ▸ (⟨hs.size_le, hs.end_le⟩ : Sized { d with
        sparseIndex := index, inputFinished := ifin, needsInput := ni
        source := { d.source with
          payloadChunkLimit := limit, buf := d.source.buf ++ input.take _, finished := fin } })
      exact (handle_rank hs1 hp hh).1
  consumed_le := step_consumed_le
  decreases := by
    intro d input outputLen eoi st d' hs hout hin h
    cases stepped_of_step h with
    | finished => exact .inl rfl
    | hole _ hh =>
      obtain ⟨ha, hlt, _, ⟨h0, -, -⟩ | ⟨n, hpos, -, hle, -, -, rfl⟩⟩ := sparseHole_some hh
      · omega
      · right; right
        have h1 := nextStored_le hs ha
        have h2 := hs.size_le
        have hm : u64Max = 2 ^ 64 - 1 := rfl
        have hmod : (d.logicalPosition + n) % 2 ^ 64 = d.logicalPosition + n :=
          Nat.mod_eq_of_lt (by omega)
        simp only [rank, sparseLeft, charged, ha, hmod, if_true]
        omega
    | @asked _ k d1 _ _ _ _ ha hp hh =>
      rcases Nat.eq_zero_or_pos k with rfl | hk
      · obtain ⟨index, limit, fin, ifin, ni, hd1⟩ := ha.frame
        have hs1 : Sized d1 := by rw [hd1]; exact ⟨hs.size_le, hs.end_le⟩
        have hni := ha.needsInput
        simp only [beq_self_eq_true, Bool.and_true] at hni
        have hrank : rank d1 = rank d := by
          have hni' : d1.needsInput = ni := by rw [hd1]
          rw [hd1]
          simp only [rank, sparseLeft, sourceRank, available, List.take_zero, List.append_nil,
            ← hni', hni]
          rfl
        obtain ⟨-, h1 | h1 | ⟨-, hf, hn⟩⟩ := handle_rank hs1 hp hh
        · exact .inl h1
        · exact .inr (.inr (lt_of_lt_of_eq h1 hrank))
        · exfalso
          have hi : input = [] := by
            by_contra hne
            exact absurd (ha.fed (hni ▸ hn) hne) (lt_irrefl 0)
          have he : eoi = .end := hin.resolve_left fun h => h hi
          have := ha.ended he (by rw [hi]; rfl)
          rw [hf] at this
          cases this
      · exact .inr (.inl hk)

end LibarchiveOxide.Tar.Idle

/-! # The place of the decoder in a sparse entry

The logical position and the extents that are left determine the plan of the bytes to come. A hole
and a data window move the position along that plan. -/

namespace LibarchiveOxide.Tar.Plans

open Core.Failure Core.Metadata Core.Protocol Lib.Result Tar.Header Tar.Source Tar.Stream
open Tar.Decoder Tar.Decoder.TarDecoder

/-! ### Plans and positions -/

variable {n : ℕ} {es : List SparseExtent}

/-- Where the next stored byte is. -/
def nextData (logicalSize : ℕ) (es : List SparseExtent) : ℕ :=
  (es.head?.map (·.offset)).getD logicalSize

theorem planFrom_hole {p k : ℕ} (h : p + k ≤ nextData n es) :
    planFrom n p es = List.replicate k false ++ planFrom n (p + k) es := by
  cases es with
  | nil =>
    simp only [nextData, List.head?_nil, Option.map_none, Option.getD_none] at h
    simp only [planFrom]
    rw [show n - p = k + (n - (p + k)) by omega, List.replicate_add]
  | cons e es =>
    simp only [nextData, List.head?_cons, Option.map_some, Option.getD_some] at h
    simp only [planFrom]
    rw [show e.offset - p = k + (e.offset - (p + k)) by omega, List.replicate_add,
      show max p e.offset = max (p + k) e.offset by omega]
    simp only [List.append_assoc]

theorem planFrom_data {p k : ℕ} {e : SparseExtent} (ho : e.offset ≤ p) (h : p + k ≤ e.end) :
    planFrom n p (e :: es) = List.replicate k true ++ planFrom n (p + k) (e :: es) := by
  simp only [planFrom]
  rw [show e.offset - p = 0 by omega, show e.offset - (p + k) = 0 by omega,
    show e.end - max p e.offset = k + (e.end - max (p + k) e.offset) by omega, List.replicate_add]
  simp only [List.replicate_zero, List.nil_append, List.append_assoc]

theorem Fits.advance {p k : ℕ} (h : Fits n p es)
    (hk : p + k ≤ match es with | [] => n | e :: _ => e.end) : Fits n (p + k) es := by
  cases es with
  | nil => exact hk
  | cons e es => exact ⟨hk, h.2⟩

theorem drop_skipFinished (sparse : List SparseExtent) (i p : ℕ) :
    sparse.drop (skipFinished sparse i p) = (sparse.drop i).dropWhile fun e => p == e.end := by
  rw [skipFinished, ← List.drop_drop]
  generalize sparse.drop i = l
  induction l with
  | nil => rfl
  | cons e l ih =>
    rw [List.takeWhile_cons, List.dropWhile_cons]
    split_ifs
    · simpa using ih
    · rfl

/-- Extents that end at the position do not matter. -/
theorem planFrom_dropWhile {n p : ℕ} : ∀ {es : List SparseExtent}, Fits n p es →
    planFrom n p (es.dropWhile fun e => p == e.end) = planFrom n p es ∧
      Fits n p (es.dropWhile fun e => p == e.end)
  | [], h => ⟨rfl, h⟩
  | e :: es, h => by
    rw [List.dropWhile_cons]
    split_ifs with he
    · obtain rfl : p = e.end := by simpa using he
      obtain ⟨h1, h2⟩ := planFrom_dropWhile h.2.fits
      exact ⟨h1.trans (planFrom_cons_of_end es).symm, h2⟩
    · exact ⟨rfl, h⟩

theorem head_dropWhile_end {p : ℕ} {e : SparseExtent} {r : List SparseExtent}
    (h : (es.dropWhile fun e => p == e.end) = e :: r) : p ≠ e.end := by
  have hne : (es.dropWhile fun e => p == e.end) ≠ [] := by simp [h]
  have := List.head_dropWhile_not (fun e : SparseExtent => p == e.end) hne
  simpa [h] using this

/-! ### The decoder -/

variable {d d' : TarDecoder}

/-- The decoder past the extents that end at its position. -/
def settle (d : TarDecoder) : TarDecoder :=
  { d with sparseIndex := skipFinished d.sparse d.sparseIndex d.logicalPosition }

/-- `sparseHole` in terms of the extents left. -/
theorem sparseHole_active (ha : d.sparseActive = true) (outputLen : ℕ) :
    d.sparseHole outputLen =
      if d.logicalPosition < nextData d.logicalSize ((settle d).sparse.drop (settle d).sparseIndex)
      then if outputLen = 0 then .ok (some ⟨0, 0, .needOutput⟩, settle d)
        else do
          let count := min (nextData d.logicalSize
            ((settle d).sparse.drop (settle d).sparseIndex) - d.logicalPosition) outputLen
          let d ← ({ settle d with logicalPosition := (d.logicalPosition + count) % 2 ^ 64 } :
            TarDecoder).accountData count
          return (some ⟨0, count, .data (List.replicate count 0)⟩, d)
      else match (settle d).sparse[(settle d).sparseIndex]? with
        | some e => .ok (none, (settle d).setChunkLimit (e.end - d.logicalPosition))
        | none => .ok (none, (settle d).setChunkLimit u64Max) := by
  rw [sparseHole, if_neg (by simp [ha])]
  simp only [nextData, List.head?_drop]
  rfl

/-- The plan of the logical bytes that are left. -/
def planLeft (d : TarDecoder) : List Bool :=
  planFrom d.logicalSize d.logicalPosition (d.sparse.drop d.sparseIndex)

/-- The position of an open sparse entry fits the extents that are left. -/
structure InPlace (d : TarDecoder) : Prop where
  fits : Fits d.logicalSize d.logicalPosition (d.sparse.drop d.sparseIndex)
  size_le : d.logicalSize ≤ u64Max

theorem InPlace.length_planLeft (h : InPlace d) :
    (planLeft d).length = d.logicalSize - d.logicalPosition := length_planFrom h.fits

theorem InPlace.settled (h : InPlace d) : InPlace (settle d) ∧ planLeft (settle d) = planLeft d := by
  obtain ⟨h1, h2⟩ := planFrom_dropWhile h.fits
  rw [← drop_skipFinished] at h1 h2
  exact ⟨⟨h2, h.size_le⟩, h1⟩

/-- The decoder `n` logical bytes further. -/
def moved (d : TarDecoder) (n : ℕ) : TarDecoder := { d with logicalPosition := d.logicalPosition + n }

/-- A hole in front. -/
theorem InPlace.hole (h : InPlace d)
    (hn : d.logicalPosition + n ≤ nextData d.logicalSize (d.sparse.drop d.sparseIndex)) :
    InPlace (moved d n) ∧ planLeft d = List.replicate n false ++ planLeft (moved d n) := by
  have hf := h.fits
  have hfit : Fits d.logicalSize (d.logicalPosition + n) (d.sparse.drop d.sparseIndex) := by
    cases he : d.sparse.drop d.sparseIndex with
    | nil => rw [he] at hn; exact hn
    | cons e r =>
      rw [he] at hn hf
      exact ⟨hn.trans (Nat.le_add_right _ _), hf.2⟩
  exact ⟨⟨hfit, h.size_le⟩, planFrom_hole hn⟩

/-- The window the source may be asked for: the rest of the current extent, or nothing is left. -/
structure Window (d : TarDecoder) (limit : ℕ) : Prop where
  pos : 0 < limit
  inExtent : planLeft d = [] ∨ ∃ e r, d.sparse.drop d.sparseIndex = e :: r ∧
    e.offset ≤ d.logicalPosition ∧ d.logicalPosition + limit = e.end

/-- **What `sparseHole` does** in an open sparse entry: it fills a part of the hole in front, or
prepares a window. -/
theorem sparseHole_inPlace (h : InPlace d) (ha : d.sparseActive = true) (outputLen : ℕ) :
    (outputLen = 0 ∧ d.sparseHole outputLen = .ok (some ⟨0, 0, .needOutput⟩, settle d)) ∨
    (∃ n, 0 < n ∧ InPlace (moved (settle d) n) ∧
      planLeft d = List.replicate n false ++ planLeft (moved (settle d) n) ∧
      d.sparseHole outputLen = do
        let d ← (moved (settle d) n).accountData n
        return (some ⟨0, n, .data (List.replicate n 0)⟩, d)) ∨
    ∃ limit, Window (settle d) limit ∧
      d.sparseHole outputLen = .ok (none, (settle d).setChunkLimit limit) := by
  obtain ⟨hs, hplan⟩ := h.settled
  have hne : ∀ e r, (settle d).sparse.drop (settle d).sparseIndex = e :: r →
      d.logicalPosition ≠ e.end := fun e r he =>
    head_dropWhile_end ((drop_skipFinished _ _ _).symm.trans he)
  rw [sparseHole_active ha]
  split_ifs with h1 h2
  · exact .inl ⟨h2, rfl⟩
  · set n := min (nextData d.logicalSize ((settle d).sparse.drop (settle d).sparseIndex) -
      d.logicalPosition) outputLen with hn
    obtain ⟨hm, hp⟩ := hs.hole (n := n) (by
      change d.logicalPosition + n ≤ nextData d.logicalSize _
      omega)
    have hmod : (d.logicalPosition + n) % 2 ^ 64 = d.logicalPosition + n := by
      have h3 : d.logicalPosition + n ≤ d.logicalSize := hm.fits.le
      have h4 := h.size_le
      unfold u64Max at h4
      exact Nat.mod_eq_of_lt (by omega)
    refine .inr (.inl ⟨n, by omega, hm, hplan.symm.trans hp, ?_⟩)
    simp only [hmod]
    rfl
  · refine .inr (.inr ?_)
    cases he : (settle d).sparse.drop (settle d).sparseIndex with
    | nil =>
      rw [he] at h1
      refine ⟨u64Max, ⟨by decide, .inl ?_⟩, ?_⟩
      · rw [planLeft, he]
        simpa [planFrom, nextData, Nat.sub_eq_zero_iff_le, settle] using h1
      · rw [← List.head?_drop, he]
        rfl
    | cons e r =>
      have hpos : d.logicalPosition ≤ e.end := by
        have := hs.fits
        rw [he] at this
        exact this.1
      have hlt := lt_of_le_of_ne hpos (hne e r he)
      rw [he] at h1
      refine ⟨e.end - d.logicalPosition, ⟨by omega, .inr ⟨e, r, he, ?_, ?_⟩⟩, ?_⟩
      · exact not_lt.mp h1
      · exact Nat.add_sub_of_le hpos
      · rw [← List.head?_drop, he]
        rfl

/-- A data window inside the current extent. -/
theorem InPlace.data {n : ℕ} {e : SparseExtent} {r : List SparseExtent} (h : InPlace d)
    (he : d.sparse.drop d.sparseIndex = e :: r) (ho : e.offset ≤ d.logicalPosition)
    (hn : d.logicalPosition + n ≤ e.end) :
    InPlace (moved d n) ∧ planLeft d = List.replicate n true ++ planLeft (moved d n) := by
  have hf := h.fits
  have hplan : planFrom d.logicalSize d.logicalPosition (e :: r) = List.replicate n true ++
      planFrom d.logicalSize (d.logicalPosition + n) (e :: r) := planFrom_data ho hn
  rw [he] at hf
  rw [← he] at hplan
  refine ⟨⟨?_, h.size_le⟩, hplan⟩
  change Fits d.logicalSize (d.logicalPosition + n) (d.sparse.drop d.sparseIndex)
  rw [he]
  exact ⟨hn, hf.2⟩

/-- A data window that was accepted lies inside the current extent. -/
theorem InPlace.of_advanceSparse (h : InPlace d) (ha : d.sparseActive = true)
    (hadv : d.advanceSparse n = .ok d') : InPlace d' := by
  rw [advanceSparse_ok hadv, if_pos ha]
  unfold advanceSparse at hadv
  rw [if_neg (by simp [ha])] at hadv
  obtain ⟨e, he, hadv⟩ := bind_eq_ok.mp hadv
  obtain ⟨next, hnext, hadv⟩ := bind_eq_ok.mp hadv
  obtain ⟨rfl, -⟩ := checkedAdd_eq_some.mp (okOr_eq_ok.mp hnext)
  obtain ⟨hin, -⟩ := guard_eq_ok.mp hadv
  rw [not_or, not_lt, not_lt] at hin
  have hd : d.sparse.drop d.sparseIndex = e :: d.sparse.drop (d.sparseIndex + 1) := by
    have := okOr_eq_ok.mp he
    obtain ⟨hlt, rfl⟩ := List.getElem?_eq_some_iff.mp this
    exact List.drop_eq_getElem_cons hlt
  exact (h.data hd hin.1 hin.2).1

end LibarchiveOxide.Tar.Plans
