import LibarchiveOxide.Lib.Slice
import LibarchiveOxide.Range.Source

/-! # The range reader

`Read` and `Seek` over an immutable source, with one cached window. A fill clears the window, moves
it to the position and then asks the provider until it is full; how many bytes the provider returned
before a fill ended is the last value of the loop's `filled`, which the model returns as well. -/

namespace LibarchiveOxide.Range.Reader

open Core.Failure Core.Budget Range.Source Lib.Slice

variable {S : Type} [ReadAt S]

/-- The answers of a provider to its calls of `read_at`: `readAt i offset buffer` is the answer to
the call number `i`, a count or whether the failure is `UnexpectedEof`, and the buffer after it.
The first bytes of a buffer with a count are those of the source; the others are arbitrary. -/
structure Provider (source : S) where
  content : List Byte
  length_content : content.length = ReadAt.len source
  readAt : ℕ → ℕ → List Byte → Except Bool ℕ × List Byte
  length_readAt : ∀ i offset buffer, (readAt i offset buffer).2.length = buffer.length
  exact_readAt : ∀ i offset buffer n, (readAt i offset buffer).1 = .ok n → n ≤ buffer.length →
    (readAt i offset buffer).2.take n = window content offset (offset + n)

/-- Exact I/O accounting. -/
structure RangeMetrics where
  requests : ℕ := 0
  transferredBytes : ℕ := 0
deriving DecidableEq

namespace RangeMetrics

/-- Counts a call of `read_at`. -/
def recordRequest (m : RangeMetrics) : Except IoError RangeMetrics :=
  match checkedAdd m.requests 1 with
  | none => .error (rangeError .metricsOverflow)
  | some n => .ok { m with requests := n }

/-- Counts the bytes returned. -/
def recordBytes (m : RangeMetrics) (bytes : ℕ) : Except IoError RangeMetrics :=
  match checkedAdd m.transferredBytes bytes with
  | none => .error (rangeError .metricsOverflow)
  | some n => .ok { m with transferredBytes := n }

end RangeMetrics

/-- The `Read + Seek` adapter. -/
structure RangeReader (S : Type) where
  source : S
  identity : List Byte
  length : ℕ
  position : ℕ := 0
  cacheOffset : ℕ := 0
  cache : List Byte := []
  cacheLimit : Option ℕ
  readAhead : ℕ
  metrics : RangeMetrics := {}
deriving DecidableEq

/-- `DEFAULT_READ_AHEAD`. -/
def defaultReadAhead : ℕ := 128 * 1024

namespace RangeReader

/-- An adapter with explicit archive and source limits. -/
def withSourceLimits (source : S) (limits : Limits) (sourceLimits : SourceLimits) :
    Except IoError (RangeReader S) :=
  match validateSourceLength (ReadAt.len source) sourceLimits none with
  | .error e => .error e
  | .ok () =>
    .ok { source := source
          identity := ReadAt.identity source
          length := ReadAt.len source
          cacheLimit := limits.metadataBytes
          readAhead := max (match limits.inFlightBytes with
            | none => defaultReadAhead
            | some limit => min limit defaultReadAhead) 1 }

/-- The source is still the captured version. -/
def validateSource (r : RangeReader S) : Except IoError Unit :=
  validateReadAtSnapshot r.source r.identity r.length

/-- The loop of `fill_cache` over a window of `length` bytes, of which `filled` are there; every
round but the last adds a byte, so `length` rounds are enough. -/
def fillLoop {source : S} (p : Provider source) (length : ℕ) :
    ℕ → RangeReader S → ℕ → Except IoError Unit × RangeReader S × ℕ
  | 0, r, filled => (.ok (), r, filled)
  | fuel + 1, r, filled =>
    if filled = length then (.ok (), r, filled)
    else
      match r.validateSource with
      | .error e => (.error e, r, filled)
      | .ok () =>
        match checkedAdd r.cacheOffset filled with
        | none => (.error (rangeErrorAt .offsetOverflow r.cacheOffset filled), r, filled)
        | some offset =>
          match r.metrics.recordRequest with
          | .error e => (.error e, r, filled)
          | .ok metrics =>
            let answer := p.readAt metrics.requests offset (r.cache.drop filled)
            let r := { r with metrics := metrics, cache := r.cache.take filled ++ answer.2 }
            match answer.1 with
            | .error true => (.error (rangeErrorAt .shortRead offset (length - filled)), r, filled)
            | .error false => (.error (.provider false), r, filled)
            | .ok read =>
              if length - filled < read then
                (.error (rangeErrorAt .invalidReadCount offset (length - filled)), r, filled)
              else if read = 0 then
                (.error (rangeErrorAt .noProgress offset (length - filled)), r, filled)
              else
                match r.metrics.recordBytes read with
                | .error e => (.error e, r, filled)
                | .ok metrics =>
                  let r := { r with metrics := metrics }
                  match r.validateSource with
                  | .error e => (.error e, r, filled + read)
                  | .ok () => fillLoop p length fuel r (filled + read)

/-- The length of the window for a request. -/
def windowLength (r : RangeReader S) (requested : ℕ) : ℕ :=
  let desired := min (max requested r.readAhead) (r.length - r.position)
  match r.cacheLimit with
  | none => desired
  | some limit => min desired (max limit requested)

/-- Refills the cache at the position. With the window cleared, the number of bytes the provider
returned comes along. -/
def fillCache {source : S} (p : Provider source) (r : RangeReader S) (requested : ℕ) :
    Except IoError Unit × RangeReader S × Option ℕ :=
  match r.validateSource with
  | .error e => (.error e, r, none)
  | .ok () =>
    if r.length ≤ r.position then
      (.error (rangeErrorAt .offsetOutOfBounds r.position requested), r, none)
    else if exceeds requested r.cacheLimit then
      (.error (.range ((({ kind := .cacheBudgetExceeded } : RangeReadError).atRange r.position
        requested).withBudget requested (r.cacheLimit.getD 0))), r, none)
    else
      let length := r.windowLength requested
      let cleared := { r with cache := List.replicate length 0, cacheOffset := r.position }
      let (result, filled, returned) := fillLoop p length length cleared 0
      (result, filled, some returned)

/-- How far into the cache a request starts, when the cache holds it. -/
def cached (r : RangeReader S) (available : ℕ) : Option ℕ :=
  if r.position < r.cacheOffset then none
  else
    match checkedAdd (r.position - r.cacheOffset) available with
    | none => none
    | some last => if last ≤ r.cache.length then some (r.position - r.cacheOffset) else none

/-- Copies `available` bytes from the cache and moves the position. -/
def deliver (r : RangeReader S) (relative available : ℕ) :
    Except IoError (List Byte) × RangeReader S :=
  match checkedAdd r.position available with
  | none => (.error (rangeErrorAt .offsetOverflow r.position available), r)
  | some position =>
    (.ok (window r.cache relative (relative + available)), { r with position := position })

/-- `Read::read` into a buffer of `requested` bytes: what it puts there, or its failure. -/
def read {source : S} (p : Provider source) (r : RangeReader S) (requested : ℕ) :
    Except IoError (List Byte) × RangeReader S × Option ℕ :=
  if requested = 0 then (.ok [], r, none)
  else
    match r.validateSource with
    | .error e => (.error e, r, none)
    | .ok () =>
      if r.position = r.length then (.ok [], r, none)
      else if r.length < r.position then
        (.error (rangeErrorAt .offsetOutOfBounds r.position requested), r, none)
      else
        let available := min (r.length - r.position) requested
        match r.cached available with
        | some relative =>
          let (result, r) := r.deliver relative available
          (result, r, none)
        | none =>
          match r.fillCache p available with
          | (.error e, r, returned) => (.error e, r, returned)
          | (.ok (), r, returned) =>
            let (result, r) := r.deliver 0 available
            (result, r, returned)

end RangeReader

/-- `std::io::SeekFrom`. -/
inductive SeekFrom where
  | start (position : ℕ)
  | current (delta : ℤ)
  | fromEnd (delta : ℤ)
deriving DecidableEq

/-- `u64::checked_add_signed`. -/
def checkedAddSigned (a : ℕ) (delta : ℤ) : Option ℕ :=
  let sum : ℤ := a + delta
  if 0 ≤ sum ∧ sum ≤ u64Max then some sum.toNat else none

namespace RangeReader

/-- `Seek::seek`. -/
def seek (r : RangeReader S) (target : SeekFrom) : Except IoError ℕ × RangeReader S :=
  match r.validateSource with
  | .error e => (.error e, r)
  | .ok () =>
    let next := match target with
      | .start position => some position
      | .current delta => checkedAddSigned r.position delta
      | .fromEnd delta => checkedAddSigned r.length delta
    match next with
    | none => (.error (rangeErrorAt .offsetOverflow r.position 0), r)
    | some next =>
      if r.length < next then (.error (rangeErrorAt .offsetOutOfBounds next 0), r)
      else (.ok next, { r with position := next })

end RangeReader

/-! ### Sessions -/

/-- A call. -/
inductive Op where
  | read (requested : ℕ)
  | seek (target : SeekFrom)

/-- What a call returned: the bytes read, the new position, or a failure. -/
inductive Outcome where
  | bytes (bs : List Byte)
  | moved (position : ℕ)
  | failed (e : IoError)
deriving DecidableEq

/-- A reader, and how many bytes the provider returned for the window in its cache. -/
structure Session (S : Type) where
  reader : RangeReader S
  returned : ℕ := 0

namespace Session

variable {source : S}

/-- One call. -/
def step (p : Provider source) (s : Session S) : Op → Outcome × Session S
  | .read requested =>
    let (result, reader, returned) := s.reader.read p requested
    (match result with
      | .ok bs => .bytes bs
      | .error e => .failed e,
      { reader := reader, returned := returned.getD s.returned })
  | .seek target =>
    let (result, reader) := s.reader.seek target
    (match result with
      | .ok position => .moved position
      | .error e => .failed e,
      { s with reader := reader })

/-- The calls of a session: the state before each, the call, and what came of it. -/
def trace (p : Provider source) : Session S → List Op → List (Session S × Op × Outcome × Session S)
  | _, [] => []
  | s, op :: ops => (s, op, s.step p op) :: trace p (s.step p op).2 ops

end Session

/-- A read is exact: the bytes it returns are those of the source at the position, which moves over
them, and a failure leaves the position. -/
def Exact (content : List Byte) : Session S × Op × Outcome × Session S → Prop
  | (_, .seek _, _, _) => True
  | (s, .read requested, .bytes bs, s') =>
    bs.length ≤ requested ∧
      bs = window content s.reader.position (s.reader.position + bs.length) ∧
      s'.reader.position = s.reader.position + bs.length
  | (s, .read _, _, s') => s'.reader.position = s.reader.position

/-- A read that the cache serves stays within the bytes the provider returned for the cached
window. -/
def Trusted (s : Session S) : Op → Prop
  | .seek _ => True
  | .read requested =>
    let available := min (s.reader.length - s.reader.position) requested
    available = 0 ∨
      ∀ relative ∈ s.reader.cached available, relative + available ≤ s.returned

instance (s : Session S) : (op : Op) → Decidable (Trusted s op)
  | .seek _ => inferInstanceAs (Decidable True)
  | .read requested => inferInstanceAs (Decidable (_ ∨ ∀ relative ∈ s.reader.cached
      (min (s.reader.length - s.reader.position) requested), _))

/-! ### One fill -/

variable {r : RangeReader S}

variable {source : S} {p : Provider source}

/-- The cache starts with the bytes of the source up to `n`. -/
def Holds (content : List Byte) (r : RangeReader S) (n : ℕ) : Prop :=
  n ≤ r.cache.length ∧ r.cache.take n = window content r.cacheOffset (r.cacheOffset + n)

/-- The reader changed in its cache and its metrics only. -/
def SameWindow (r r' : RangeReader S) : Prop :=
  r' = { r with metrics := r'.metrics, cache := r'.cache } ∧ r'.cache.length = r.cache.length

omit [ReadAt S] in
theorem SameWindow.refl (r : RangeReader S) : SameWindow r r := ⟨rfl, rfl⟩

omit [ReadAt S] in
theorem SameWindow.trans {r' r'' : RangeReader S} (h : SameWindow r r') (h' : SameWindow r' r'') :
    SameWindow r r'' := by
  refine ⟨?_, h'.2.trans h.2⟩
  rw [h'.1, h.1]

/-- The cache after an answer: what was filled stays. -/
theorem holds_of_answer {filled : ℕ} (h : Holds p.content r filled) (m : RangeMetrics)
    (i offset : ℕ) :
    SameWindow r { r with
      metrics := m
      cache := r.cache.take filled ++ (p.readAt i offset (r.cache.drop filled)).2 } ∧
    Holds p.content { r with
      metrics := m
      cache := r.cache.take filled ++ (p.readAt i offset (r.cache.drop filled)).2 } filled := by
  have hl : (r.cache.take filled).length = filled := List.length_take_of_le h.1
  have hlen : (r.cache.take filled ++ (p.readAt i offset (r.cache.drop filled)).2).length =
      r.cache.length := by
    rw [List.length_append, hl, p.length_readAt, List.length_drop]
    have := h.1
    omega
  refine ⟨⟨rfl, hlen⟩, hlen ▸ h.1, ?_⟩
  dsimp only
  rw [List.take_left' hl]
  exact h.2

/-- The cache after an answer with a count: so many bytes more are those of the source. -/
theorem holds_of_count {filled n : ℕ} (h : Holds p.content r filled) (m : RangeMetrics) {i : ℕ}
    (ha : (p.readAt i (r.cacheOffset + filled) (r.cache.drop filled)).1 = .ok n)
    (hn : n ≤ r.cache.length - filled) :
    Holds p.content { r with
      metrics := m
      cache := r.cache.take filled ++
        (p.readAt i (r.cacheOffset + filled) (r.cache.drop filled)).2 } (filled + n) := by
  have hl : (r.cache.take filled).length = filled := List.length_take_of_le h.1
  have hle := h.1
  refine ⟨?_, ?_⟩
  · dsimp only
    rw [List.length_append, hl, p.length_readAt, List.length_drop]
    omega
  · dsimp only
    have hx := p.exact_readAt _ _ _ n ha (by rw [List.length_drop]; exact hn)
    rw [List.take_append, hl, List.take_of_length_le (by omega), Nat.add_sub_cancel_left, hx, h.2,
      window_join _ (by omega) (by omega), Nat.add_assoc]

/-- **The fill loop**: however it ends, the returned count is how much of the window is there, and
the window is full when it ends well. -/
theorem fillLoop_spec : ∀ (fuel : ℕ) {r : RangeReader S} {filled : ℕ},
    Holds p.content r filled → r.cache.length - filled ≤ fuel →
    ∀ {result : Except IoError Unit} {r' : RangeReader S} {returned : ℕ},
    RangeReader.fillLoop p r.cache.length fuel r filled = (result, r', returned) →
    SameWindow r r' ∧ Holds p.content r' returned ∧
      (result = .ok () → returned = r'.cache.length)
  | 0, r, filled, h, hfuel, result, r', returned, hrun => by
    cases hrun
    have := h.1
    exact ⟨.refl r, h, fun _ => by omega⟩
  | fuel + 1, r, filled, h, hfuel, result, r', returned, hrun => by
    have hstop : ∀ {e : IoError}, (Except.error e, r, filled) = (result, r', returned) →
        SameWindow r r' ∧ Holds p.content r' returned ∧
          (result = .ok () → returned = r'.cache.length) := by
      rintro e he
      cases he
      exact ⟨.refl r, h, nofun⟩
    rw [RangeReader.fillLoop] at hrun
    split_ifs at hrun with hfull
    · cases hrun
      exact ⟨.refl r, h, fun _ => hfull⟩
    split at hrun
    · exact hstop hrun
    split at hrun
    · exact hstop hrun
    next offset hoff =>
    obtain ⟨rfl, -⟩ := checkedAdd_eq_some.mp hoff
    split at hrun
    · exact hstop hrun
    next metrics hm =>
    have hans := holds_of_answer h metrics metrics.requests (r.cacheOffset + filled)
    have hstop' : ∀ {e : IoError}, (Except.error e,
        ({ r with
            metrics := metrics
            cache := r.cache.take filled ++
              (p.readAt metrics.requests (r.cacheOffset + filled) (r.cache.drop filled)).2 } :
          RangeReader S), filled) = (result, r', returned) →
        SameWindow r r' ∧ Holds p.content r' returned ∧
          (result = .ok () → returned = r'.cache.length) := by
      rintro e he
      cases he
      exact ⟨hans.1, hans.2, nofun⟩
    dsimp only at hrun
    split at hrun
    · exact hstop' hrun
    · exact hstop' hrun
    next read ha =>
    split_ifs at hrun with hbig hzero
    · exact hstop' hrun
    · exact hstop' hrun
    split at hrun
    · exact hstop' hrun
    next metrics' hm' =>
    have hcount := holds_of_count h metrics' ha (by omega)
    split at hrun
    · cases hrun
      exact ⟨⟨rfl, hans.1.2⟩, hcount, nofun⟩
    · rw [← hans.1.2] at hrun
      obtain ⟨h1, h2, h3⟩ := fillLoop_spec fuel hcount (by
        have := hans.1.2
        dsimp only at this ⊢
        omega) hrun
      exact ⟨SameWindow.trans ⟨rfl, hans.1.2⟩ h1, h2, h3⟩

/-! ### One call -/

variable {s : Session S}

/-- What every call keeps: the captured version is the source's, the position is in the source, and
the cached window starts with the bytes that the provider returned for it. -/
structure Inv (p : Provider source) (s : Session S) : Prop where
  valid : s.reader.validateSource = .ok ()
  length : s.reader.length = p.content.length
  position : s.reader.position ≤ p.content.length
  holds : Holds p.content s.reader s.returned

theorem length_content_le (p : Provider source) : p.content.length ≤ u64Max := by
  rw [p.length_content]
  exact ReadAt.len_le source

omit [ReadAt S] in
/-- The window is long enough for the request. -/
theorem le_windowLength {requested : ℕ} (h : requested ≤ r.length - r.position) :
    requested ≤ r.windowLength requested := by
  have hd : requested ≤ min (max requested r.readAhead) (r.length - r.position) :=
    le_min (le_max_left _ _) h
  unfold RangeReader.windowLength
  cases r.cacheLimit with
  | none => exact hd
  | some limit => exact le_min hd (le_max_right _ _)

theorem fillCache_spec (h : Inv p s) {requested : ℕ}
    (hreq : requested ≤ s.reader.length - s.reader.position) {result : Except IoError Unit}
    {r' : RangeReader S} {returned : Option ℕ}
    (hrun : s.reader.fillCache p requested = (result, r', returned)) :
    Inv p { reader := r', returned := returned.getD s.returned } ∧
      r'.position = s.reader.position ∧
      (result = .ok () → r'.cacheOffset = s.reader.position ∧ returned = some r'.cache.length ∧
        requested ≤ r'.cache.length) := by
  have hstop : ∀ {e : IoError}, (Except.error e, s.reader, none) = (result, r', returned) →
      Inv p { reader := r', returned := returned.getD s.returned } ∧
      r'.position = s.reader.position ∧
      (result = .ok () → r'.cacheOffset = s.reader.position ∧ returned = some r'.cache.length ∧
        requested ≤ r'.cache.length) := by
    rintro e he
    cases he
    exact ⟨h, rfl, nofun⟩
  unfold RangeReader.fillCache at hrun
  split at hrun
  · exact hstop hrun
  split_ifs at hrun
  · exact hstop hrun
  · exact hstop hrun
  dsimp only at hrun
  set cleared : RangeReader S := { s.reader with
    cache := List.replicate (s.reader.windowLength requested) 0
    cacheOffset := s.reader.position }
  have hlen : cleared.cache.length = s.reader.windowLength requested := List.length_replicate ..
  rcases hx : RangeReader.fillLoop p (s.reader.windowLength requested)
    (s.reader.windowLength requested) cleared 0 with ⟨result', r1, n⟩
  rw [hx] at hrun
  cases hrun
  rw [← hlen] at hx
  have hzero : Holds p.content cleared 0 := ⟨Nat.zero_le _, by simp [window]⟩
  obtain ⟨hsame, hholds, hfull⟩ := fillLoop_spec _ hzero (by omega) hx
  have hr := hsame.1
  refine ⟨⟨?_, ?_, ?_, hholds⟩, ?_, fun he => ⟨?_, ?_, ?_⟩⟩
  · rw [hr]
    exact h.valid
  · rw [hr]
    exact h.length
  · rw [hr]
    exact h.position
  · rw [hr]
  · rw [hr]
  · rw [hfull he]
  · rw [hsame.2, hlen]
    exact le_windowLength hreq

omit [ReadAt S] in
/-- The bytes of a request that lies in the part of the window that is there. -/
theorem Holds.window_eq {content : List Byte} {n relative available : ℕ} (h : Holds content r n)
    (hle : relative + available ≤ n) :
    window r.cache relative (relative + available) =
      window content (r.cacheOffset + relative) (r.cacheOffset + relative + available) := by
  rw [← window_take r.cache hle, h.2, window_window content hle]

/-- Delivery from a window that holds the request. -/
theorem deliver_spec {r : RangeReader S} {n relative available : ℕ}
    (h : Holds p.content r n) (hpos : r.cacheOffset + relative = r.position)
    (hav : r.position + available ≤ p.content.length) (hle : relative + available ≤ n) :
    r.deliver relative available =
      (.ok (window p.content r.position (r.position + available)),
        { r with position := r.position + available }) := by
  have hu := length_content_le p
  rw [RangeReader.deliver, checkedAdd_of_le (by omega)]
  dsimp only
  rw [h.window_eq hle, hpos]

omit [ReadAt S] in
theorem cached_eq_some {available relative : ℕ} (h : r.cached available = some relative) :
    r.cacheOffset + relative = r.position ∧ relative + available ≤ r.cache.length := by
  unfold RangeReader.cached at h
  split_ifs at h with hlt
  split at h
  · cases h
  next last hlast =>
  obtain ⟨rfl, -⟩ := checkedAdd_eq_some.mp hlast
  split_ifs at h with hle
  cases h
  omega

/-- The position moves within the source. -/
theorem Inv.deliver (h : Inv p s) {relative available : ℕ}
    (hav : s.reader.position + available ≤ p.content.length) :
    Inv p { s with reader := (s.reader.deliver relative available).2 } := by
  have hu := length_content_le p
  rw [RangeReader.deliver, checkedAdd_of_le (by omega)]
  exact ⟨h.valid, h.length, hav, h.holds⟩

/-- A read keeps the invariant, and it is exact if it is trusted. -/
theorem read_spec (h : Inv p s) (requested : ℕ) :
    Inv p (s.step p (.read requested)).2 ∧ (Trusted s (.read requested) →
      Exact p.content (s, .read requested, s.step p (.read requested))) := by
  have hlen := h.length
  have hpos := h.position
  simp only [Session.step, RangeReader.read]
  by_cases h0 : requested = 0
  · rw [if_pos h0]
    exact ⟨h, fun _ => ⟨Nat.zero_le _, by simp [window], rfl⟩⟩
  rw [if_neg h0, h.valid]
  dsimp only
  by_cases heof : s.reader.position = s.reader.length
  · rw [if_pos heof]
    exact ⟨h, fun _ => ⟨Nat.zero_le _, by simp [window], rfl⟩⟩
  rw [if_neg heof, if_neg (by omega)]
  set available := min (s.reader.length - s.reader.position) requested with hav
  have hin : s.reader.position + available ≤ p.content.length := by omega
  cases hc : s.reader.cached available with
  | some relative =>
    dsimp only
    refine ⟨h.deliver hin, fun ht => ?_⟩
    have htrust : relative + available ≤ s.returned := by
      rcases ht with hz | ht
      · omega
      · exact ht relative hc
    rw [deliver_spec h.holds (cached_eq_some hc).1 hin htrust]
    dsimp only [Exact]
    rw [length_window_of_le hin, Nat.add_sub_cancel_left]
    exact ⟨by omega, rfl, rfl⟩
  | none =>
    dsimp only
    rcases hf : s.reader.fillCache p available with ⟨result, r', returned⟩
    obtain ⟨hinv, hp, hok⟩ := fillCache_spec h (by omega) hf
    cases result with
    | error e => exact ⟨hinv, fun _ => hp⟩
    | ok u =>
      obtain ⟨hoff, hret, hlong⟩ := hok rfl
      dsimp only
      refine ⟨hinv.deliver (by dsimp only; rw [hp]; exact hin), fun _ => ?_⟩
      have hholds := hinv.holds
      rw [hret] at hholds
      rw [@deliver_spec _ _ _ _ _ _ 0 _ hholds (by dsimp only; omega)
        (by dsimp only; rw [hp]; exact hin) (by simpa using hlong)]
      dsimp only [Exact]
      rw [hp, length_window_of_le hin, Nat.add_sub_cancel_left]
      exact ⟨by omega, rfl, rfl⟩

theorem seek_spec (h : Inv p s) (target : SeekFrom) : Inv p (s.step p (.seek target)).2 := by
  have hlen := h.length
  simp only [Session.step, RangeReader.seek]
  rw [h.valid]
  dsimp only
  generalize (match target with
    | .start position => some position
    | .current delta => checkedAddSigned s.reader.position delta
    | .fromEnd delta => checkedAddSigned s.reader.length delta) = next
  cases next with
  | none => exact h
  | some n =>
    dsimp only
    split_ifs with hout
    · exact h
    · exact ⟨h.valid, h.length, by dsimp only; omega, h.holds⟩

/-- **One call** keeps the invariant, and it is exact if it is trusted. -/
theorem step_spec (h : Inv p s) (op : Op) :
    Inv p (s.step p op).2 ∧ (Trusted s op → Exact p.content (s, op, s.step p op)) := by
  cases op with
  | read requested => exact read_spec h requested
  | seek target => exact ⟨seek_spec h target, fun _ => trivial⟩

/-! ### A session -/

/-- **Every trusted call of a session is exact.** -/
theorem trace_spec : ∀ (ops : List Op) {s : Session S}, Inv p s →
    ∀ t ∈ s.trace p ops, Trusted t.1 t.2.1 → Exact p.content t
  | [], _, _, _, ht, _ => absurd ht List.not_mem_nil
  | op :: ops, s, h, t, ht, htrust => by
    rcases List.mem_cons.mp ht with rfl | hm
    · exact (step_spec h op).2 htrust
    · exact trace_spec ops (step_spec h op).1 t hm htrust

theorem inv_new (p : Provider source) {limits : Limits} {sourceLimits : SourceLimits}
    (h : RangeReader.withSourceLimits source limits sourceLimits = .ok r) :
    Inv p { reader := r } := by
  unfold RangeReader.withSourceLimits at h
  split at h
  · cases h
  · cases h
    exact ⟨validateReadAtSnapshot_self source, p.length_content.symm, Nat.zero_le _, Nat.zero_le _,
      by simp [window]⟩

/-- **In every session with a source, whatever its provider answers, the reads are exact if those
that the cache serves stay within what the provider returned for the cached window.** -/
theorem reads_exact (p : Provider source) {limits : Limits} {sourceLimits : SourceLimits}
    {r : RangeReader S} (hnew : RangeReader.withSourceLimits source limits sourceLimits = .ok r)
    (ops : List Op) (htrust : ∀ t ∈ Session.trace p { reader := r } ops, Trusted t.1 t.2.1) :
    ∀ t ∈ Session.trace p { reader := r } ops, Exact p.content t :=
  fun t ht => trace_spec ops (inv_new p hnew) t ht (htrust t ht)

/-! ### A source in memory that fails now and then -/

/-- `MemoryReadAt::read_at`. -/
def memoryReadAt (bytes : List Byte) (offset : ℕ) (buffer : List Byte) :
    Except Bool ℕ × List Byte :=
  if bytes.length < offset then (.error false, buffer)
  else
    let count := min (bytes.length - offset) buffer.length
    (.ok count, window bytes offset (offset + count) ++ buffer.drop count)

/-- The in-memory source, where some calls fail before they touch the buffer. -/
def flaky (m : MemoryReadAt) (h : m.bytes.length ≤ u64Max) (fails : ℕ → Bool) : Provider m where
  content := m.bytes
  length_content := (min_eq_left h).symm
  readAt i offset buffer :=
    if fails i then (.error false, buffer) else memoryReadAt m.bytes offset buffer
  length_readAt i offset buffer := by
    unfold memoryReadAt
    split_ifs with hf ho
    · rfl
    · rfl
    · rw [List.length_append, length_window_of_le (by omega), List.length_drop]
      omega
  exact_readAt i offset buffer n hn hle := by
    unfold memoryReadAt at hn ⊢
    split_ifs at hn ⊢ with hf ho
    injection hn with hn
    subst hn
    rw [List.take_left' (by rw [length_window_of_le (by omega)]; omega)]

/-- A source of two bytes whose first call fails: the reads after the failure start in front of the
window that was left in the cache, or fill it again. -/
theorem reads_exact_twoBytes :
    RangeReader.withSourceLimits (⟨[7, 8], [1]⟩ : MemoryReadAt) .safe .safe =
        .ok ⟨⟨[7, 8], [1]⟩, [1], 2, 0, 0, [], some (64 * 1024 * 1024), 128 * 1024, {}⟩ ∧
      (Session.trace (flaky ⟨[7, 8], [1]⟩ (by decide) (· = 1))
        { reader := ⟨⟨[7, 8], [1]⟩, [1], 2, 0, 0, [], some (64 * 1024 * 1024), 128 * 1024, {}⟩ }
        [.seek (.start 1), .read 1, .seek (.start 0), .read 2, .seek (.current (-1)), .read 5]).map
          (fun t => t.2.2.1) =
        [.moved 1, .failed (.provider false), .moved 0, .bytes [7, 8], .moved 1, .bytes [8]] ∧
      ∀ t ∈ Session.trace (flaky ⟨[7, 8], [1]⟩ (by decide) (· = 1))
        { reader := ⟨⟨[7, 8], [1]⟩, [1], 2, 0, 0, [], some (64 * 1024 * 1024), 128 * 1024, {}⟩ }
        [.seek (.start 1), .read 1, .seek (.start 0), .read 2, .seek (.current (-1)), .read 5],
        Exact [7, 8] t :=
  ⟨rfl, by decide, @reads_exact _ _ _ (flaky ⟨[7, 8], [1]⟩ (by decide) (· = 1)) .safe .safe _ rfl
    _ (by decide)⟩

/-- The source holds one byte, `1`. Its first call fails; the second read finds the cleared window
in the cache and returns the zero in it. -/
theorem not_exact_after_failure :
    RangeReader.withSourceLimits (⟨[1], [1]⟩ : MemoryReadAt) .safe .safe =
        .ok ⟨⟨[1], [1]⟩, [1], 1, 0, 0, [], some (64 * 1024 * 1024), 128 * 1024, {}⟩ ∧
      (Session.trace (flaky ⟨[1], [1]⟩ (by decide) (· = 1))
        { reader := ⟨⟨[1], [1]⟩, [1], 1, 0, 0, [], some (64 * 1024 * 1024), 128 * 1024, {}⟩ }
        [.read 1, .read 1]).map (fun t => t.2.2.1) =
          [.failed (.provider false), .bytes [0]] ∧
      ¬ ∀ t ∈ Session.trace (flaky ⟨[1], [1]⟩ (by decide) (· = 1))
        { reader := ⟨⟨[1], [1]⟩, [1], 1, 0, 0, [], some (64 * 1024 * 1024), 128 * 1024, {}⟩ }
        [.read 1, .read 1], Exact [1] t := by
  refine ⟨rfl, by decide, fun h => ?_⟩
  have h2 := (h _ (List.mem_cons_of_mem _ List.mem_cons_self)).2.1
  revert h2
  decide

end LibarchiveOxide.Range.Reader
