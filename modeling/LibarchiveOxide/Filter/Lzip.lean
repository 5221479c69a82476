import LibarchiveOxide.Codecs.Crc
import LibarchiveOxide.Core.Failure
import LibarchiveOxide.Filter.Worker
import LibarchiveOxide.Lib.Radix
import LibarchiveOxide.Lib.Slice

/-! # The lzip worker

`decode_worker` over a queue that all messages of the input are in: when they arrive, and what the
worker sends to ask for them, does not matter to what it decodes. The LZMA reader is a parameter that
fetches bytes from the pipe as it likes (`Fetching`). Members have fewer than 2^64 bytes, so that the
count of what was fetched does not overflow. -/

namespace LibarchiveOxide.Filter.Lzip

open Core.Failure Core.Budget Codecs.Crc Lib.LittleEndian Lib.Slice Filter.Worker

/-- `BUFFER`. -/
def buffer : ℕ := 64 * 1024

/-- `MAX_STAGED`. -/
def maxStaged : ℕ := buffer

/-- `HEADER_SIZE`. -/
def headerSize : ℕ := 6

/-- `TRAILER_SIZE`. -/
def trailerSize : ℕ := 20

/-- `LZIP_MAGIC`. -/
def lzipMagic : List Byte := [0x4c, 0x5a, 0x49, 0x50]

/-- `LZIP_VERSION`. -/
def lzipVersion : Byte := 1

/-- `MIN_DICTIONARY`. -/
def minDictionary : ℕ := 4 * 1024

/-- `MAX_DICTIONARY`. -/
def maxDictionary : ℕ := 512 * 1024 * 1024

/-- `invalid_data`. -/
def invalidData (context : String) : IoError := ⟨false, context⟩

/-- `out_of_memory`. -/
def outOfMemory (context : String) : IoError := ⟨true, context⟩

/-! ### The pipe -/

/-- `InputPipe`: `current` is what is left of the last message. A read from `read_ahead` returns only
what lies in one piece: the `i`-th of them at most `front i + 1` bytes. -/
structure InputPipe where
  queue : List InputMessage
  front : ℕ → ℕ
  reads : ℕ := 0
  readAhead : List Byte := []
  current : List Byte := []
  endReceived : Bool := false
  eofRead : Bool := false

/-- `restore_read_ahead`. -/
def InputPipe.restoreReadAhead (p : InputPipe) (bytes : List Byte) : Except IoError InputPipe :=
  if maxStaged < p.readAhead.length + bytes.length then
    .error (outOfMemory "lzip read-ahead exceeds the staging limit")
  else .ok { p with readAhead := bytes ++ p.readAhead }

/-- So many bytes of the messages, what is left of the last one, the messages behind it, and whether
the end has come. -/
def takeMessages : List InputMessage → ℕ → List Byte × List Byte × List InputMessage × Bool
  | [], _ => ([], [], [], true)
  | .finish :: queue, _ => ([], [], queue, true)
  | .data bytes :: queue, n =>
    if n ≤ bytes.length then (bytes.take n, bytes.drop n, queue, false)
    else
      let (more, current, queue, ended) := takeMessages queue (n - bytes.length)
      (bytes ++ more, current, queue, ended)

/-- `read` into a buffer of this length. -/
def InputPipe.read (p : InputPipe) (n : ℕ) : List Byte × InputPipe :=
  if n = 0 then ([], p)
  else if p.readAhead ≠ [] then
    let count := min n (p.front p.reads + 1)
    (p.readAhead.take count,
      { p with readAhead := p.readAhead.drop count, reads := p.reads + 1 })
  else if n ≤ p.current.length then
    (p.current.take n, { p with current := p.current.drop n })
  else if p.endReceived then
    (p.current, { p with current := [], eofRead := p.eofRead || decide (p.current = []) })
  else
    let (bytes, current, queue, ended) := takeMessages p.queue (n - p.current.length)
    (p.current ++ bytes, { p with
      current := current
      queue := queue
      endReceived := ended
      eofRead := p.eofRead || (ended && decide (p.current ++ bytes = [])) })

/-- `read_exact`, with a round for each byte; `none` is an unexpected end. -/
def InputPipe.readExact : ℕ → InputPipe → ℕ → Option (List Byte × InputPipe)
  | _, p, 0 => some ([], p)
  | 0, _, _ + 1 => none
  | rounds + 1, p, n + 1 =>
    let (bytes, p) := p.read (n + 1)
    if bytes = [] then none
    else (InputPipe.readExact rounds p (n + 1 - bytes.length)).map fun (more, p) => (bytes ++ more, p)

/-! ### The reader -/

/-- A computation that fetches bytes: it asks for up to so many, and goes on with those that come. No
branch of it is infinite. -/
inductive Fetching (α : Type) where
  | done (a : α)
  | fetch (n : ℕ) (next : List Byte → Fetching α)

/-- It runs over the pipe, through a `CountingReader` that has counted `fetched` bytes so far. -/
def Fetching.run {α : Type} : Fetching α → InputPipe → ℕ → α × InputPipe × ℕ
  | .done a, p, fetched => (a, p, fetched)
  | .fetch n next, p, fetched =>
    Fetching.run (next (p.read n).1) (p.read n).2 (fetched + (p.read n).1.length)

/-- `LzmaReader`: opened with a dictionary size, read into a buffer of some length, and taken apart into
what it has fetched and not used. -/
structure LzmaReader where
  State : Type
  new : ℕ → Fetching (Except IoError State)
  read : State → ℕ → Fetching (Except IoError (List Byte) × State)
  unread : State → List Byte

/-! ### Headers -/

/-- `decode_dictionary_size`. -/
def decodeDictionarySize (encoded : Byte) : Except IoError ℕ :=
  let baseLog2 := (encoded &&& 0x1f).toNat
  if ¬ (12 ≤ baseLog2 ∧ baseLog2 ≤ 29) then
    .error (invalidData "invalid lzip dictionary-size base")
  else
    let base := 2 ^ baseLog2
    let dictionary := base - base / 16 * (encoded >>> 5).toNat
    if ¬ (minDictionary ≤ dictionary ∧ dictionary ≤ maxDictionary) then
      .error (invalidData "lzip dictionary size is out of range")
    else .ok dictionary

/-- `read_member_header`: the dictionary size, or nothing at the end. -/
def readMemberHeader (p : InputPipe) (memberIndex : ℕ) :
    Except IoError (Option ℕ × InputPipe) :=
  let (first, p) := p.read 1
  if first = [] then
    if memberIndex = 0 then .error (invalidData "empty lzip stream") else .ok (none, p)
  else
    match p.readExact (headerSize - 1) (headerSize - 1) with
    | none => .error (invalidData "truncated lzip member header")
    | some (more, p) =>
      let header := first ++ more
      if header.take 4 ≠ lzipMagic then .error (invalidData "invalid lzip member magic")
      else if header.getD 4 0 ≠ lzipVersion then
        .error (invalidData "unsupported lzip member version")
      else (decodeDictionarySize (header.getD 5 0)).map fun dictionary => (some dictionary, p)

/-- `validate_dictionary_memory`; `usage` is the estimate of the LZMA package, in KiB. -/
def validateDictionaryMemory (usage : ℕ → Except String ℕ) (dictionary : ℕ) :
    Option ℕ → Except IoError Unit
  | none => .ok ()
  | some limit =>
    match usage dictionary with
    | .error e => .error (invalidData e)
    | .ok kib =>
      let required := kib * 1024
      if limit < required then .error (outOfMemory
        s!"lzip LZMA workspace requires {required} bytes, limit is {limit}")
      else .ok ()

/-! ### Members -/

/-- A member while its payload is decoded, with what was sent. -/
structure Decoding (R : LzmaReader) where
  state : R.State
  pipe : InputPipe
  fetched : ℕ
  crc : Crc32 := {}
  dataSize : ℕ := 0
  decodedTotal : ℕ
  outputs : List (List Byte)

/-- What a worker has sent, and how it ends. -/
structure Ended (α : Type) where
  outputs : List (List Byte)
  result : Except IoError α

variable (R : LzmaReader)

/-- The room for a read. -/
def capacity (remaining : Option ℕ) : ℕ :=
  remaining.elim buffer fun remaining => max (min remaining buffer) 1

/-- The loop over a payload, for at most so many rounds. -/
def payloadLoop (maximum : Option ℕ) : ℕ → Decoding R → Option (Ended (Decoding R))
  | 0, _ => none
  | rounds + 1, d =>
    let remaining := maximum.map (· - d.decodedTotal)
    let ((r, state), pipe, fetched) :=
      (R.read d.state (capacity remaining)).run d.pipe d.fetched
    if pipe.eofRead then
      some ⟨d.outputs, .error (invalidData "truncated lzip LZMA payload")⟩
    else
      match r with
      | .error e => some ⟨d.outputs, .error e⟩
      | .ok [] => some ⟨d.outputs, .ok { d with state, pipe, fetched }⟩
      | .ok (b :: bytes) =>
        if remaining = some 0 then
          some ⟨d.outputs, .error (outOfMemory "lzip decoded stream exceeds configured limit")⟩
        else if u64Max < d.dataSize + (b :: bytes).length then
          some ⟨d.outputs, .error (invalidData "lzip member data size overflow")⟩
        else if u64Max < d.decodedTotal + (b :: bytes).length then
          some ⟨d.outputs, .error (outOfMemory "lzip decoded-total counter overflow")⟩
        else payloadLoop maximum rounds {
          state, pipe, fetched
          crc := d.crc.update (b :: bytes)
          dataSize := d.dataSize + (b :: bytes).length
          decodedTotal := d.decodedTotal + (b :: bytes).length
          outputs := d.outputs ++ [b :: bytes] }

variable {R}

/-- What follows a payload: the bytes that were fetched and not used go back, and the trailer is
checked. -/
def finishMember (d : Decoding R) : Except IoError InputPipe :=
  let unread := R.unread d.state
  if d.fetched < unread.length then
    .error (invalidData "lzip read-ahead exceeds fetched input")
  else
    let compressedSize := d.fetched - unread.length
    match d.pipe.restoreReadAhead unread with
    | .error e => .error e
    | .ok pipe =>
      match pipe.readExact trailerSize trailerSize with
      | none => .error (invalidData "truncated lzip member trailer")
      | some (trailer, pipe) =>
        if d.crc.finalize.toNat ≠ leValue (window trailer 0 4) then
          .error (invalidData "lzip CRC32 mismatch")
        else if d.dataSize ≠ leValue (window trailer 4 12) then
          .error (invalidData "lzip uncompressed size mismatch")
        else if u64Max < headerSize + compressedSize + trailerSize then
          .error (invalidData "lzip member size overflow")
        else if headerSize + compressedSize + trailerSize ≠ leValue (window trailer 12 20) then
          .error (invalidData "lzip member size mismatch")
        else .ok pipe

variable (R) (usage : ℕ → Except String ℕ) (limits : Limits)

/-- The loop over the members, for at most so many, with so many rounds for each. -/
def memberLoop (rounds : ℕ) : ℕ → ℕ → ℕ → List (List Byte) → InputPipe → Option (Ended Unit)
  | 0, _, _, _, _ => none
  | members + 1, index, decodedTotal, outputs, p =>
    match readMemberHeader p index with
    | .error e => some ⟨outputs, .error e⟩
    | .ok (none, _) => some ⟨outputs, .ok ()⟩
    | .ok (some dictionary, p) =>
      match validateDictionaryMemory usage dictionary limits.codecMemory with
      | .error e => some ⟨outputs, .error e⟩
      | .ok () =>
        match (R.new dictionary).run { p with eofRead := false } 0 with
        | (.error e, _, _) => some ⟨outputs, .error e⟩
        | (.ok state, pipe, fetched) =>
          match payloadLoop R limits.decodedTotal rounds
            { state, pipe, fetched, decodedTotal, outputs } with
          | none => none
          | some ⟨outputs, .error e⟩ => some ⟨outputs, .error e⟩
          | some ⟨outputs, .ok d⟩ =>
            match finishMember d with
            | .error e => some ⟨outputs, .error e⟩
            | .ok p =>
              if u64Max < index + 1 then
                some ⟨outputs, .error (outOfMemory "lzip member count overflow")⟩
              else memberLoop rounds members (index + 1) d.decodedTotal outputs p

/-- `decode_worker`. -/
def decodeWorker (messages : List InputMessage) (front : ℕ → ℕ) (rounds members : ℕ) :
    Option (Ended Unit) :=
  memberLoop R usage limits rounds members 0 0 [] { queue := messages, front := front }

end LibarchiveOxide.Filter.Lzip

/-! # Reading from the pipe of the lzip worker

What is left in a pipe is a string of bytes: what was put back, what is left of a message, and the
messages before the end. Every read takes a front part of it, however it is cut into messages and
pieces, and gives nothing only at the end of it. -/

namespace LibarchiveOxide.Filter.Lzip

open Core.Failure Core.Budget Codecs.Crc Lib.LittleEndian Lib.Slice Filter.Worker

/-! ### What is left in a pipe -/

/-- The bytes of the messages before the end. -/
def queuedBytes : List InputMessage → List Byte
  | [] => []
  | .finish :: _ => []
  | .data bytes :: queue => bytes ++ queuedBytes queue

/-- The messages from here on. -/
def arriving (queue : List InputMessage) (ended : Bool) : List Byte := if ended then [] else queuedBytes queue

/-- What is left. -/
def InputPipe.rest (p : InputPipe) : List Byte :=
  p.readAhead ++ (p.current ++ arriving p.queue p.endReceived)

theorem takeMessages_ok : ∀ (queue : List InputMessage) (n : ℕ),
    (takeMessages queue n).1 ++ ((takeMessages queue n).2.1 ++
      arriving (takeMessages queue n).2.2.1 (takeMessages queue n).2.2.2) = queuedBytes queue ∧
    (takeMessages queue n).1.length ≤ n ∧
    ((takeMessages queue n).1.length < n → (takeMessages queue n).2.2.2 = true ∧
      (takeMessages queue n).2.1 = [])
  | [], n => by simp [takeMessages, arriving, queuedBytes]
  | .finish :: queue, n => by simp [takeMessages, arriving, queuedBytes]
  | .data bytes :: queue, n => by
    rw [takeMessages]
    by_cases h : n ≤ bytes.length
    · rw [if_pos h]
      refine ⟨?_, ?_, ?_⟩
      · simp only [arriving, queuedBytes, Bool.false_eq_true, if_false]
        rw [← List.append_assoc, List.take_append_drop]
      · simp
      · intro hl
        simp only [List.length_take] at hl
        omega
    · obtain ⟨h1, h2, h3⟩ := takeMessages_ok queue (n - bytes.length)
      rw [if_neg h]
      refine ⟨?_, ?_, ?_⟩
      · simp only [queuedBytes]
        rw [List.append_assoc, h1]
      · simp only [List.length_append]
        omega
      · intro hl
        simp only [List.length_append] at hl
        exact h3 (by omega)

/-- **What a read takes**: a front part of what is left, of at most the length asked for, and nothing
only at the end, which is then noted. -/
theorem read_ok (p : InputPipe) {n : ℕ} (hn : 0 < n) :
    p.rest = (p.read n).1 ++ (p.read n).2.rest ∧ (p.read n).1.length ≤ n ∧
    ((p.read n).1 = [] → p.rest = []) ∧
    (p.read n).2.eofRead = (p.eofRead || decide ((p.read n).1 = [])) := by
  unfold InputPipe.read
  rw [if_neg (by omega)]
  by_cases ha : p.readAhead = []
  · rw [if_neg (by simp [ha])]
    by_cases hc : n ≤ p.current.length
    · have hne : p.current.take n ≠ [] := by
        intro he
        have := congrArg List.length he
        simp only [List.length_take, List.length_nil] at this
        omega
      rw [if_pos hc]
      refine ⟨?_, by simp, fun h => absurd h hne, by simp [hne]⟩
      simp only [InputPipe.rest, ha, List.nil_append]
      rw [← List.append_assoc, List.take_append_drop]
    · rw [if_neg hc]
      by_cases he : p.endReceived = true
      · rw [if_pos he]
        refine ⟨?_, by simp only; omega, ?_, rfl⟩
        · simp [InputPipe.rest, ha, arriving, he]
        · intro h
          simpa [InputPipe.rest, ha, arriving, he] using h
      · obtain ⟨h1, h2, h3⟩ := takeMessages_ok p.queue (n - p.current.length)
        rw [if_neg he]
        refine ⟨?_, ?_, ?_, ?_⟩
        · simp only [InputPipe.rest, ha, List.nil_append, List.append_assoc]
          rw [h1, arriving, if_neg he]
        · simp only [List.length_append]
          omega
        · intro h
          simp only [List.append_eq_nil_iff] at h
          obtain ⟨ht, hr⟩ := h3 (by rw [h.2, List.length_nil]; omega)
          rw [h.2, hr, ht] at h1
          simp only [InputPipe.rest, ha, h.1, arriving, if_neg he, List.nil_append]
          simpa [arriving] using h1.symm
        · by_cases hb : p.current ++ (takeMessages p.queue (n - p.current.length)).1 = []
          · have ht := (h3 (by
              rw [(List.append_eq_nil_iff.mp hb).2, List.length_nil]
              omega)).1
            simp [hb, ht]
          · simp [hb]
  · have hne : p.readAhead.take (min n (p.front p.reads + 1)) ≠ [] := by
      rw [ne_eq, List.take_eq_nil_iff]
      rintro (h | h)
      · omega
      · exact ha h
    rw [if_pos ha]
    refine ⟨?_, by simp, fun h => absurd h hne, by simp [hne]⟩
    simp only [InputPipe.rest]
    rw [← List.append_assoc (List.take _ _), List.take_append_drop]

/-- With nothing put back a read is full, as long as there are bytes. -/
theorem read_full {p : InputPipe} (ha : p.readAhead = []) {n : ℕ} (hn : 0 < n) :
    (p.read n).1 = p.rest.take n := by
  have hrest : p.rest = p.current ++ arriving p.queue p.endReceived := by
    rw [InputPipe.rest, ha, List.nil_append]
  unfold InputPipe.read
  rw [if_neg (by omega), if_neg (by simp [ha]), hrest]
  by_cases hc : n ≤ p.current.length
  · rw [if_pos hc]
    exact (List.take_append_of_le_length hc).symm
  · rw [if_neg hc, List.take_append, List.take_of_length_le (by omega)]
    by_cases he : p.endReceived = true
    · simp [he, arriving]
    · obtain ⟨h1, h2, h3⟩ := takeMessages_ok p.queue (n - p.current.length)
      rw [if_neg he, arriving, if_neg he, ← h1]
      simp only [List.append_cancel_left_eq]
      by_cases hl : (takeMessages p.queue (n - p.current.length)).1.length < n - p.current.length
      · rw [(h3 hl).1, (h3 hl).2]
        simp only [arriving, if_true, List.append_nil]
        exact (List.take_of_length_le h2).symm
      · exact (List.take_left' (by omega)).symm

theorem read_zero (p : InputPipe) : p.read 0 = ([], p) := rfl

theorem rest_restore {p p' : InputPipe} {bytes : List Byte} (h : p.restoreReadAhead bytes = .ok p') :
    p'.rest = bytes ++ p.rest := by
  unfold InputPipe.restoreReadAhead at h
  split_ifs at h
  obtain rfl := Except.ok.inj h
  simp [InputPipe.rest]

/-- `read_exact` gives the front of what is left, if there is enough. -/
theorem readExact_ok : ∀ (rounds : ℕ) (p : InputPipe) (n : ℕ), n ≤ rounds →
    (∀ {bytes p'}, p.readExact rounds n = some (bytes, p') →
      p.rest = bytes ++ p'.rest ∧ bytes.length = n) ∧
    (n ≤ p.rest.length → (InputPipe.readExact rounds p n).isSome)
  | rounds, p, 0, _ => by
    simp only [InputPipe.readExact, Option.some.injEq, Prod.mk.injEq, Option.isSome_some]
    refine ⟨?_, fun _ => trivial⟩
    rintro _ _ ⟨rfl, rfl⟩
    exact ⟨rfl, rfl⟩
  | 0, p, n + 1, h => absurd h (by omega)
  | rounds + 1, p, n + 1, h => by
    obtain ⟨hr, hl, he, -⟩ := read_ok p (show 0 < n + 1 by omega)
    rw [InputPipe.readExact]
    by_cases hb : (p.read (n + 1)).1 = []
    · simp only [if_pos hb, reduceCtorEq, false_implies, implies_true, true_and]
      intro hn
      rw [he hb, List.length_nil] at hn
      omega
    · have hpos := List.length_pos_iff.mpr hb
      obtain ⟨h1, h2⟩ := readExact_ok rounds (p.read (n + 1)).2 (n + 1 - (p.read (n + 1)).1.length)
        (by omega)
      simp only [if_neg hb, Option.isSome_map]
      constructor
      · intro bytes p' hs
        obtain ⟨⟨more, q⟩, hq, hm⟩ := Option.map_eq_some_iff.mp hs
        obtain ⟨rfl, rfl⟩ := Prod.mk.inj hm
        obtain ⟨h3, h4⟩ := h1 hq
        refine ⟨?_, ?_⟩
        · rw [hr, h3, List.append_assoc]
        · rw [List.length_append, h4]
          omega
      · intro hn
        apply h2
        rw [hr, List.length_append] at hn
        omega

/-- What was put back is used up first. -/
theorem read_ahead (p : InputPipe) (n : ℕ) :
    (p.read n).2.readAhead = [] ∨ p.readAhead = (p.read n).1 ++ (p.read n).2.readAhead := by
  unfold InputPipe.read
  split_ifs with hn ha hc he
  · exact Or.inr rfl
  · exact Or.inr (List.take_append_drop _ _).symm
  · exact Or.inl (by simpa using ha)
  · exact Or.inl (by simpa using ha)
  · exact Or.inl (by simpa using ha)

theorem length_ahead_read (p : InputPipe) (n : ℕ) :
    (p.read n).2.readAhead.length ≤ p.readAhead.length := by
  rcases read_ahead p n with h | h
  · rw [h, List.length_nil]
    exact Nat.zero_le _
  · have := congrArg List.length h
    rw [List.length_append] at this
    omega

theorem length_ahead_readExact : ∀ {rounds n : ℕ} {p p' : InputPipe} {bytes : List Byte},
    p.readExact rounds n = some (bytes, p') → p'.readAhead.length ≤ p.readAhead.length
  | rounds, 0, p, p', bytes, h => by
    simp only [InputPipe.readExact, Option.some.injEq, Prod.mk.injEq] at h
    rw [h.2]
  | 0, n + 1, p, p', bytes, h => by simp [InputPipe.readExact] at h
  | rounds + 1, n + 1, p, p', bytes, h => by
    rw [InputPipe.readExact] at h
    by_cases hb : (p.read (n + 1)).1 = []
    · simp [hb] at h
    · simp only [if_neg hb] at h
      obtain ⟨⟨more, q⟩, hq, hm⟩ := Option.map_eq_some_iff.mp h
      have hr := length_ahead_readExact hq
      have hl := length_ahead_read p (n + 1)
      obtain rfl := (Prod.mk.inj hm).2
      exact hr.trans hl

/-! ### What a reader fetches -/

/-- A computation fetches these bytes, with those left after them, and ends in this way; the flag says
whether it has looked for bytes at the end. -/
inductive Fetching.Ends {α : Type} : Fetching α → List Byte → List Byte → α → Bool → Prop
  | done {a : α} {left : List Byte} : Fetching.Ends (.done a) [] left a false
  | fetch {n : ℕ} {next : List Byte → Fetching α} {bytes fetched left : List Byte} {a : α}
      {met : Bool} (hn : bytes.length ≤ n) (hb : 0 < n → bytes = [] → fetched ++ left = [])
      (h : Fetching.Ends (next bytes) fetched left a met) :
      Fetching.Ends (.fetch n next) (bytes ++ fetched) left a
        (decide (0 < n ∧ bytes = []) || met)

/-- **A run over a pipe** is such an end: it fetches the front of what is left. -/
theorem run_ends {α : Type} : ∀ (f : Fetching α) (p : InputPipe) (count : ℕ),
    ∃ fetched met, p.rest = fetched ++ (f.run p count).2.1.rest ∧
      f.Ends fetched (f.run p count).2.1.rest (f.run p count).1 met ∧
      (f.run p count).2.1.eofRead = (p.eofRead || met) ∧
      (f.run p count).2.2 = count + fetched.length ∧
      ((f.run p count).2.1.readAhead = [] ∨
        p.readAhead = fetched ++ (f.run p count).2.1.readAhead)
  | .done a, p, count => ⟨[], false, rfl, .done, (Bool.or_false _).symm, rfl, Or.inr rfl⟩
  | .fetch n next, p, count => by
    obtain ⟨fetched, met, hr, he, hm, hc, ha⟩ :=
      run_ends (next (p.read n).1) (p.read n).2 (count + (p.read n).1.length)
    rw [Fetching.run]
    have hp : p.rest = (p.read n).1 ++ (p.read n).2.rest ∧ (p.read n).1.length ≤ n ∧
        (0 < n → (p.read n).1 = [] → p.rest = []) ∧
        (p.read n).2.eofRead = (p.eofRead || decide (0 < n ∧ (p.read n).1 = [])) := by
      rcases Nat.eq_zero_or_pos n with rfl | hn
      · simp [read_zero]
      · obtain ⟨h1, h2, h3, h4⟩ := read_ok p hn
        exact ⟨h1, h2, fun _ => h3, by rw [h4]; simp [hn]⟩
    obtain ⟨h1, h2, h3, h4⟩ := hp
    refine ⟨(p.read n).1 ++ fetched, _, ?_, .fetch h2 ?_ he, ?_, ?_, ?_⟩
    · rw [h1, hr, List.append_assoc]
    · intro hn hb
      rw [← hr]
      exact (List.append_eq_nil_iff.mp (h1.symm.trans (h3 hn hb))).2
    · rw [hm, h4, Bool.or_assoc]
    · rw [hc, List.length_append, Nat.add_assoc]
    · rcases ha with ha | ha
      · exact Or.inl ha
      · rcases read_ahead p n with hq | hq
        · rw [hq] at ha
          exact Or.inl (List.append_eq_nil_iff.mp ha.symm).2
        · rw [ha, ← List.append_assoc] at hq
          exact Or.inr hq

end LibarchiveOxide.Filter.Lzip
