import LibarchiveOxide.Stream.Event

/-! # Readers of bytes

A source that answers as it likes, the reader that hashes what it yields, and the reader that decodes
the outer filter. A digest is kept as the bytes that were fed to it. -/

namespace LibarchiveOxide.Stream.Filtered

open Core.Failure Stream.Event

/-- `Read::read` into a buffer with room for some bytes. -/
abbrev ReadFn (σ : Type) : Type := ℕ → σ → Except IoError (List Byte) × σ

/-! ### The source -/

/-- How a source answers one read. -/
inductive Answer where
  | fail (error : IoError)
  | short (most : ℕ)
deriving DecidableEq

/-- What is left of a blob, and how the next reads answer; a read that has no answer fills the buffer
as far as it can. -/
structure Source where
  rest : List Byte
  answers : List Answer := []
deriving DecidableEq

/-- `read` of a source. A short answer has one byte at least, unless the blob is at its end. -/
def Source.read : ReadFn Source
  | room, ⟨rest, []⟩ => (.ok (rest.take room), ⟨rest.drop room, []⟩)
  | _, ⟨rest, .fail error :: answers⟩ => (.error error, ⟨rest, answers⟩)
  | room, ⟨rest, .short most :: answers⟩ =>
    (.ok (rest.take (min room (most + 1))), ⟨rest.drop (min room (most + 1)), answers⟩)

/-! ### Hashing -/

/-- `HashingReader`; its hasher is shared with the owner of the reader. -/
structure HashingReader (σ : Type) where
  inner : σ
  hasher : List Byte := []
deriving DecidableEq

/-- `read` of a `HashingReader`. -/
def HashingReader.read {σ : Type} (read : ReadFn σ) : ReadFn (HashingReader σ) := fun room r =>
  match read room r.inner with
  | (.error error, inner) => (.error error, { r with inner := inner })
  | (.ok bytes, inner) => (.ok bytes, { inner := inner, hasher := r.hasher ++ bytes })

/-- The compressed input of a layer. -/
abbrev Compressed : Type := HashingReader Source

/-- Its `read`. -/
def readCompressed : ReadFn Compressed := HashingReader.read Source.read

/-! ### The outer filter -/

/-- A decoder of an outer filter with the input that it reads. `start` is given the prefix that was read
to detect the filter. -/
structure Codec where
  State : Type
  start : List Byte → State
  read : ReadFn (State × Compressed)

namespace Codec

variable (C : Codec)

/-- What a decoder may have yielded after some reads, and where it stands. -/
inductive Reads (start : C.State × Compressed) : List Byte → C.State × Compressed → Prop
  | start : Reads start [] start
  | ok {out bytes : List Byte} {s s' : C.State × Compressed} {room : ℕ} : Reads start out s →
      0 < room → C.read room s = (.ok bytes, s') → Reads start (out ++ bytes) s'
  | error {out : List Byte} {s s' : C.State × Compressed} {room : ℕ} {error : IoError} :
      Reads start out s → 0 < room → C.read room s = (.error error, s') → Reads start out s'

/-- **A decoder of the blob**: it takes its input through its reader, fills no more than the buffer,
yields the decoded stream in order, failures or not, and reports the end only at its end. -/
structure Decodes (decode : List Byte → List Byte) : Prop where
  input : ∀ {room s r}, C.read room s = r →
    r.2.2.hasher ++ r.2.2.inner.rest = s.2.hasher ++ s.2.inner.rest
  room : ∀ {room s bytes s'}, C.read room s = (.ok bytes, s') → bytes.length ≤ room
  yields : ∀ {before rest answers out s},
    C.Reads (C.start before, ⟨⟨rest, answers⟩, before⟩) out s → out <+: decode (before ++ rest)
  ends : ∀ {before rest answers out s room s'},
    C.Reads (C.start before, ⟨⟨rest, answers⟩, before⟩) out s → 0 < room →
    C.read room s = (.ok [], s') → out = decode (before ++ rest)

end Codec

/-- `FilterReader`. -/
structure FilterReader (C : Codec) where
  inner : C.State × Compressed
  decoded : ℕ := 0
  decodedLimit : Option ℕ

namespace FilterReader

variable {C : Codec}

/-- The loop that reads the prefix; it makes at most `rounds` reads. -/
def readPrefix : ℕ → List Byte → Compressed → Except IoError (List Byte × Compressed)
  | 0, found, input => .ok (found, input)
  | rounds + 1, found, input =>
    if found.length = 6 then .ok (found, input)
    else
      match readCompressed (6 - found.length) input with
      | (.error error, _) => .error error
      | (.ok [], input) => .ok (found, input)
      | (.ok bytes, input) => readPrefix rounds (found ++ bytes) input

/-- `FilterReader::with_limits`, for the filter that the prefix tells. -/
def withLimits (C : Codec) (input : Compressed) (decodedLimit : Option ℕ) :
    Except IoError (FilterReader C) := do
  let (found, input) ← readPrefix 6 [] input
  .ok { inner := (C.start found, input), decodedLimit := decodedLimit }

/-- A read of some bytes that are allowed, which count for the limit. -/
def readAllowed : ReadFn (FilterReader C) := fun allowed r =>
  match C.read allowed r.inner with
  | (.error error, inner) => (.error error, { r with inner := inner })
  | (.ok bytes, inner) =>
    match checkedAdd r.decoded bytes.length with
    | none => (.error ⟨"other", "decoded stream size overflow"⟩, { r with inner := inner })
    | some decoded => (.ok bytes, { r with inner := inner, decoded := decoded })

/-- `read`. At the limit one byte more is read, to tell the end of the stream from an excess. -/
def read : ReadFn (FilterReader C) := fun room r =>
  if room = 0 then (.ok [], r)
  else
    match r.decodedLimit with
    | none => readAllowed room r
    | some limit =>
      if limit - r.decoded = 0 then
        match C.read 1 r.inner with
        | (.error error, inner) => (.error error, { r with inner := inner })
        | (.ok [], inner) => (.ok [], { r with inner := inner })
        | (.ok (_ :: _), inner) =>
          (.error ⟨"other", "decoded stream exceeds configured limit"⟩, { r with inner := inner })
      else readAllowed (min (limit - r.decoded) room) r

end FilterReader

/-- `HashingReader` over the decoded stream. -/
abbrev Decoded (C : Codec) : Type := HashingReader (FilterReader C)

/-- Its `read`. -/
def readDecoded {C : Codec} : ReadFn (Decoded C) := HashingReader.read FilterReader.read

/-! ### What the readers keep -/

theorem Source.read_rest (room : ℕ) : ∀ s : Source, match Source.read room s with
    | (.ok bytes, s') => bytes ++ s'.rest = s.rest ∧ bytes.length ≤ room ∧
      (0 < room → bytes = [] → s.rest = [])
    | (.error _, s') => s'.rest = s.rest
  | ⟨rest, []⟩ => by
    refine ⟨List.take_append_drop _ _, List.length_take_le _ _, fun hroom hnil => ?_⟩
    exact (List.take_eq_nil_iff.mp hnil).resolve_left hroom.ne'
  | ⟨_, .fail _ :: _⟩ => rfl
  | ⟨rest, .short most :: _⟩ => by
    refine ⟨List.take_append_drop _ _, (List.length_take_le _ _).trans (min_le_left _ _),
      fun hroom hnil => ?_⟩
    exact (List.take_eq_nil_iff.mp hnil).resolve_left (by omega)

/-- The blob is what was hashed and what is left. -/
theorem readCompressed_blob (room : ℕ) (r : Compressed) :
    (readCompressed room r).2.hasher ++ (readCompressed room r).2.inner.rest =
      r.hasher ++ r.inner.rest := by
  have h := Source.read_rest room r.inner
  unfold readCompressed HashingReader.read
  cases hread : Source.read room r.inner with
  | mk result inner =>
    rw [hread] at h
    cases result with
    | error _ =>
      change r.hasher ++ inner.rest = _
      rw [h]
    | ok bytes =>
      change (r.hasher ++ bytes) ++ inner.rest = _
      rw [List.append_assoc, h.1]

theorem readCompressed_ok {room : ℕ} {r r' : Compressed} {bytes : List Byte}
    (h : readCompressed room r = (.ok bytes, r')) :
    r'.hasher = r.hasher ++ bytes ∧ bytes.length ≤ room ∧
      (0 < room → bytes = [] → r.inner.rest = []) := by
  have hrest := Source.read_rest room r.inner
  unfold readCompressed HashingReader.read at h
  cases hread : Source.read room r.inner with
  | mk result inner =>
    rw [hread] at h hrest
    cases result with
    | error _ => cases h
    | ok bytes' =>
      cases h
      exact ⟨rfl, hrest.2⟩

theorem readPrefix_eq_ok : ∀ {rounds : ℕ} {found found' : List Byte} {input input' : Compressed},
    input.hasher = found → FilterReader.readPrefix rounds found input = .ok (found', input') →
    input'.hasher = found' ∧
      input'.hasher ++ input'.inner.rest = input.hasher ++ input.inner.rest
  | 0, _, _, _, _, hhasher, h => by
    cases h
    exact ⟨hhasher, rfl⟩
  | rounds + 1, found, found', input, input', hhasher, h => by
    unfold FilterReader.readPrefix at h
    by_cases hfull : found.length = 6
    · rw [if_pos hfull] at h
      cases h
      exact ⟨hhasher, rfl⟩
    · rw [if_neg hfull] at h
      have hblob := readCompressed_blob (6 - found.length) input
      cases hread : readCompressed (6 - found.length) input with
      | mk result next =>
        rw [hread] at h hblob
        cases result with
        | error _ => cases h
        | ok bytes =>
          have hnext := (readCompressed_ok hread).1
          rw [hhasher] at hnext
          cases bytes with
          | nil =>
            cases h
            exact ⟨hnext.trans (List.append_nil _), hblob⟩
          | cons byte bytes =>
            obtain ⟨hfound, hrest⟩ := readPrefix_eq_ok hnext h
            exact ⟨hfound, hrest.trans hblob⟩

/-! ### The plain filter -/

/-- `BufReader<PrefixReader>`: what is left of the prefix, and what is buffered. -/
structure Plain where
  before : List Byte
  buffer : List Byte := []
deriving DecidableEq

/-- The capacity of a `BufReader`. -/
def bufferCapacity : ℕ := 8 * 1024

/-- `read` of a `PrefixReader`. -/
def Plain.readThrough : ReadFn (Plain × Compressed) := fun room s =>
  if room = 0 then (.ok [], s)
  else if s.1.before ≠ [] then
    (.ok (s.1.before.take room), { s.1 with before := s.1.before.drop room }, s.2)
  else
    match readCompressed room s.2 with
    | (result, input) => (result, s.1, input)

/-- `read` of a `BufReader` over a `PrefixReader`. -/
def Plain.read : ReadFn (Plain × Compressed) := fun room s =>
  if s.1.buffer = [] ∧ bufferCapacity ≤ room then Plain.readThrough room s
  else if s.1.buffer = [] then
    match Plain.readThrough bufferCapacity s with
    | (.error error, s) => (.error error, s)
    | (.ok bytes, s) => (.ok (bytes.take room), { s.1 with buffer := bytes.drop room }, s.2)
  else (.ok (s.1.buffer.take room), { s.1 with buffer := s.1.buffer.drop room }, s.2)

/-- The filter that decodes nothing. -/
def plain : Codec where
  State := Plain
  start before := { before := before }
  read := Plain.read

/-- What is to be said about one read of a `PrefixReader` or a `BufReader`: `held` is what it has read
but not yielded. -/
structure Through (held : Plain → List Byte) (room : ℕ) (s : Plain × Compressed)
    (r : Except IoError (List Byte) × (Plain × Compressed)) : Prop where
  input : r.2.2.hasher ++ r.2.2.inner.rest = s.2.hasher ++ s.2.inner.rest
  fits : ∀ bytes, r.1 = .ok bytes → bytes.length ≤ room
  yields : ∀ bytes, r.1 = .ok bytes → ∀ out, out ++ held s.1 = s.2.hasher →
    out ++ bytes ++ held r.2.1 = r.2.2.hasher
  fails : ∀ error, r.1 = .error error → ∀ out, out ++ held s.1 = s.2.hasher →
    out ++ held r.2.1 = r.2.2.hasher
  ends : 0 < room → r.1 = .ok [] → held s.1 = [] ∧ s.2.inner.rest = []

theorem readThrough_spec (room : ℕ) (s : Plain × Compressed) :
    Through Plain.before room s (Plain.readThrough room s) ∧
      (Plain.readThrough room s).2.1.buffer = s.1.buffer := by
  unfold Plain.readThrough
  by_cases hroom : room = 0
  · rw [if_pos hroom]
    refine ⟨⟨rfl, ?_, ?_, nofun, fun h => absurd hroom h.ne'⟩, rfl⟩
    · intro bytes h
      cases h
      exact Nat.zero_le _
    · intro bytes h out hout
      cases h
      rwa [List.append_nil]
  · rw [if_neg hroom]
    by_cases hbefore : s.1.before ≠ []
    · rw [if_pos hbefore]
      refine ⟨⟨rfl, ?_, ?_, nofun, ?_⟩, rfl⟩
      · intro bytes h
        cases h
        exact List.length_take_le _ _
      · intro bytes h out hout
        cases h
        change out ++ s.1.before.take room ++ s.1.before.drop room = s.2.hasher
        rwa [List.append_assoc, List.take_append_drop]
      · intro _ h
        have hnil : s.1.before.take room = [] := Except.ok.inj h
        exact absurd ((List.take_eq_nil_iff.mp hnil).resolve_left hroom) hbefore
    · rw [if_neg hbefore]
      have hnone : s.1.before = [] := not_not.mp hbefore
      have hblob := readCompressed_blob room s.2
      cases hread : readCompressed room s.2 with
      | mk result input =>
        rw [hread] at hblob
        refine ⟨⟨hblob, ?_, ?_, ?_, ?_⟩, rfl⟩
        · rintro bytes rfl
          exact (readCompressed_ok hread).2.1
        · rintro bytes rfl out hout
          change out ++ bytes ++ s.1.before = input.hasher
          rw [(readCompressed_ok hread).1, ← hout, hnone, List.append_nil, List.append_nil]
        · rintro error rfl out hout
          have hsame : input.hasher = s.2.hasher := by
            unfold readCompressed HashingReader.read at hread
            cases hsource : Source.read room s.2.inner with
            | mk result inner =>
              rw [hsource] at hread
              cases result with
              | error _ =>
                cases hread
                rfl
              | ok _ => cases hread
          exact hout.trans hsame.symm
        · rintro hpos rfl
          exact ⟨hnone, (readCompressed_ok hread).2.2 hpos rfl⟩

/-- What the plain filter has read but not yielded. -/
def Plain.held (p : Plain) : List Byte := p.buffer ++ p.before

theorem plain_spec (room : ℕ) (s : Plain × Compressed) :
    Through Plain.held room s (Plain.read room s) := by
  unfold Plain.read
  by_cases hbypass : s.1.buffer = [] ∧ bufferCapacity ≤ room
  · rw [if_pos hbypass]
    obtain ⟨h, hbuffer⟩ := readThrough_spec room s
    have hheld : Plain.held s.1 = s.1.before := by rw [Plain.held, hbypass.1, List.nil_append]
    have hheld' : Plain.held (Plain.readThrough room s).2.1 =
        (Plain.readThrough room s).2.1.before := by
      rw [Plain.held, hbuffer, hbypass.1, List.nil_append]
    refine ⟨h.input, h.fits, ?_, ?_, ?_⟩
    · rw [hheld, hheld']
      exact h.yields
    · rw [hheld, hheld']
      exact h.fails
    · rw [hheld]
      exact h.ends
  · rw [if_neg hbypass]
    by_cases hbuffer : s.1.buffer = []
    · rw [if_pos hbuffer]
      obtain ⟨h, hsame⟩ := readThrough_spec bufferCapacity s
      have hheld : Plain.held s.1 = s.1.before := by rw [Plain.held, hbuffer, List.nil_append]
      cases hread : Plain.readThrough bufferCapacity s with
      | mk result s' =>
        rw [hread] at h hsame
        cases result with
        | error error =>
          have hheld' : Plain.held s'.1 = s'.1.before := by
            rw [Plain.held, show s'.1.buffer = s.1.buffer from hsame, hbuffer, List.nil_append]
          refine ⟨h.input, nofun, nofun, ?_, fun _ => nofun⟩
          rintro error' _ out hout
          rw [hheld] at hout
          change out ++ Plain.held s'.1 = s'.2.hasher
          rw [hheld']
          exact h.fails error rfl out hout
        | ok bytes =>
          refine ⟨h.input, ?_, ?_, nofun, ?_⟩
          · intro taken htaken
            cases htaken
            exact List.length_take_le _ _
          · intro taken htaken out hout
            cases htaken
            rw [hheld] at hout
            change out ++ bytes.take room ++ (bytes.drop room ++ s'.1.before) = s'.2.hasher
            rw [List.append_assoc, ← List.append_assoc (bytes.take room), List.take_append_drop,
              ← List.append_assoc]
            exact h.yields bytes rfl out hout
          · intro hroom htaken
            have hnil : bytes.take room = [] := Except.ok.inj htaken
            have hbytes := (List.take_eq_nil_iff.mp hnil).resolve_left hroom.ne'
            rw [hheld]
            exact h.ends (by decide) (by rw [hbytes])
    · rw [if_neg hbuffer]
      refine ⟨rfl, ?_, ?_, nofun, ?_⟩
      · intro taken htaken
        cases htaken
        exact List.length_take_le _ _
      · intro taken htaken out hout
        cases htaken
        change out ++ s.1.buffer.take room ++ (s.1.buffer.drop room ++ s.1.before) = s.2.hasher
        rw [List.append_assoc, ← List.append_assoc (s.1.buffer.take room), List.take_append_drop]
        exact hout
      · intro hroom htaken
        have hnil : s.1.buffer.take room = [] := Except.ok.inj htaken
        exact absurd ((List.take_eq_nil_iff.mp hnil).resolve_left hroom.ne') hbuffer

theorem plain_reads {before rest : List Byte} {answers : List Answer} {out : List Byte}
    {s : plain.State × Compressed}
    (h : plain.Reads (plain.start before, ⟨⟨rest, answers⟩, before⟩) out s) :
    out ++ Plain.held s.1 = s.2.hasher ∧ s.2.hasher ++ s.2.inner.rest = before ++ rest := by
  induction h with
  | start => exact ⟨rfl, rfl⟩
  | @ok out bytes s s' room _ _ hread ih =>
    have hspec := plain_spec room s
    rw [show Plain.read room s = _ from hread] at hspec
    exact ⟨hspec.yields bytes rfl out ih.1, hspec.input.trans ih.2⟩
  | @error out s s' room error _ _ hread ih =>
    have hspec := plain_spec room s
    rw [show Plain.read room s = _ from hread] at hspec
    exact ⟨hspec.fails error rfl out ih.1, hspec.input.trans ih.2⟩

/-- **The plain filter decodes a blob to itself.** -/
theorem plain_decodes : plain.Decodes id where
  input {room s r} h := by
    cases h
    exact (plain_spec room s).input
  room {room s bytes s'} h := by
    have hspec := plain_spec room s
    rw [show Plain.read room s = _ from h] at hspec
    exact hspec.fits bytes rfl
  yields h := by
    obtain ⟨hheld, hblob⟩ := plain_reads h
    exact ⟨_, by rw [← List.append_assoc, hheld]; exact hblob⟩
  ends {before rest answers out s room s'} h hroom hread := by
    obtain ⟨hheld, hblob⟩ := plain_reads h
    have hspec := plain_spec room s
    rw [show Plain.read room s = _ from hread] at hspec
    obtain ⟨hnone, hrest⟩ := hspec.ends hroom rfl
    rw [hnone, List.append_nil] at hheld
    rw [hrest, List.append_nil, ← hheld] at hblob
    exact hblob

end LibarchiveOxide.Stream.Filtered
