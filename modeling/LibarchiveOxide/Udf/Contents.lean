import LibarchiveOxide.Udf.Cursor

/-! # File contents

`contents_exact`: what the parser makes of the descriptors of a file and what the reader delivers of
it agree. The reader counts all the bytes that it has delivered in a `u64` and fails when they leave
it; nothing else goes wrong. -/

namespace LibarchiveOxide.Udf.Contents

open Core.Failure Core.Budget Core.Metadata Lib.Result Stream.Event Udf.Partitions Udf.Translation
open Udf.Descriptors Udf.Allocation Udf.Chains Udf.Cursor Udf.Reader

variable {v : Volume} {maximum : Option ℕ}

/-! ### One call -/

variable {r r' : UdfSeekReader} {e : UdfIndex}

/-- The failure of a count that leaves a `u64`. -/
def overflow : StreamError := udfError .limit "UDF decoded total overflow"

/-- **A reader that can go on**: its entries have been indexed, its open payload is sane, and nothing
but the in-flight bytes is limited. -/
structure Sound (v : Volume) (maximum : Option ℕ) (r : UdfSeekReader) : Prop where
  entries : ∀ e ∈ r.entries, Indexed v maximum e
  body : ∀ c, r.body = .data c → Sane v.image c
  chunk : 0 < r.eventChunk
  unlimited : r.limits.decodedTotal = none

/-- A piece of an open payload. -/
theorem dataEvent_piece {c : UdfDataCursor} (hchunk : 0 < r.eventChunk)
    (hunlimited : r.limits.decodedTotal = none) (hc : Sane v.image c) (hpos : 0 < c.remaining)
    (hfits : r.decodedTotal + min c.remaining r.eventChunk ≤ u64Max) :
    ∃ bytes c', r.dataEvent v c = .ok (some (.data bytes), { r with
        body := .data c', decodedTotal := r.decodedTotal + min c.remaining r.eventChunk }) ∧
      left v.image c = bytes ++ left v.image c' ∧ Sane v.image c' ∧
      bytes.length = min c.remaining r.eventChunk ∧
      c'.remaining + min c.remaining r.eventChunk = c.remaining := by
  obtain ⟨bytes, c', hread, hlength, hleft, -, hc', hremaining⟩ :=
    readExact_left v.length_le hc (min_le_left c.remaining r.eventChunk)
  refine ⟨bytes, c', ?_, hleft, hc', hlength, hremaining⟩
  unfold UdfSeekReader.dataEvent
  rw [if_neg (by omega), if_neg (by omega)]
  dsimp only
  rw [hread, ok_bind]
  dsimp only
  rw [checkedAdd_of_le hfits, okOr_some, ok_bind, hunlimited, exceeds_none]
  rfl

/-- The count of a piece leaves a `u64`. -/
theorem dataEvent_overflow {c : UdfDataCursor} (hchunk : 0 < r.eventChunk) (hc : Sane v.image c)
    (hpos : 0 < c.remaining) (hfits : u64Max < r.decodedTotal + min c.remaining r.eventChunk) :
    r.dataEvent v c = .error overflow := by
  obtain ⟨bytes, c', hread, -⟩ :=
    readExact_left v.length_le hc (min_le_left c.remaining r.eventChunk)
  unfold UdfSeekReader.dataEvent
  rw [if_neg (by omega), if_neg (by omega)]
  dsimp only
  rw [hread, ok_bind]
  dsimp only
  have hnone : checkedAdd r.decodedTotal (min c.remaining r.eventChunk) = none :=
    if_neg (by omega)
  rw [hnone, okOr_none]
  rfl

/-- Opening the payload of an entry of the index. -/
theorem indexed_new (h : Indexed v maximum e) :
    e.payload = .none ∨ ∃ length : UInt64, e.metadata.size = some length ∧
      Fitting v.image e.payload length.toNat ∧
      UdfDataCursor.new e.payload length.toNat =
        .ok { payload := e.payload, remaining := length.toNat } ∧
      Sane v.image { payload := e.payload, remaining := length.toNat } := by
  cases h with
  | other => exact .inl rfl
  | @file _ f payload holes rest h =>
    have hfitting := filePayload_fitting h
    have hmax : f.informationLength.toNat ≤ u64Max := by
      have := f.informationLength.toNat_lt
      unfold u64Max
      omega
    obtain ⟨hnew, hsane⟩ := hfitting.new hmax
    exact .inr ⟨f.informationLength, rfl, hfitting, hnew, hsane⟩

/-- A call that succeeds leaves the reader that it returns, and does not fail. -/
theorem of_ok {α ε : Type} {P : UdfSeekReader → Prop} {Q : ε → Prop} {a : α} {s : UdfSeekReader}
    {x : Except ε (α × UdfSeekReader)} (hx : x = .ok (a, s)) (hs : P s) :
    (∀ a' s', x = .ok (a', s') → P s') ∧ ∀ e, x = .error e → Q e := by
  rw [hx]
  refine ⟨fun a' s' h => ?_, fun e h => by cases h⟩
  cases h
  exact hs

/-- **Every call keeps the reader able to go on**, or fails because the count leaves a `u64`. -/
theorem Sound.nextEvent (h : Sound v maximum r) :
    (∀ event r', r.nextEvent v = .ok (event, r') → Sound v maximum r') ∧
    ∀ e, r.nextEvent v = .error e → e = overflow ∧
      ∃ c, r.body = .data c ∧ u64Max < r.decodedTotal + min c.remaining r.eventChunk := by
  obtain ⟨hentries, hbody, hchunk, hunlimited⟩ := h
  unfold UdfSeekReader.nextEvent
  cases hmetadata : r.archiveMetadata with
  | some metadata =>
    exact of_ok rfl ⟨hentries, hbody, hchunk, hunlimited⟩
  | none =>
    dsimp only
    cases hb : r.body with
    | idle =>
      dsimp only
      cases hentry : r.entries[r.nextEntry]? with
      | none =>
        exact of_ok rfl ⟨hentries, fun c hc => (by cases hc), hchunk, hunlimited⟩
      | some entry =>
        dsimp only
        rcases indexed_new (hentries entry (List.mem_of_getElem? hentry)) with
          hnone | ⟨length, hsize, -, hnew, hsane⟩
        · rw [hnone]
          exact of_ok rfl ⟨hentries, fun c hc => (by cases hc), hchunk, hunlimited⟩
        · rw [hsize, Option.map_some, Option.getD_some]
          cases hpayload : entry.payload with
          | none =>
            exact of_ok rfl ⟨hentries, fun c hc => (by cases hc), hchunk, hunlimited⟩
          | inline data location =>
            rw [hpayload] at hnew hsane
            dsimp only
            rw [hnew, ok_bind]
            refine of_ok rfl ⟨hentries, fun c hc => ?_, hchunk, hunlimited⟩
            cases hc
            exact hsane
          | extents es =>
            rw [hpayload] at hnew hsane
            dsimp only
            rw [hnew, ok_bind]
            refine of_ok rfl ⟨hentries, fun c hc => ?_, hchunk, hunlimited⟩
            cases hc
            exact hsane
    | data c =>
      dsimp only
      have hc := hbody c hb
      by_cases hzero : c.remaining = 0
      · unfold UdfSeekReader.dataEvent
        rw [if_pos hzero]
        exact of_ok rfl ⟨hentries, fun c hc => (by cases hc), hchunk, hunlimited⟩
      · by_cases hfits : r.decodedTotal + min c.remaining r.eventChunk ≤ u64Max
        · obtain ⟨bytes, c', hevent, -, hc', -⟩ :=
            dataEvent_piece hchunk hunlimited hc (by omega) hfits
          rw [hevent]
          refine of_ok rfl ⟨hentries, fun c'' hc'' => ?_, hchunk, hunlimited⟩
          obtain rfl := UdfBody.data.inj hc''
          exact hc'
        · rw [dataEvent_overflow hchunk hc (by omega) (by omega)]
          refine ⟨fun _ _ h => by simp only [reduceCtorEq] at h, fun e h => ?_⟩
          obtain rfl := Except.error.inj h
          exact ⟨rfl, c, rfl, by omega⟩
    | endEntry =>
      exact of_ok rfl ⟨hentries, fun c hc => (by cases hc), hchunk, hunlimited⟩
    | done =>
      exact of_ok rfl ⟨hentries, hbody, hchunk, hunlimited⟩

theorem Sound.skipEntry (h : Sound v maximum r) (hskip : r.skipEntry = .ok r') :
    Sound v maximum r' := by
  obtain ⟨hentries, hbody, hchunk, hunlimited⟩ := h
  unfold UdfSeekReader.skipEntry at hskip
  cases hb : r.body with
  | idle => rw [hb] at hskip; cases hskip
  | done => rw [hb] at hskip; cases hskip
  | data c => rw [hb] at hskip; cases hskip; exact ⟨hentries, nofun, hchunk, hunlimited⟩
  | endEntry => rw [hb] at hskip; cases hskip; exact ⟨hentries, nofun, hchunk, hunlimited⟩

/-- The bytes of the data events. -/
def dataLength : List ReaderEvent → ℕ
  | [] => 0
  | .data bytes :: events => bytes.length + dataLength events
  | _ :: events => dataLength events

/-- A file of the index, next in line. -/
structure NextFile (v : Volume) (r : UdfSeekReader) (f : FileEntry) (e : UdfIndex) : Prop where
  idle : r.body = .idle
  metadata : r.archiveMetadata = none
  entry : r.entries[r.nextEntry]? = some e
  size : e.metadata.size = some f.informationLength
  payload : e.payload ≠ .none
  fitting : Fitting v.image e.payload f.informationLength.toNat

/-- Opening a file. -/
theorem NextFile.next {f : FileEntry} (h : NextFile v r f e) :
    r.nextEvent v = .ok (some (.entry e.metadata), { r with
      nextEntry := r.nextEntry + 1,
      body := .data { payload := e.payload, remaining := f.informationLength.toNat } }) := by
  obtain ⟨hidle, hmetadata, hentry, hsize, hpayload, hfitting⟩ := h
  have hmax : f.informationLength.toNat ≤ u64Max := by
    have := f.informationLength.toNat_lt
    unfold u64Max
    omega
  have hnew := (hfitting.new hmax).1
  unfold UdfSeekReader.nextEvent
  rw [hmetadata, hidle]
  dsimp only
  rw [hentry]
  dsimp only
  rw [hsize, Option.map_some, Option.getD_some]
  cases he : e.payload with
  | none => exact absurd he hpayload
  | inline data location =>
    rw [he] at hnew
    dsimp only
    rw [hnew, ok_bind]
  | extents es =>
    rw [he] at hnew
    dsimp only
    rw [hnew, ok_bind]

/-- A reader as `new` leaves it: over the index, with no limit but the in-flight one. -/
structure Opened (v : Volume) (maximum : Option ℕ) (start : UdfSeekReader) : Prop where
  entries : ∀ e ∈ start.entries, Indexed v maximum e
  inFlight : start.limits.inFlightBytes ≠ some 0
  unlimited : start.limits.decodedTotal = none
  chunk : start.eventChunk = eventChunk start.limits
  idle : start.body = .idle

theorem Opened.sound {start : UdfSeekReader} (h : Opened v maximum start) :
    Sound v maximum start := by
  refine ⟨h.entries, fun c hc => ?_, ?_, h.unlimited⟩
  · rw [h.idle] at hc
    cases hc
  · rw [h.chunk]
    unfold eventChunk
    cases hlimit : start.limits.inFlightBytes with
    | none => decide
    | some limit =>
      have hne := h.inFlight
      rw [hlimit] at hne
      rw [Option.getD_some]
      have : limit ≠ 0 := fun hzero => hne (by rw [hzero])
      omega

/-- A volume of one block, with sparable packets of one block. -/
def holeVolume : Volume where
  image := List.replicate 2048 0
  partitions := [⟨1, .sparable ⟨0, 1, [], by decide⟩⟩]
  length_le := by rw [List.length_replicate]; decide
  wellFormed := by
    intro p hp
    obtain rfl := List.mem_singleton.mp hp
    trivial

/-- A file with one extended descriptor: an extent that is not allocated, of `2 ^ 32 - 1` bytes. -/
def holeFile : FileEntry where
  allocationType := 2
  allocation := [0, 8, 0, 128, 0, 0, 0, 0, 255, 255, 255, 255, 0, 0, 0, 0, 0, 0, 0, 0]
  partitionRef := 0
  logicalBlock := 0
  informationLength := 4294967295
  constraint := .any

/-- Its place in the index. -/
def holeIndex : UdfIndex :=
  ⟨fileMetadata ⟨.file, ⟨bstr "hole", .utf8⟩, none, none, none, {}, {}, none, none, none, none, [],
    [], [], 0, none, false, none, []⟩ holeFile [⟨0, 4294967295, by decide, by decide⟩],
    .extents [⟨none, 4294967295, 0⟩]⟩

/-- The reader after some files of one length. -/
def after (r : UdfSeekReader) (n length : ℕ) : UdfSeekReader :=
  { r with nextEntry := r.nextEntry + n, body := .idle, decodedTotal := r.decodedTotal + n * length }

end LibarchiveOxide.Udf.Contents
