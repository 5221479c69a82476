import LibarchiveOxide.Lib.Result
import LibarchiveOxide.Xar.Reader

/-! # Decoding one payload

A decoder holds its place in the heap blob: what its codec has consumed, what it has read ahead and
what is left on the heap are the blob, and what the codec has written has been delivered. When it
has nothing more to deliver its stream has ended. -/

namespace LibarchiveOxide.Xar.Payloads

open Core.Failure Core.Budget Core.Metadata Lib.Slice Lib.Result Stream.Event Xar.Reader

/-! ### Streams of a codec -/

/-- Calls of a codec that do not end its stream consume `x` and write `y`. -/
inductive Calls (c : Codec) : List Byte → List Byte → c.State → Prop
  | new : Calls c [] [] c.new
  | step {x y : List Byte} {s : c.State} (h : Calls c x y s) (input : List Byte) (room : ℕ)
      (finish : Bool) (hs : (c.decode s input room finish).status ≠ .streamEnd) :
      Calls c (x ++ input.take (c.decode s input room finish).consumed)
        (y ++ (c.decode s input room finish).written) (c.decode s input room finish).state

/-- `stream` is a whole stream of the codec, which decodes to `content`: its last byte is consumed by
the call that ends the stream. -/
inductive Decodes (c : Codec) : List Byte → List Byte → Prop
  | intro {x y : List Byte} {s : c.State} (h : Calls c x y s) (input : List Byte) (room : ℕ)
      (finish : Bool) (hs : (c.decode s input room finish).status = .streamEnd) :
      Decodes c (x ++ input.take (c.decode s input room finish).consumed)
        (y ++ (c.decode s input room finish).written)

/-! ### Blobs -/

variable {a : Archive} {d : XarData} {input input' : Input} {produced bytes : List Byte}
  {room fuel : ℕ} {p : Payload a}

/-- Where the blob of a file starts. -/
def Archive.blobStart (a : Archive) (d : XarData) : ℕ := a.heapStart + d.offset

/-- Where it ends. -/
def Archive.blobEnd (a : Archive) (d : XarData) : ℕ := a.heapStart + d.offset + d.storedSize

/-- The blob of a file. -/
def Archive.blob (a : Archive) (d : XarData) : List Byte :=
  window a.image (Archive.blobStart a d) (Archive.blobEnd a d)

/-- The heap from the position of the source on. -/
def ahead (a : Archive) (input : Input) (count : ℕ) : List Byte :=
  window a.image input.position (input.position + count)

/-- The payload decodes to `content`, and its encoded stream is the blob. -/
def Exact (a : Archive) (d : XarData) (content : List Byte) : Prop :=
  match d.encoding with
  | .stored => Archive.blob a d = content
  | .zlib => Decodes a.zlib (Archive.blob a d) content
  | .bzip2 => Decodes a.bzip2 (Archive.blob a d) content
  | .unsupported => False

/-- The payload decodes to `content`. A zlib stream may end before the blob does. -/
def Delivers (a : Archive) (d : XarData) (content : List Byte) : Prop :=
  match d.encoding with
  | .zlib => ∃ stream, stream <+: Archive.blob a d ∧ Decodes a.zlib stream content
  | _ => Exact a d content

/-- A decoder stands where what it has produced leaves it. -/
structure Inflates (a : Archive) (d : XarData) (c : Codec) (input : Input) (s : Inflating c.State)
    (produced : List Byte) : Prop where
  position : input.position + s.compRemaining = Archive.blobEnd a d
  codec : ∃ consumed, Archive.blob a d = consumed ++ (s.unread ++ ahead a input s.compRemaining) ∧
    (s.finished = false → Calls c consumed produced s.state) ∧
    (s.finished = true → Decodes c consumed produced)

/-- A payload stands where what it has produced leaves it. -/
def Holds (a : Archive) (d : XarData) (input : Input) (produced : List Byte) : Payload a → Prop
  | .stored remaining => d.encoding = .stored ∧
      input.position + remaining = Archive.blobEnd a d ∧
      Archive.blob a d = produced ++ ahead a input remaining
  | .zlib s => d.encoding = .zlib ∧ Inflates a d a.zlib input s produced
  | .bzip2 s => d.encoding = .bzip2 ∧ Inflates a d a.bzip2 input s produced ∧
      (s.finished = true → s.unread = [] ∧ s.compRemaining = 0)

/-- A payload has nothing more to deliver. -/
def Ended : Payload a → Prop
  | .stored remaining => remaining = 0
  | .zlib s => s.finished = true
  | .bzip2 s => s.finished = true

@[simp] theorem ahead_zero : ahead a input 0 = [] := by simp [ahead, window]

/-- **At the end.** What has been produced is what the payload decodes to. -/
theorem delivers_of_ended (h : Holds a d input produced p) (he : Ended p) :
    Delivers a d produced := by
  cases p with
  | stored remaining =>
    obtain ⟨henc, -, hblob⟩ := h
    rw [show remaining = 0 from he, ahead_zero, List.append_nil] at hblob
    rw [Delivers, henc]
    simp only [Exact, henc]
    exact hblob
  | zlib s =>
    obtain ⟨henc, -, consumed, hblob, -, hend⟩ := h
    rw [Delivers, henc]
    exact ⟨consumed, ⟨_, hblob.symm⟩, hend he⟩
  | bzip2 s =>
    obtain ⟨henc, ⟨-, consumed, hblob, -, hend⟩, hall⟩ := h
    obtain ⟨hunread, hcomp⟩ := hall he
    rw [hunread, hcomp, ahead_zero, List.append_nil, List.append_nil] at hblob
    rw [Delivers, henc]
    simp only [Exact, henc, hblob]
    exact hend he

/-! ### Reads -/

/-- A read inside the blob moves the bytes it returns from the heap. -/
theorem read_spec (want count : ℕ) (hend : input.position + count ≤ a.image.length)
    (hw : want ≤ count) :
    (a.read input want).1.length ≤ want ∧
      (a.read input want).2.position = input.position + (a.read input want).1.length ∧
      ahead a input count =
        (a.read input want).1 ++
          ahead a (a.read input want).2 (count - (a.read input want).1.length) := by
  have hk : min want (a.grant input.reads + 1) ≤ want := min_le_left _ _
  generalize hmin : min want (a.grant input.reads + 1) = k at hk
  have hlen : (window a.image input.position (input.position + k)).length = k := by
    rw [length_window_of_le (by omega)]
    omega
  simp only [Archive.read, hmin, hlen, ahead]
  refine ⟨hk, trivial, ?_⟩
  rw [← window_join a.image (show input.position ≤ input.position + k by omega)
    (show input.position + k ≤ input.position + count by omega)]
  congr 2
  omega

/-- A refill moves bytes from the heap to the decoder. -/
theorem refill_spec {c : Codec} {s s' : Inflating c.State} {message : String}
    (hend : Archive.blobEnd a d ≤ a.image.length) (h : Inflates a d c input s produced)
    (hr : a.refill input s message = .ok (input', s')) :
    Inflates a d c input' s' produced ∧ s'.finished = s.finished := by
  unfold Archive.refill at hr
  split_ifs at hr with hempty
  · obtain ⟨hunread, hpos⟩ := hempty
    dsimp only at hr
    split_ifs at hr
    cases hr
    obtain ⟨hposition, consumed, hblob, hrun, hdone⟩ := h
    obtain ⟨hle, hmove, hsplit⟩ := read_spec (min s.compRemaining buffer) s.compRemaining
      (by rw [hposition]; exact hend) (min_le_left _ _)
    refine ⟨⟨?_, consumed, ?_, hrun, hdone⟩, rfl⟩
    · dsimp only
      have := min_le_left s.compRemaining buffer
      omega
    · rw [hblob, hunread, List.nil_append, hsplit]
  · cases hr
    exact ⟨h, rfl⟩

/-- A call of the codec moves what it consumes and writes. -/
theorem after_spec {c : Codec} {s : Inflating c.State} (room : ℕ) (finish : Bool)
    (h : Inflates a d c input s produced) (hf : s.finished = false) :
    let r := c.decode s.state s.unread room finish
    (r.status ≠ .streamEnd → Inflates a d c input (s.after r) (produced ++ r.written)) ∧
      (r.status = .streamEnd →
        Inflates a d c input { s.after r with finished := true } (produced ++ r.written)) := by
  obtain ⟨hposition, consumed, hblob, hrun, -⟩ := h
  have hcalls := hrun hf
  have hsplit : consumed ++ (s.unread ++ ahead a input s.compRemaining) =
      consumed ++ s.unread.take (c.decode s.state s.unread room finish).consumed ++
        (s.unread.drop (c.decode s.state s.unread room finish).consumed ++
          ahead a input s.compRemaining) := by
    rw [List.append_assoc, ← List.append_assoc (s.unread.take _), List.take_append_drop]
  refine ⟨fun hs => ⟨hposition, _, hblob.trans hsplit, fun _ => ?_, fun hd => ?_⟩,
    fun hs => ⟨hposition, _, hblob.trans hsplit, fun hd => ?_, fun _ => ?_⟩⟩
  · exact .step hcalls s.unread room finish hs
  · exact absurd (hf.symm.trans hd) Bool.false_ne_true
  · exact absurd hd.symm Bool.false_ne_true
  · exact .intro hcalls s.unread room finish hs

/-! ### The decoders -/

theorem readZlib_spec (hend : Archive.blobEnd a d ≤ a.image.length) :
    ∀ {fuel : ℕ} {input : Input} {s : Inflating a.zlib.State},
      Inflates a d a.zlib input s produced → ∀ {s' : Inflating a.zlib.State},
        readZlib a room fuel input s = some (.ok (bytes, input', s')) →
          Inflates a d a.zlib input' s' (produced ++ bytes) ∧ bytes.length ≤ room ∧
            (bytes = [] → s'.finished = true)
  | 0, _, _, _, _, h => by cases h
  | fuel + 1, input, s, hs, s', h => by
    unfold readZlib at h
    by_cases hf : s.finished = true
    · rw [if_pos hf] at h
      cases h
      rw [List.append_nil]
      exact ⟨hs, Nat.zero_le _, fun _ => hf⟩
    · rw [if_neg hf] at h
      split at h
      · cases h
      · next input1 s1 hr =>
        obtain ⟨hs1, hf1⟩ := refill_spec hend hs hr
        have hfalse : s1.finished = false := by rw [hf1]; exact Bool.eq_false_iff.mpr hf
        obtain ⟨hgo, hstop⟩ := after_spec room (s1.compRemaining == 0) hs1 hfalse
        have hw := a.zlib.written_le s1.state s1.unread room (s1.compRemaining == 0)
        generalize a.zlib.decode s1.state s1.unread room (s1.compRemaining == 0) = r
          at h hgo hstop hw
        dsimp only at h hgo hstop
        -- a call without output goes round again
        have hagain : r.status ≠ .streamEnd →
            (if r.written ≠ [] then some (.ok (r.written, input1, s1.after r))
            else if (s1.after r).unread = [] ∧ (s1.after r).compRemaining = 0 then
              some (.error (xarError .malformed "xar zlib blob ended without stream end"))
            else readZlib a room fuel input1 (s1.after r)) = some (.ok (bytes, input', s')) →
            Inflates a d a.zlib input' s' (produced ++ bytes) ∧ bytes.length ≤ room ∧
              (bytes = [] → s'.finished = true) := by
          intro hne h
          split_ifs at h with hout
          · cases h
            exact ⟨hgo hne, hw, fun hnil => absurd hnil hout⟩
          · cases h
          · have hnil : r.written = [] := not_not.mp hout
            have hgo' := hgo hne
            rw [hnil, List.append_nil] at hgo'
            exact readZlib_spec hend hgo' h
        cases hst : r.status with
        | streamEnd =>
          rw [hst] at h
          cases h
          exact ⟨hstop hst, hw, fun _ => rfl⟩
        | ok =>
          rw [hst] at h
          exact hagain (by rw [hst]; exact Status.noConfusion) h
        | buf =>
          rw [hst] at h
          exact hagain (by rw [hst]; exact Status.noConfusion) h
        | memNeeded =>
          rw [hst] at h
          cases h
        | failed =>
          rw [hst] at h
          cases h

theorem readBzip2Payload_spec (hend : Archive.blobEnd a d ≤ a.image.length) :
    ∀ {fuel : ℕ} {input : Input} {s : Inflating a.bzip2.State},
      Inflates a d a.bzip2 input s produced →
      (s.finished = true → s.unread = [] ∧ s.compRemaining = 0) →
      ∀ {s' : Inflating a.bzip2.State},
        readBzip2Payload a room fuel input s = some (.ok (bytes, input', s')) →
          Inflates a d a.bzip2 input' s' (produced ++ bytes) ∧
            (s'.finished = true → s'.unread = [] ∧ s'.compRemaining = 0) ∧ bytes.length ≤ room ∧
            (bytes = [] → s'.finished = true)
  | 0, _, _, _, _, _, h => by cases h
  | fuel + 1, input, s, hs, hall, s', h => by
    unfold readBzip2Payload at h
    by_cases hf : s.finished = true
    · rw [if_pos hf] at h
      cases h
      rw [List.append_nil]
      exact ⟨hs, hall, Nat.zero_le _, fun _ => hf⟩
    · rw [if_neg hf] at h
      split at h
      · cases h
      · next input1 s1 hr =>
        obtain ⟨hs1, hf1⟩ := refill_spec hend hs hr
        have hfalse : s1.finished = false := by rw [hf1]; exact Bool.eq_false_iff.mpr hf
        obtain ⟨hgo, hstop⟩ := after_spec room false hs1 hfalse
        have hw := a.bzip2.written_le s1.state s1.unread room false
        generalize a.bzip2.decode s1.state s1.unread room false = r at h hgo hstop hw
        dsimp only at h hgo hstop
        have hopen : (s1.after r).finished = true →
            (s1.after r).unread = [] ∧ (s1.after r).compRemaining = 0 :=
          fun hd => absurd (hfalse.symm.trans hd) Bool.false_ne_true
        -- a call without output goes round again
        have hagain : r.status ≠ .streamEnd →
            (if r.written ≠ [] then some (.ok (r.written, input1, s1.after r))
            else if r.consumed = 0 ∧ (s1.after r).unread ≠ [] then
              some (.error (xarError .protocol "xar bzip2 decoder made no progress"))
            else if (s1.after r).unread = [] ∧ (s1.after r).compRemaining = 0 then
              some (.error (xarError .malformed "xar bzip2 blob ended without stream end"))
            else readBzip2Payload a room fuel input1 (s1.after r)) =
              some (.ok (bytes, input', s')) →
            Inflates a d a.bzip2 input' s' (produced ++ bytes) ∧
              (s'.finished = true → s'.unread = [] ∧ s'.compRemaining = 0) ∧
              bytes.length ≤ room ∧ (bytes = [] → s'.finished = true) := by
          intro hne h
          split_ifs at h with hout
          · cases h
            exact ⟨hgo hne, hopen, hw, fun hnil => absurd hnil hout⟩
          · cases h
          · cases h
          · have hnil : r.written = [] := not_not.mp hout
            have hgo' := hgo hne
            rw [hnil, List.append_nil] at hgo'
            exact readBzip2Payload_spec hend hgo' hopen h
        cases hst : r.status with
        | streamEnd =>
          rw [hst] at h
          dsimp only at h
          split_ifs at h with hleft
          · cases h
          cases h
          rw [not_or, not_not, not_not] at hleft
          exact ⟨hstop hst, fun _ => ⟨hleft.2, hleft.1⟩, hw, fun _ => rfl⟩
        | ok =>
          rw [hst] at h
          exact hagain (by rw [hst]; exact Status.noConfusion) h
        | buf =>
          rw [hst] at h
          exact hagain (by rw [hst]; exact Status.noConfusion) h
        | memNeeded =>
          rw [hst] at h
          cases h
        | failed =>
          rw [hst] at h
          cases h

/-- **One read of a payload.** What it returns has been produced; it returns nothing only at the
end. -/
theorem readPayload_spec (hend : Archive.blobEnd a d ≤ a.image.length)
    (hp : Holds a d input produced p) {q : Option (Payload a)}
    (h : readPayload a fuel input (some p) room = some (.ok (bytes, input', q))) :
    ∃ p', q = some p' ∧ Holds a d input' (produced ++ bytes) p' ∧ bytes.length ≤ room ∧
      (bytes = [] → 0 < room → Ended p') := by
  unfold readPayload at h
  dsimp only at h
  split_ifs at h with hroom
  · cases h
    rw [List.append_nil]
    exact ⟨p, rfl, hp, Nat.zero_le _, fun _ hpos => by omega⟩
  · cases p with
    | stored remaining =>
      obtain ⟨henc, hposition, hblob⟩ := hp
      dsimp only at h
      split_ifs at h with hzero hempty
      · cases h
        subst hzero
        rw [List.append_nil]
        exact ⟨_, rfl, ⟨henc, hposition, hblob⟩, Nat.zero_le _, fun _ _ => rfl⟩
      · cases h
      · cases h
        obtain ⟨hle, hmove, hsplit⟩ := read_spec (min remaining room) remaining
          (by rw [hposition]; exact hend) (min_le_left _ _)
        refine ⟨_, rfl, ⟨henc, ?_, ?_⟩, hle.trans (min_le_right _ _), fun hnil => ?_⟩
        · have := min_le_left remaining room
          omega
        · rw [hblob, hsplit, List.append_assoc]
        · exact absurd hnil hempty
    | zlib s =>
      obtain ⟨henc, hs⟩ := hp
      obtain ⟨r, hr, hmap⟩ := Option.map_eq_some_iff.mp h
      obtain ⟨⟨bytes1, input1, s1⟩, rfl, hout⟩ := map_eq_ok.mp hmap
      cases hout
      obtain ⟨hs', hle, hfin⟩ := readZlib_spec hend hs hr
      exact ⟨_, rfl, ⟨henc, hs'⟩, hle, fun hnil _ => hfin hnil⟩
    | bzip2 s =>
      obtain ⟨henc, hs, hall⟩ := hp
      obtain ⟨r, hr, hmap⟩ := Option.map_eq_some_iff.mp h
      obtain ⟨⟨bytes1, input1, s1⟩, rfl, hout⟩ := map_eq_ok.mp hmap
      cases hout
      obtain ⟨hs', hall', hle, hfin⟩ := readBzip2Payload_spec hend hs hall hr
      exact ⟨_, rfl, ⟨henc, hs', hall'⟩, hle, fun hnil _ => hfin hnil⟩

/-- **Filling a buffer.** -/
theorem fill_spec (hend : Archive.blobEnd a d ≤ a.image.length) :
    ∀ {rounds : ℕ} {input : Input} {p : Payload a} {produced : List Byte} {room : ℕ},
      Holds a d input produced p → ∀ {bytes : List Byte} {q : Option (Payload a)},
        fill a fuel rounds input (some p) room = some (.ok (bytes, input', q)) →
          ∃ p', q = some p' ∧ Holds a d input' (produced ++ bytes) p' ∧ bytes.length ≤ room
  | 0, input, p, produced, room, hp, bytes, q, h => by
    cases h
    rw [List.append_nil]
    exact ⟨p, rfl, hp, Nat.zero_le _⟩
  | rounds + 1, input, p, produced, room, hp, bytes, q, h => by
    unfold fill at h
    split_ifs at h with hroom
    · cases h
      rw [List.append_nil]
      exact ⟨p, rfl, hp, Nat.zero_le _⟩
    · split at h
      · cases h
      · cases h
      · next hr =>
        cases h
        obtain ⟨p', rfl, hp', -, -⟩ := readPayload_spec hend hp hr
        exact ⟨p', rfl, hp', Nat.zero_le _⟩
      · next hr =>
        obtain ⟨p1, rfl, hp1, hle1, -⟩ := readPayload_spec hend hp hr
        obtain ⟨r, hfill, hmap⟩ := Option.map_eq_some_iff.mp h
        obtain ⟨⟨more, input2, q2⟩, rfl, hout⟩ := map_eq_ok.mp hmap
        cases hout
        obtain ⟨p2, rfl, hp2, hle2⟩ := fill_spec hend hp1 hfill
        refine ⟨p2, rfl, ?_, ?_⟩
        · rw [← List.append_assoc]
          exact hp2
        · rw [List.length_append]
          omega

end LibarchiveOxide.Xar.Payloads
