import LibarchiveOxide.Filter.LzipMembers

/-! # What the lzip worker accepts

A well-formed member sequence is accepted with any modest reader, and only such a sequence with any
reader. A reader that looks for bytes at the end of the input, or that keeps more than the worker takes
back, is turned down at its first payload. -/

namespace LibarchiveOxide.Filter.Lzip

open Core.Failure Core.Budget Codecs.Crc Filter.Worker

variable {R : LzmaReader} {L : Payloads}

/-- **The worker accepts member sequences**, and only these: the outputs are then the contents, and in
every run they stay within the limit. -/
theorem accepts_members (hR : Decodes R L) (usage : ℕ → Except String ℕ) (maximum : Option ℕ)
    (messages : List InputMessage) (front : ℕ → ℕ) :
    (∀ rounds members outputs,
      decodeWorker R usage (decodedLimits maximum) messages front rounds members
        = some ⟨outputs, .ok ()⟩ → WellFormed L (queuedBytes messages) outputs.flatten) ∧
    (Modest R L → ∀ content, WellFormed L (queuedBytes messages) content →
      (queuedBytes messages).length ≤ u64Max → content.length ≤ u64Max →
      Within content.length maximum →
      ∃ outputs, decodeWorker R usage (decodedLimits maximum) messages front (content.length + 1)
        ((queuedBytes messages).length + 1) = some ⟨outputs, .ok ()⟩ ∧ outputs.flatten = content) ∧
    ∀ rounds members outputs result,
      decodeWorker R usage (decodedLimits maximum) messages front rounds members
        = some ⟨outputs, result⟩ →
      outputs.flatten.length ≤ u64Max ∧ Within outputs.flatten.length maximum := by
  have hrest : ({ queue := messages, front := front } : InputPipe).rest = queuedBytes messages := rfl
  have hsound : ∀ rounds members outputs,
      decodeWorker R usage (decodedLimits maximum) messages front rounds members
        = some ⟨outputs, .ok ()⟩ → WellFormed L (queuedBytes messages) outputs.flatten := by
    intro rounds members outputs h
    obtain ⟨content, hs, ho, hne⟩ := memberLoop_members hR members h
    rw [hrest] at hs hne
    rw [List.flatten_nil, List.nil_append] at ho
    exact ⟨hne rfl, ho ▸ hs⟩
  refine ⟨hsound, ?_, ?_⟩
  · intro hM content hw hin hlen hmax
    obtain ⟨outputs, h⟩ := @memberLoop_complete _ _ _ usage hR hM _ _ hw.2 _ _ _ _ [] _ hrest
      (Nat.zero_le _) (fun _ => hw.1) (Nat.lt_succ_self _) (Nat.lt_succ_self _)
      (by rw [Nat.zero_add]; exact hin) (by rw [Nat.zero_add]; exact hlen)
      (by rw [Nat.zero_add]; exact hmax)
    exact ⟨outputs, h, ((hsound _ _ _ h).2.content_eq hR hw.2)⟩
  · intro rounds members outputs result h
    have hstart : Accounted maximum [] 0 := ⟨rfl, Nat.zero_le _, within_zero _⟩
    obtain ⟨total, ht⟩ := memberLoop_accounted hR members hstart h
    rw [ht.outputs]
    exact ⟨ht.counter, ht.budget⟩

/-! ### Scripted readers -/

variable {payload content : List Byte}

/-- Fetches these bytes one by one. -/
def expect {α : Type} : List Byte → Fetching (Except IoError α) → Fetching (Except IoError α)
  | [], next => next
  | b :: bytes, next => .fetch 1 fun found =>
    if found = [b] then expect bytes next else .done (.error (invalidData "corrupted"))

/-- Fetches up to so many bytes at a time, and ends with all of them. -/
def lookAhead {α : Type} (result : List Byte → α) : List ℕ → List Byte → Fetching α
  | [], unread => .done (result unread)
  | n :: lengths, unread => .fetch n fun found => lookAhead result lengths (unread ++ found)

/-- A reader that knows one payload, and behind it fetches bytes in these lengths. It stands at the
content that is still to be given, with the bytes that it keeps. -/
def scripted (payload content : List Byte) (lengths : List ℕ) : LzmaReader where
  State := List Byte × List Byte
  new _ := expect payload (lookAhead (fun unread => .ok (content, unread)) lengths [])
  read state n := .done (.ok (state.1.take n), state.1.drop n, state.2)
  unread state := state.2

/-- Its one payload. -/
def Only (payload content : List Byte) : Payloads := fun _ p x => p = payload ∧ x = content

theorem ends_expect {α : Type} {next : Fetching (Except IoError α)} :
    ∀ {bytes fetched left : List Byte} {r : Except IoError α} {met : Bool},
      (expect bytes next).Ends fetched left r met →
      (∃ more, fetched = bytes ++ more ∧ next.Ends more left r met) ∨
        (∃ e, r = .error e) ∧ ¬ bytes <+: fetched ++ left
  | [], fetched, left, r, met, h => Or.inl ⟨fetched, rfl, h⟩
  | b :: bytes, _, left, r, _, @Fetching.Ends.fetch _ _ _ found fetched _ _ met hn hb h => by
    beta_reduce at h
    by_cases hf : found = [b]
    · rw [if_pos hf] at h
      rcases ends_expect h with ⟨more, rfl, he⟩ | ⟨he, hp⟩
      · refine Or.inl ⟨more, by rw [hf]; rfl, ?_⟩
        simpa [hf] using he
      · refine Or.inr ⟨he, ?_⟩
        rw [hf]
        simpa using hp
    · rw [if_neg hf] at h
      cases h
      refine Or.inr ⟨⟨_, rfl⟩, fun hp => ?_⟩
      match found, hn, hb, hf, hp with
      | [], _, hb, _, hp =>
        have hnil := hb Nat.one_pos rfl
        simp at hnil
        simp [hnil] at hp
      | [c], _, _, hf, hp =>
        simp only [List.append_nil, List.cons_append, List.nil_append, List.cons_prefix_cons] at hp
        exact hf (by rw [hp.1])
      | _ :: _ :: _, hn, _, _, _ => simp at hn

theorem ends_lookAhead {α : Type} {result : List Byte → α} :
    ∀ {lengths : List ℕ} {unread fetched left : List Byte} {r : α} {met : Bool},
      (lookAhead result lengths unread).Ends fetched left r met →
      r = result (unread ++ fetched) ∧ fetched.length ≤ lengths.sum
  | [], unread, _, _, _, _, .done => ⟨by rw [List.append_nil], le_rfl⟩
  | n :: lengths, unread, _, _, _, _, .fetch hn _ h => by
    obtain ⟨hr, hl⟩ := ends_lookAhead h
    refine ⟨by rw [hr, List.append_assoc], ?_⟩
    rw [List.length_append, List.sum_cons]
    omega

/-- A single look ahead does not meet the end before it has seen all bytes. -/
theorem met_lookAhead {α : Type} {result : List Byte → α} {n : ℕ} {fetched left : List Byte} {r : α}
    {met : Bool} (h : (lookAhead result [n] []).Ends fetched left r met) (hne : fetched ++ left ≠ []) :
    met = false := by
  generalize hf : lookAhead result [n] [] = f at h
  cases h with
  | done => cases hf
  | @fetch m next bytes rest left r met hn hb h =>
    obtain ⟨rfl, rfl⟩ := Fetching.fetch.inj hf
    cases h
    rw [Bool.or_false, decide_eq_false_iff_not]
    rintro ⟨hpos, rfl⟩
    exact hne (by simpa using hb hpos rfl)

/-- Where a scripted reader stands. -/
theorem reading_scripted {lengths : List ℕ} {dictionary : ℕ} {fetched left given : List Byte}
    {state : (scripted payload content lengths).State}
    (h : Reading (scripted payload content lengths) dictionary fetched left given state) :
    fetched = payload ++ state.2 ∧ given ++ state.1 = content ∧ state.2.length ≤ lengths.sum := by
  induction h with
  | new h =>
    rcases ends_expect h with ⟨more, rfl, he⟩ | ⟨⟨e, he⟩, -⟩
    · obtain ⟨hr, hl⟩ := ends_lookAhead he
      obtain rfl := Except.ok.inj hr
      exact ⟨rfl, rfl, hl⟩
    · cases he
  | @read fetched more left given bytes state next n hs hn hb h ih =>
    generalize hr : (Except.ok bytes, next) = r at h
    cases h
    obtain ⟨hb, rfl⟩ := Prod.mk.inj hr
    obtain rfl := Except.ok.inj hb
    obtain ⟨h1, h2, h3⟩ := ih
    refine ⟨by rw [List.append_nil, h1], ?_, h3⟩
    rw [List.append_assoc, List.take_append_drop, h2]

theorem decodes_scripted (payload content : List Byte) (lengths : List ℕ) :
    Decodes (scripted payload content lengths) (Only payload content) where
  unique := by
    rintro _ _ _ _ _ _ _ ⟨rfl, rfl⟩ ⟨rfl, rfl⟩ -
    exact ⟨rfl, rfl⟩
  fits := by
    intro state n more left bytes next met h
    generalize hr : (Except.ok bytes, next) = r at h
    cases h
    obtain rfl := Except.ok.inj (Prod.mk.inj hr).1
    exact List.length_take_le _ _
  opens := by
    rintro dictionary _ _ t fetched left r met ⟨rfl, rfl⟩ hin h
    rcases ends_expect h with ⟨more, rfl, he⟩ | ⟨-, hp⟩
    · exact ⟨_, (ends_lookAhead he).1⟩
    · exact absurd (hin ▸ List.prefix_append _ _) hp
  gives := by
    rintro dictionary _ _ t fetched more left given state n r next met ⟨rfl, rfl⟩ - hs - h
    generalize hr : (r, next) = result at h
    cases h
    obtain rfl := (Prod.mk.inj hr).1
    refine ⟨_, rfl, state.1.drop n, ?_⟩
    rw [List.append_assoc, List.take_append_drop, (reading_scripted hs).2.1]
  keeps := by
    intro dictionary fetched more left given state n next hs hn h
    generalize hr : ((Except.ok [] : Except IoError (List Byte)), next) = result at h
    cases h
    obtain ⟨hb, rfl⟩ := Prod.mk.inj hr
    obtain ⟨h1, h2, -⟩ := reading_scripted hs
    refine ⟨payload, ⟨rfl, ?_⟩, by rw [List.append_nil, h1]; rfl⟩
    rcases List.take_eq_nil_iff.mp (Except.ok.inj hb).symm with h0 | h0
    · omega
    · rw [← h2, h0, List.append_nil]

/-- A single look ahead is modest. -/
theorem modest_scripted (payload content : List Byte) {n : ℕ} (hn : n ≤ maxStaged) :
    Modest (scripted payload content [n]) (Only payload content) where
  opens := by
    rintro dictionary _ _ t fetched left r met ⟨rfl, rfl⟩ hin ht h
    rcases ends_expect h with ⟨more, rfl, he⟩ | ⟨-, hp⟩
    · refine met_lookAhead he fun hnil => ?_
      rw [List.append_assoc, hnil, List.append_nil] at hin
      have ht' := congrArg List.length hin
      rw [List.length_append] at ht'
      have hpos : 0 < trailerSize := by decide
      omega
    · exact absurd (hin ▸ List.prefix_append _ _) hp
  gives := by
    rintro dictionary _ _ t fetched more left given state n r next met - - - - - h
    generalize hr : (r, next) = result at h
    cases h
    rfl
  keeps := by
    rintro dictionary fetched more left given state n' next hs - h
    generalize hr : ((Except.ok [] : Except IoError (List Byte)), next) = result at h
    cases h
    obtain ⟨-, rfl⟩ := Prod.mk.inj hr
    obtain ⟨-, -, h3⟩ := reading_scripted hs
    exact h3.trans (by simpa using hn)

/-! ### One letter -/

/-- The LZMA payload of one letter. -/
def letterPayload : List Byte := [0x00, 0x30, 0xc1, 0xfb, 0xff, 0xff, 0xff, 0xe0, 0x00, 0x00, 0x00]

/-- The letter. -/
def letter : List Byte := [0x61]

/-- The header of its member. -/
def letterHeader : List Byte := lzipMagic ++ [lzipVersion, 0x0c]

/-- The trailer of its member. -/
def letterTrailer : List Byte := [0x43, 0xbe, 0xb7, 0xe8, 0x01, 0x00, 0x00, 0x00, 0x00, 0x00, 0x00, 0x00,
  0x25, 0x00, 0x00, 0x00, 0x00, 0x00, 0x00, 0x00]

/-- Its member in two messages. -/
def letterMessages : List InputMessage :=
  [.data letterHeader, .data (letterPayload ++ letterTrailer), .finish]

/-- No package estimates anything here. -/
def noUsage (_ : ℕ) : Except String ℕ := .ok 0

theorem member_letter : Member (Only letterPayload letter)
    (letterHeader ++ (letterPayload ++ letterTrailer)) letter :=
  @Member.intro _ 0x0c 4096 letterPayload letter letterTrailer rfl ⟨rfl, rfl⟩ rfl
    (by decide +kernel) rfl rfl

theorem wellFormed_letter : WellFormed (Only letterPayload letter) (queuedBytes letterMessages) letter :=
  ⟨by decide, .cons member_letter .nil⟩

/-- The member, with a reader that fetches 32 bytes behind its payload and a limit of one byte. -/
theorem accepts_members_letter :
    ∃ outputs, decodeWorker (scripted letterPayload letter [32]) noUsage (decodedLimits (some 1))
      letterMessages (fun _ => 0) 2 38 = some ⟨outputs, .ok ()⟩ ∧ outputs.flatten = letter :=
  (accepts_members (decodes_scripted letterPayload letter [32]) noUsage (some 1) letterMessages
    (fun _ => 0)).2.1 (modest_scripted letterPayload letter (by decide)) letter wellFormed_letter
    (by decide) (by decide) (by rintro _ ⟨⟩; decide)

/-! ### Readers that are turned down -/

variable {maximum : Option ℕ} {outs : List (List Byte)}

/-- A reader that has looked for bytes at the end before its first read. -/
theorem refused_of_eof (dictionary : ℕ) {usage : ℕ → Except String ℕ} {rounds members total : ℕ}
    {outputs : List (List Byte)} {p p' pipe : InputPipe} {index fetched : ℕ} {state : R.State}
    (hh : readMemberHeader p index = .ok (some dictionary, p'))
    (hr : (R.new dictionary).run { p' with eofRead := false } 0 = (.ok state, pipe, fetched))
    (he : pipe.eofRead = true) :
    memberLoop R usage (decodedLimits maximum) rounds members index total outputs p
      ≠ some ⟨outs, .ok ()⟩ := by
  intro h
  cases members with
  | zero => simp [memberLoop] at h
  | succ members =>
    rw [memberLoop, hh] at h
    simp only [decodedLimits, Limits.unlimited, validateDictionaryMemory, hr] at h
    rcases hl : payloadLoop R maximum rounds ⟨state, pipe, fetched, {}, 0, total, outputs⟩ with
      _ | ⟨_, _ | _⟩
    · simp [hl] at h
    · simp [hl] at h
    · exact payloadLoop_eof rounds he hl

/-- A scripted reader keeps what it has fetched. -/
theorem payloadLoop_scripted {lengths : List ℕ} :
    ∀ (rounds : ℕ) {d d' : Decoding (scripted payload content lengths)},
      payloadLoop (scripted payload content lengths) maximum rounds d = some ⟨outs, .ok d'⟩ →
      d'.state.2 = d.state.2
  | 0, _, _, h => by simp [payloadLoop] at h
  | rounds + 1, d, d', h => by
    rw [payloadLoop] at h
    have hrun (n : ℕ) : ((scripted payload content lengths).read d.state n).run d.pipe d.fetched =
        ((.ok (d.state.1.take n), d.state.1.drop n, d.state.2), d.pipe, d.fetched) := rfl
    rw [hrun] at h
    generalize d.state.1.take (capacity (maximum.map (· - d.decodedTotal))) = bytes at h
    by_cases he : d.pipe.eofRead = true
    · simp [he] at h
    · simp only [he, Bool.false_eq_true, if_false] at h
      cases bytes with
      | nil =>
        obtain rfl := Except.ok.inj (Ended.mk.inj (Option.some.inj h)).2
        rfl
      | cons b bytes =>
        simp only at h
        split_ifs at h
        · simp at h
        · simp at h
        · simp at h
        · exact (payloadLoop_scripted rounds h).trans rfl

/-- The payload is fetched one byte after the other. -/
theorem run_expect {α : Type} {next : Fetching (Except IoError α)} {more : List Byte} :
    ∀ {bytes : List Byte} {p : InputPipe} {count : ℕ}, p.readAhead = [] → p.rest = bytes ++ more →
      ∃ pipe, pipe.readAhead = [] ∧ pipe.rest = more ∧
        (expect bytes next).run p count = next.run pipe (count + bytes.length)
  | [], p, count, ha, hp => ⟨p, ha, hp, rfl⟩
  | b :: bytes, p, count, ha, hp => by
    have hread : (p.read 1).1 = [b] := by
      rw [read_full ha Nat.one_pos, hp]
      rfl
    have hrest := (read_ok p Nat.one_pos).1
    rw [hread, hp] at hrest
    have hahead : (p.read 1).2.readAhead = [] := by
      have := length_ahead_read p 1
      rw [ha] at this
      exact List.eq_nil_of_length_eq_zero (Nat.le_zero.mp this)
    obtain ⟨pipe, h1, h2, h3⟩ := @run_expect _ _ _ _ _ (count + 1) hahead
      (List.cons.inj hrest).2.symm
    refine ⟨pipe, h1, h2, ?_⟩
    rw [expect, Fetching.run, hread]
    simp only [if_true, List.length_cons, List.length_nil]
    rw [h3]
    congr 1
    omega

/-- A scripted reader that fetches more behind its payload than goes back. -/
theorem refused_of_ahead (dictionary : ℕ) (more : List Byte) {usage : ℕ → Except String ℕ}
    {n rounds members index total : ℕ} {outputs : List (List Byte)} {p p' : InputPipe}
    (hh : readMemberHeader p index = .ok (some dictionary, p')) (ha : p'.readAhead = [])
    (hp : p'.rest = payload ++ more) (hn : maxStaged < n) (hmore : n ≤ more.length) :
    memberLoop (scripted payload content [n]) usage (decodedLimits maximum) rounds members index total
      outputs p ≠ some ⟨outs, .ok ()⟩ := by
  intro h
  cases members with
  | zero => simp [memberLoop] at h
  | succ members =>
    obtain ⟨pipe, ha', hrest, hrun⟩ := @run_expect _
      (lookAhead (fun unread => .ok (content, unread)) [n] []) _ _ { p' with eofRead := false } 0
      ha hp
    have hunread : (pipe.read n).1.length = n := by
      rw [read_full ha' (Nat.zero_lt_of_lt hn), hrest, List.length_take, min_eq_left hmore]
    have hnew : ((scripted payload content [n]).new dictionary).run { p' with eofRead := false } 0 =
        (.ok (content, (pipe.read n).1), (pipe.read n).2,
          0 + payload.length + (pipe.read n).1.length) := hrun
    rw [memberLoop, hh] at h
    simp only [decodedLimits, Limits.unlimited, validateDictionaryMemory, hnew] at h
    rcases hl : payloadLoop (scripted payload content [n]) maximum rounds
      ⟨(content, (pipe.read n).1), (pipe.read n).2, 0 + payload.length + (pipe.read n).1.length, {}, 0,
        total, outputs⟩ with _ | ⟨_, _ | d⟩
    · rw [hl] at h
      cases h
    · rw [hl] at h
      cases h
    · simp only [hl] at h
      have hkept : (scripted payload content [n]).unread d.state = (pipe.read n).1 :=
        payloadLoop_scripted rounds hl
      have hback : d.pipe.restoreReadAhead (pipe.read n).1 =
          .error (outOfMemory "lzip read-ahead exceeds the staging limit") :=
        if_pos (by rw [hunread]; omega)
      simp only [finishMember, hkept, hback] at h
      by_cases hf : d.fetched < (pipe.read n).1.length
      · simp [hf] at h
      · simp [hf] at h

/-- So many members of a letter. -/
def letters (k : ℕ) : List Byte :=
  (List.replicate k (letterHeader ++ (letterPayload ++ letterTrailer))).flatten

theorem sequence_letters : ∀ k : ℕ,
    Sequence (Only letterPayload letter) (letters k) (List.replicate k letter).flatten
  | 0 => .nil
  | k + 1 => by
    rw [letters, List.replicate_succ, List.replicate_succ, List.flatten_cons, List.flatten_cons]
    exact .cons member_letter (sequence_letters k)

theorem length_letters (k : ℕ) : (letters k).length = k * 37 := by
  rw [letters, List.length_flatten, List.map_replicate, List.sum_replicate, smul_eq_mul]
  rfl

/-- A member with so many behind it. -/
def lettersMessages (k : ℕ) : List InputMessage :=
  [.data letterHeader, .data (letterPayload ++ (letterTrailer ++ letters k)), .finish]

theorem wellFormed_letters (k : ℕ) : WellFormed (Only letterPayload letter)
    (queuedBytes (lettersMessages k)) (letter ++ (List.replicate k letter).flatten) := by
  have hq : queuedBytes (lettersMessages k) =
      (letterHeader ++ (letterPayload ++ letterTrailer)) ++ letters k := by
    simp [lettersMessages, queuedBytes]
  rw [hq]
  exact ⟨by simp [letterHeader, lzipMagic], .cons member_letter (sequence_letters k)⟩

theorem refused_letters {k n : ℕ} (hn : maxStaged < n) (hk : n ≤ 20 + k * 37) (rounds members : ℕ)
    (outputs : List (List Byte)) :
    decodeWorker (scripted letterPayload letter [n]) noUsage (decodedLimits none) (lettersMessages k)
      (fun _ => 0) rounds members ≠ some ⟨outputs, .ok ()⟩ := by
  have hrest : ({ queue := lettersMessages k, front := fun _ => 0 } : InputPipe).rest =
      lzipMagic ++ lzipVersion :: 0x0c :: (letterPayload ++ (letterTrailer ++ letters k)) := by
    simp [InputPipe.rest, arriving, lettersMessages, queuedBytes, letterHeader]
  have hcode : decodeDictionarySize 0x0c = .ok 4096 := rfl
  obtain ⟨p, hp, hr, hahead⟩ := @readMemberHeader_member _ 0 _ _ _ hrest hcode
  have ha : p.readAhead = [] := List.eq_nil_of_length_eq_zero (Nat.le_zero.mp hahead)
  refine refused_of_ahead 4096 (letterTrailer ++ letters k) hp ha hr hn ?_
  rw [List.length_append, length_letters]
  exact hk

/-- **Well-formed members are turned down**: one, with a reader that looks for one byte more when it has
fetched the trailer, and 1772, with a reader that fetches 65537 bytes behind its payload. -/
theorem refuses_members :
    (Decodes (scripted letterPayload letter [20, 1]) (Only letterPayload letter) ∧
      WellFormed (Only letterPayload letter) (queuedBytes letterMessages) letter ∧
      ∀ rounds members outputs, decodeWorker (scripted letterPayload letter [20, 1]) noUsage
        (decodedLimits none) letterMessages (fun _ => 0) rounds members ≠ some ⟨outputs, .ok ()⟩) ∧
    Decodes (scripted letterPayload letter [65537]) (Only letterPayload letter) ∧
      WellFormed (Only letterPayload letter) (queuedBytes (lettersMessages 1771))
        (letter ++ (List.replicate 1771 letter).flatten) ∧
      ∀ rounds members outputs, decodeWorker (scripted letterPayload letter [65537]) noUsage
        (decodedLimits none) (lettersMessages 1771) (fun _ => 0) rounds members
          ≠ some ⟨outputs, .ok ()⟩ := by
  refine ⟨⟨decodes_scripted _ _ _, wellFormed_letter, ?_⟩, decodes_scripted _ _ _,
    wellFormed_letters 1771, refused_letters (by decide) (by decide)⟩
  intro rounds members outputs
  exact refused_of_eof 4096 rfl rfl rfl

end LibarchiveOxide.Filter.Lzip
