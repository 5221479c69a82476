import LibarchiveOxide.Cpio.Encoder
import LibarchiveOxide.Lib.Result

/-! # What the cpio encoder writes

The bytes of an accepted script are those of its records and of the trailer (`encodes_script`),
whatever the output buffers are. -/

namespace LibarchiveOxide.Cpio.Writing

open Core.Failure Core.Budget Core.Metadata Core.Protocol Core.Encode Cpio.Header Cpio.Decoder
open Cpio.Encoder Cpio.Encoder.CpioEncoder Lib.Result

/-- The bytes that are staged and not written yet. -/
def owed (e : CpioEncoder) : List Byte := e.pending.drop e.pendingPos

/-- The encoder without staged bytes. -/
def flushed (e : CpioEncoder) : CpioEncoder :=
  { e with pending := [], pendingPos := 0, done := e.done || e.finishing }

/-- An empty staging buffer is read from its start, and the encoder is finished exactly if the trailer
is written. -/
structure Tidy (e : CpioEncoder) : Prop where
  pos : e.pending = [] → e.pendingPos = 0
  done : e.done = true → e.pending = []
  finishing : e.finishing = true → e.pending = [] → e.done = true

/-- What a command does to an encoder without staged bytes. -/
def effect : Effect CpioEncoder := fun e c =>
  match c with
  | .beginEntry m =>
    match e.beginChecks m with
    | .ok (entries, m) =>
      match e.stageHeader m.path.raw (some m) with
      | (e', .ok staged) => some (flushed (e'.opened entries m staged), e'.pending)
      | _ => none
    | _ => none
  | .data bytes =>
    if bytes.isEmpty then some (e, [])
    else if !e.isOpen || decide (e.remaining < bytes.length) then none
    else some ({ e with
      checksumActual := CpioDecoder.byteSum e.checksumActual bytes
      remaining := e.remaining - bytes.length }, bytes)
  | .endEntry =>
    if !e.isOpen || e.remaining != 0 then none
    else if e.expectedChecksum.any (· ≠ e.checksumActual) then none
    else some ({ e with isOpen := false }, List.replicate e.endPadding 0)
  | .finish =>
    if e.done then some (e, [])
    else if e.isOpen then none
    else
      match e.stageHeader trailerName none with
      | (e', .ok _) => some (flushed { e' with finishing := true }, e'.pending)
      | _ => none

section
variable {e e' e1 : CpioEncoder} {c : EncodeCommand} {cs : List EncodeCommand} {n k : ℕ}
  {s : EncodeStep} {w : List Byte}

theorem flushed_of_nil (h : Tidy e) (hp : e.pending = []) : flushed e = e := by
  have hdone : (e.done || e.finishing) = e.done := by
    cases hf : e.finishing with
    | false => rw [Bool.or_false]
    | true => rw [h.finishing hf hp, Bool.or_true]
  unfold flushed
  rw [hdone, ← hp, ← h.pos hp]

theorem owed_of_nil (hp : e.pending = []) : owed e = [] := by
  rw [owed, hp, List.drop_nil]

/-! ### Steps -/

/-- Staged bytes answer a command. -/
structure Answered (e : CpioEncoder) (k : ℕ) (s : EncodeStep) (e' : CpioEncoder) : Prop where
  owed : owed e = s.produced ++ owed e'
  flushed : flushed e' = flushed e
  consumed : s.consumed = k
  tidy : Tidy e'
  last : s.status = .done → e'.done = true

theorem answered_of_drained (hpos : e.pending = [] → e.pendingPos = 0) (hd : e.done = false)
    (hf : e.finishing = false) (h : e.drained k n = (e', .ok s)) : Answered e k s e' := by
  unfold drained drainPending at h
  cases h
  refine ⟨drain_owed _ _ _, rfl, rfl, ⟨drain_pos n hpos, ?_, ?_⟩, ?_⟩
  · exact fun hd' => absurd (hd.symm.trans hd') (by decide)
  · exact fun hf' => absurd (hf.symm.trans hf') (by decide)
  · dsimp only
    split_ifs
    · exact nofun
    · exact nofun

theorem answered_of_flush (h : Tidy e) (hd : e.done = false) (hf : e.flush n = (e', .ok s)) :
    Answered e 0 s e' := by
  have hpos := drain_pos n h.pos
  unfold flush drainPending at hf
  dsimp only at hf
  by_cases hlast : ((drain e.pending e.pendingPos n).2.1.isEmpty && e.finishing) = true
  · rw [if_pos hlast] at hf
    obtain ⟨hemp, hfin⟩ := Bool.and_eq_true_iff.mp hlast
    cases hf
    refine ⟨drain_owed _ _ _, ?_, rfl, ⟨hpos, fun _ => by simpa using hemp, fun _ _ => rfl⟩,
      fun _ => rfl⟩
    simp [flushed, hfin]
  · rw [if_neg hlast] at hf
    cases hf
    refine ⟨drain_owed _ _ _, rfl, rfl, ⟨hpos, ?_, ?_⟩, ?_⟩
    · exact fun hd' => absurd (hd.symm.trans hd') (by decide)
    · intro hfin hemp
      rw [Bool.and_eq_true_iff] at hlast
      exact absurd ⟨by simpa using hemp, hfin⟩ hlast
    · dsimp only
      split_ifs
      · exact nofun
      · exact nofun

theorem stageHeader_ok {name : List Byte} {m : Option EntryMetadata} {staged : StagedHeader}
    (h : e.stageHeader name m = (e', .ok staged)) :
    ∃ v fixed len, headerValues e.dialect e.inode name m = .ok v ∧
      writeHeader e.dialect v = (fixed, .ok ()) ∧
      aligned (fixed ++ name ++ [0]).length (alignmentOf e.dialect) = some len ∧
      e' = { e with
        pending := fixed ++ name ++ [0] ++ List.replicate (len - (fixed ++ name ++ [0]).length) 0
        inode := e.inode + 1 } ∧
      staged = ⟨v.size, ⟨v.inode, v.links, v.device⟩, alignmentOf e.dialect, v.checksum⟩ := by
  unfold stageHeader at h
  split at h
  · cases h
  · next v hv =>
    split at h
    · cases h
    · next fixed hw =>
      dsimp only at h
      split at h
      · cases h
      · next len hlen =>
        cases h
        exact ⟨v, fixed, len, hv, hw, hlen, rfl, rfl⟩

/-- The ways a step can succeed. -/
inductive Stepped (e : CpioEncoder) (n : ℕ) : EncodeCommand → EncodeStep → CpioEncoder → Prop
  | finished (hd : e.done = true) : Stepped e n .finish ⟨0, [], .done⟩ e
  | flush {c : EncodeCommand} {s : EncodeStep} {e' : CpioEncoder} (hd : e.done = false)
      (h : e.flush n = (e', .ok s)) : Stepped e n c s e'
  | begin {m m' : EntryMetadata} {entries : ℕ} {staged : StagedHeader} {e1 e' : CpioEncoder}
      {s : EncodeStep} (hd : e.done = false) (hp : e.pending = [])
      (hc : e.beginChecks m = .ok (entries, m'))
      (hs : e.stageHeader m'.path.raw (some m') = (e1, .ok staged))
      (h : (e1.opened entries m' staged).drained 1 n = (e', .ok s)) :
      Stepped e n (.beginEntry m) s e'
  | data {input : List Byte} (status : EncodeStatus) (hd : e.done = false) (hp : e.pending = [])
      (ho : e.isOpen = true) (hle : input.length ≤ e.remaining) (k : ℕ)
      (hk : k = min input.length n) :
      Stepped e n (.data input) ⟨k, input.take k, status⟩ { e with
        checksumActual := CpioDecoder.byteSum e.checksumActual (input.take k)
        remaining := e.remaining - k }
  | endEntry {e' : CpioEncoder} {s : EncodeStep} (hd : e.done = false) (hp : e.pending = [])
      (ho : e.isOpen = true) (hr : e.remaining = 0)
      (hsum : e.expectedChecksum.any (· ≠ e.checksumActual) = false)
      (h : ({ e with pending := List.replicate e.endPadding 0, isOpen := false } :
        CpioEncoder).drained 1 n = (e', .ok s)) : Stepped e n .endEntry s e'
  | finish {e1 : CpioEncoder} {staged : StagedHeader} (hd : e.done = false) (hp : e.pending = [])
      (ho : e.isOpen = false) (hs : e.stageHeader trailerName none = (e1, .ok staged)) {e' : CpioEncoder}
      {s : EncodeStep} (h : Answered { e1 with finishing := true } 1 s e') : Stepped e n .finish s e'

theorem stepped_of_beginEntry {m : EntryMetadata} (hd : e.done = false) (hp : e.pending = [])
    (h : e.beginEntry m n = (e', .ok s)) : Stepped e n (.beginEntry m) s e' := by
  unfold beginEntry at h
  split at h
  · cases h
  · next entries m' hc =>
    split at h
    · cases h
    · next e1 staged hs => exact .begin hd hp hc hs h

theorem stepped_of_finish (ht : Tidy e) (hd : e.done = false) (hp : e.pending = [])
    (h : e.finish n = (e', .ok s)) : Stepped e n .finish s e' := by
  unfold finish at h
  by_cases ho : e.isOpen = true
  · rw [if_pos ho] at h
    cases h
  rw [if_neg ho] at h
  split at h
  · cases h
  · next e1 staged hs =>
    refine .finish hd hp (by simpa using ho) hs ?_
    obtain ⟨v, fixed, len, -, -, -, rfl, -⟩ := stageHeader_ok hs
    have hpos := @drain_pos (fixed ++ trailerName ++ [0] ++
      List.replicate (len - (fixed ++ trailerName ++ [0]).length) 0) e.pendingPos n
      (fun _ => ht.pos hp)
    unfold drainPending at h
    dsimp only at h
    split_ifs at h with hemp hdone
    · cases h
      refine ⟨drain_owed _ _ _, ?_, rfl, ⟨hpos, fun _ => by simpa using hemp, fun _ _ => rfl⟩,
        fun _ => rfl⟩
      simp [flushed]
    · exact absurd rfl hdone
    · next hdone' => exact absurd (hd.symm.trans hdone') (by decide)
    · cases h
      refine ⟨drain_owed _ _ _, rfl, rfl, ⟨hpos, ?_, ?_⟩, nofun⟩
      · exact fun hd' => absurd (hd.symm.trans hd') (by decide)
      · exact fun _ hemp' => absurd (by simpa using hemp') hemp

/-- **Every successful step is one of the listed ways.** -/
theorem stepped_of_step (ht : Tidy e) (h : e.step c n = (e', .ok s)) : Stepped e n c s e' := by
  unfold step at h
  by_cases hd : e.done = true
  · rw [if_pos hd] at h
    cases c with
    | finish =>
      cases h
      exact .finished hd
    | beginEntry m => cases h
    | data input => cases h
    | endEntry => cases h
  have hd' : e.done = false := by simpa using hd
  rw [if_neg hd] at h
  by_cases hp : e.pending = []
  · rw [if_neg (by simp [hp])] at h
    cases c with
    | beginEntry m => exact stepped_of_beginEntry hd' hp h
    | data input =>
      change e.data input n = _ at h
      unfold data at h
      split_ifs at h with ho hr
      · cases h
      · cases h
      · cases h
        exact .data _ hd' hp (by simpa using ho) (Nat.le_of_not_lt hr) _ rfl
    | endEntry =>
      change e.endEntry n = _ at h
      unfold endEntry at h
      by_cases ho : (!e.isOpen || e.remaining != 0) = true
      · rw [if_pos ho] at h
        cases h
      rw [if_neg ho] at h
      by_cases hsum : e.expectedChecksum.any (· ≠ e.checksumActual) = true
      · rw [if_pos hsum] at h
        cases h
      rw [if_neg hsum] at h
      obtain ⟨ho, hr⟩ := Bool.or_eq_false_iff.mp (Bool.eq_false_iff.mpr ho)
      exact .endEntry hd' hp (by simpa using ho) (by simpa using hr) (by simpa using hsum) h
    | finish => exact stepped_of_finish ht hd' hp h
  · rw [if_pos (by simpa using hp)] at h
    exact .flush hd' h

/-- An encoder that is not finished and stages nothing has not begun the trailer. -/
theorem Tidy.not_finishing (h : Tidy e) (hd : e.done = false) (hp : e.pending = []) :
    e.finishing = false := by
  cases hf : e.finishing with
  | false => rfl
  | true => exact absurd ((h.finishing hf hp).symm.trans hd) (by decide)

theorem answered_of_begin {m : EntryMetadata} {entries : ℕ} {staged : StagedHeader} (h : Tidy e)
    (hd : e.done = false) (hp : e.pending = []) {name : List Byte} {m' : Option EntryMetadata}
    (hs : e.stageHeader name m' = (e1, .ok staged))
    (h0 : (e1.opened entries m staged).drained 1 n = (e', .ok s)) :
    Answered (e1.opened entries m staged) 1 s e' := by
  obtain ⟨v, fixed, len, -, -, -, rfl, -⟩ := stageHeader_ok hs
  exact answered_of_drained (fun _ => h.pos hp) hd (h.not_finishing hd hp) h0

theorem answered_of_endEntry (h : Tidy e) (hd : e.done = false) (hp : e.pending = [])
    (h0 : ({ e with pending := List.replicate e.endPadding 0, isOpen := false } :
      CpioEncoder).drained 1 n = (e', .ok s)) :
    Answered { e with pending := List.replicate e.endPadding 0, isOpen := false } 1 s e' :=
  answered_of_drained (fun _ => h.pos hp) hd (h.not_finishing hd hp) h0

theorem tidy_of_stepped (h : Tidy e) (hs : Stepped e n c s e') : Tidy e' := by
  cases hs with
  | finished => exact h
  | flush hd h0 => exact (answered_of_flush h hd h0).tidy
  | begin hd hp hc hst h0 => exact (answered_of_begin h hd hp hst h0).tidy
  | data status hd hp => exact ⟨fun _ => h.pos hp, fun _ => hp, fun hf _ => h.finishing hf hp⟩
  | endEntry hd hp ho hr hsum h0 => exact (answered_of_endEntry h hd hp h0).tidy
  | finish hd hp ho hst ha => exact ha.tidy

/-- A command whose bytes are staged, the first of which are written. -/
theorem call_of_answered {e0 : CpioEncoder} (ha : Answered e1 k s e')
    (heff : effect e0 c = some (flushed e1, owed e1))
    (hw : writes effect (flushed e') cs = some w) :
    ∃ w', writes effect e0 (c :: cs) = some w' ∧ w' = s.produced ++ (owed e' ++ w) := by
  rw [ha.flushed] at hw
  refine ⟨owed e1 ++ w, ?_, ?_⟩
  · simp [writes, heff, hw]
  · rw [ha.owed, List.append_assoc]

theorem byteSum_append (sum : UInt32) (xs ys : List Byte) : CpioDecoder.byteSum sum (xs ++ ys) =
    CpioDecoder.byteSum (CpioDecoder.byteSum sum xs) ys := List.foldl_append

theorem effect_data {input : List Byte} (ho : e.isOpen = true) (hle : input.length ≤ e.remaining) :
    effect e (.data input) = some ({ e with
      checksumActual := CpioDecoder.byteSum e.checksumActual input
      remaining := e.remaining - input.length }, input) := by
  by_cases hi : input = []
  · subst hi
    rfl
  · simp only [effect]
    rw [if_neg (by simpa using hi), if_neg (by simp [ho, hle])]

/-- Data in two parts. -/
theorem writes_data {xs ys : List Byte} (ho : e.isOpen = true)
    (hle : xs.length + ys.length ≤ e.remaining)
    (hw : writes effect { e with
      checksumActual := CpioDecoder.byteSum e.checksumActual xs
      remaining := e.remaining - xs.length } (.data ys :: cs) = some w) :
    writes effect e (.data (xs ++ ys) :: cs) = some (xs ++ w) := by
  have hys : effect { e with
      checksumActual := CpioDecoder.byteSum e.checksumActual xs
      remaining := e.remaining - xs.length } (.data ys) = _ := effect_data ho (by simp only; omega)
  obtain ⟨e1, out, rest, heff, hrest, rfl⟩ := writes_cons hw
  rw [hys] at heff
  cases heff
  have hall : effect e (.data (xs ++ ys)) = _ :=
    effect_data ho (by rw [List.length_append]; exact hle)
  simp only [Nat.sub_sub, ← byteSum_append] at hrest
  simp [writes, hall, hrest]

theorem call_of_stepped (h : Tidy e) (hs : Stepped e n c s e')
    (hw : writes effect (flushed e') (resume c s cs) = some w) :
    ∃ w', writes effect (flushed e) (c :: cs) = some w' ∧
      owed e ++ w' = s.produced ++ (owed e' ++ w) := by
  have hdone : ∀ {e0 : CpioEncoder}, e0.done = true → effect e0 .finish = some (e0, []) := by
    intro e0 hd
    simp only [effect]
    rw [if_pos hd]
  cases hs with
  | finished hd =>
    have hp := h.done hd
    refine ⟨w, ?_, by rw [owed_of_nil hp]; rfl⟩
    rw [resume, if_pos rfl] at hw
    have heff : effect (flushed e) .finish = some (flushed e, []) := hdone (by simp [flushed, hd])
    simp [writes, heff, hw]
  | flush hd h0 =>
    have ha := answered_of_flush h hd h0
    rw [ha.flushed] at hw
    have hsame : writes effect (flushed e) (c :: cs) = some w := by
      cases c with
      | beginEntry m =>
        rw [resume, if_pos ha.consumed] at hw
        exact hw
      | endEntry =>
        rw [resume, if_pos ha.consumed] at hw
        exact hw
      | data bytes =>
        rw [resume, ha.consumed] at hw
        cases bytes with
        | nil => simpa [writes, effect] using hw
        | cons b bytes => exact hw
      | finish =>
        rw [resume] at hw
        by_cases hst : s.status = .done
        · rw [if_pos hst] at hw
          have hfl : (flushed e).done = true := by
            rw [← ha.flushed]
            simp [flushed, ha.last hst]
          simp [writes, hdone hfl, hw]
        · rw [if_neg hst] at hw
          exact hw
    exact ⟨w, hsame, by rw [ha.owed, List.append_assoc]⟩
  | begin hd hp hc hst h0 =>
    rw [owed_of_nil hp, flushed_of_nil h hp]
    have ha := answered_of_begin h hd hp hst h0
    rw [resume, if_neg (by rw [ha.consumed]; decide)] at hw
    refine call_of_answered ha ?_ hw
    obtain ⟨v, fixed, len, -, -, -, rfl, -⟩ := stageHeader_ok hst
    simp only [effect, hc, hst, owed, opened, h.pos hp, List.drop_zero]
  | @data input status hd hp ho hle k hk =>
    rw [owed_of_nil hp, flushed_of_nil h hp]
    have htidy := tidy_of_stepped h (.data (n := n) status hd hp ho hle k hk)
    rw [flushed_of_nil htidy hp] at hw
    rw [owed_of_nil (e := { e with
      checksumActual := CpioDecoder.byteSum e.checksumActual (input.take k)
      remaining := e.remaining - k }) hp]
    have hlen : (input.take k).length = k := by
      rw [List.length_take]
      omega
    rw [resume] at hw
    by_cases hall : k = input.length
    · subst hall
      rw [if_pos rfl, List.take_length] at hw
      refine ⟨input ++ w, ?_, ?_⟩
      · simp [writes, effect_data ho hle, hw]
      · rw [List.take_length]
        rfl
    · rw [if_neg hall] at hw
      have hsum : (input.take k).length + (input.drop k).length ≤ e.remaining := by
        rw [hlen, List.length_drop]
        omega
      have hw' := @writes_data _ _ _ (input.take k) _ ho hsum (by rw [hlen]; exact hw)
      rw [List.take_append_drop] at hw'
      exact ⟨_, hw', rfl⟩
  | endEntry hd hp ho hr hsum h0 =>
    rw [owed_of_nil hp, flushed_of_nil h hp]
    have ha := answered_of_endEntry h hd hp h0
    rw [resume, if_neg (by rw [ha.consumed]; decide)] at hw
    refine call_of_answered ha ?_ hw
    have hpos := h.pos hp
    have hfin := h.not_finishing hd hp
    simp only [effect]
    rw [if_neg (by simp [ho, hr]), if_neg (by rw [hsum]; exact Bool.false_ne_true)]
    simp [owed, flushed, hp, hpos, hd, hfin]
  | @finish e1 staged hd hp ho hst _ _ ha =>
    rw [owed_of_nil hp, flushed_of_nil h hp]
    have heff : effect e .finish = some (flushed { e1 with finishing := true },
        owed { e1 with finishing := true }) := by
      obtain ⟨v, fixed, len, -, -, -, rfl, -⟩ := stageHeader_ok hst
      simp only [effect, hd, ho, hst, owed, h.pos hp, List.drop_zero]
      rfl
    have hfl : (flushed e').done = true := by
      rw [ha.flushed]
      simp [flushed]
    refine call_of_answered ha heff ?_
    rw [resume] at hw
    split_ifs at hw with hlast
    · exact hw
    · -- the command is presented again, and then it writes nothing
      simpa [writes, hdone hfl] using hw

/-- **The cpio encoder realizes the effects of its commands.** -/
theorem realizes : Realizes CpioEncoder.step effect owed flushed Tidy where
  inv h hs := tidy_of_stepped h (stepped_of_step h hs)
  call h hs := call_of_stepped h (stepped_of_step h hs)
  last := by
    intro e n e' s h hs hst
    have hs' := stepped_of_step h hs
    have htidy := tidy_of_stepped h hs'
    refine owed_of_nil (htidy.done ?_)
    cases hs' with
    | finished hd => exact hd
    | flush hd h0 => exact (answered_of_flush h hd h0).last hst
    | finish _ _ _ _ ha => exact ha.last hst

/-! ### Records -/

/-- The encoder after an entry. -/
def closed (e : CpioEncoder) (body : List Byte) : CpioEncoder :=
  { flushed e with
    checksumActual := CpioDecoder.byteSum 0 body, remaining := 0, isOpen := false }

/-- A record as it is written. -/
structure Written where
  metadata : EntryMetadata
  header : List Byte
  body : List Byte
  padding : ℕ

/-- The bytes of a record. -/
def Written.bytes (r : Written) : List Byte :=
  r.header ++ (r.body ++ List.replicate r.padding 0)

/-- The encoder accepts the entry: the record it writes and the encoder after it. -/
inductive Accepts (e : CpioEncoder) (x : EntryMetadata × List Byte) : Written → CpioEncoder → Prop
  | intro {entries : ℕ} {m : EntryMetadata} {e1 : CpioEncoder} {staged : StagedHeader}
      (hc : e.beginChecks x.1 = .ok (entries, m))
      (hs : e.stageHeader m.path.raw (some m) = (e1, .ok staged))
      (hsize : staged.size.toNat = x.2.length)
      (hsum : staged.checksum.any (· ≠ CpioDecoder.byteSum 0 x.2) = false) :
      Accepts e x ⟨m, e1.pending, x.2, (e1.opened entries m staged).endPadding⟩
        (closed (e1.opened entries m staged) x.2)

/-- The records of a script, one after the other, and the encoder after them. -/
inductive AcceptsAll : CpioEncoder → List (EntryMetadata × List Byte) → List Written →
    CpioEncoder → Prop
  | nil (e : CpioEncoder) : AcceptsAll e [] [] e
  | cons {e e1 e2 : CpioEncoder} {x : EntryMetadata × List Byte} {r : Written}
      {xs : List (EntryMetadata × List Byte)} {rs : List Written} (h : Accepts e x r e1)
      (hs : AcceptsAll e1 xs rs e2) : AcceptsAll e (x :: xs) (r :: rs) e2

/-- An encoder between two entries. -/
structure Idle (e : CpioEncoder) : Prop where
  isOpen : e.isOpen = false
  done : e.done = false
  finishing : e.finishing = false
  pending : e.pending = []

theorem effect_data_some {bytes out : List Byte} (h : effect e (.data bytes) = some (e', out)) :
    out = bytes ∧ bytes.length ≤ e.remaining ∧ e' = { e with
      checksumActual := CpioDecoder.byteSum e.checksumActual bytes
      remaining := e.remaining - bytes.length } := by
  simp only [effect] at h
  split_ifs at h with hnil hbad
  · cases h
    have hb : bytes = [] := by simpa using hnil
    subst hb
    exact ⟨rfl, Nat.zero_le _, rfl⟩
  · cases h
    have hle := (Bool.or_eq_false_iff.mp (Bool.eq_false_iff.mpr hbad)).2
    exact ⟨rfl, by simpa using hle, rfl⟩

/-- The three commands of an entry. -/
theorem accepts_of_writes {x : EntryMetadata × List Byte} (hi : Idle e)
    (h : writes effect e (.beginEntry x.1 :: .data x.2 :: .endEntry :: cs) = some w) :
    ∃ r e2 rest, Accepts e x r e2 ∧ Idle e2 ∧ writes effect e2 cs = some rest ∧
      w = r.bytes ++ rest := by
  obtain ⟨e1, out1, rest1, heff1, h1, rfl⟩ := writes_cons h
  obtain ⟨e2, out2, rest2, heff2, h2, rfl⟩ := writes_cons h1
  obtain ⟨e3, out3, rest3, heff3, h3, rfl⟩ := writes_cons h2
  simp only [effect] at heff1
  split at heff1
  · next entries m hc =>
    split at heff1
    · next e0 staged hs =>
      cases heff1
      obtain ⟨rfl, hle, rfl⟩ := effect_data_some heff2
      simp only [effect] at heff3
      split_ifs at heff3 with hbad hsum
      cases heff3
      have hrest := (Bool.or_eq_false_iff.mp (Bool.eq_false_iff.mpr hbad)).2
      have hrest : (staged.size.toNat - x.2.length != 0) = false := hrest
      have hzero : staged.size.toNat - x.2.length = 0 := by simpa using hrest
      have hle : x.2.length ≤ staged.size.toNat := hle
      refine ⟨_, _, rest3, .intro hc hs (by omega) (Bool.eq_false_iff.mpr hsum), ?_, ?_, ?_⟩
      · obtain ⟨v, fixed, len, -, -, -, rfl, -⟩ := stageHeader_ok hs
        exact ⟨rfl, by simp [closed, flushed, opened, hi.done, hi.finishing], hi.finishing, rfl⟩
      · have hsame : ({ flushed (e0.opened entries m staged) with
            checksumActual := CpioDecoder.byteSum 0 x.2
            remaining := staged.size.toNat - x.2.length, isOpen := false } : CpioEncoder) =
            closed (e0.opened entries m staged) x.2 := by
          rw [hzero]
          rfl
        rw [← hsame]
        exact h3
      · simp only [Written.bytes, List.append_assoc]
        rfl
    · cases heff1
  · cases heff1

/-- **What a script writes**: the records, and the trailer behind them. -/
theorem accepts_of_script : ∀ (xs : List (EntryMetadata × List Byte)) {e : CpioEncoder}
    {w : List Byte}, Idle e → writes effect e (script xs) = some w →
    ∃ rs e1 e2 staged, AcceptsAll e xs rs e1 ∧ e1.stageHeader trailerName none = (e2, .ok staged) ∧
      w = rs.flatMap Written.bytes ++ e2.pending
  | [], e, w, hi, h => by
    obtain ⟨e1, out, rest, heff, hrest, rfl⟩ := writes_cons h
    cases hrest
    simp only [effect, hi.done, hi.isOpen, Bool.false_eq_true, if_false] at heff
    split at heff
    · next e2 staged hs =>
      cases heff
      exact ⟨[], e, e2, staged, .nil e, hs, by simp⟩
    · cases heff
  | x :: xs, e, w, hi, h => by
    have hscript : script (x :: xs) =
        .beginEntry x.1 :: .data x.2 :: .endEntry :: script xs := rfl
    rw [hscript] at h
    obtain ⟨r, e1, rest, hr, hi1, hrest, rfl⟩ := accepts_of_writes hi h
    obtain ⟨rs, e2, e3, staged, hrs, ht, rfl⟩ := accepts_of_script xs hi1 hrest
    refine ⟨r :: rs, e2, e3, staged, .cons hr hrs, ht, ?_⟩
    rw [List.flatMap_cons, List.append_assoc]

/-- **The output of the encoder**, whatever the output buffers are. -/
theorem encodes_script {limits : Limits} {dialect : CpioDialect}
    {xs : List (EntryMetadata × List Byte)} {out : List Byte}
    (h : Encodes CpioEncoder.step (.withDialect limits dialect) (script xs) out) :
    ∃ rs e1 e2 staged, AcceptsAll (.withDialect limits dialect) xs rs e1 ∧
      e1.stageHeader trailerName none = (e2, .ok staged) ∧
      out = rs.flatMap Written.bytes ++ e2.pending := by
  have htidy : Tidy (.withDialect limits dialect) := ⟨fun _ => rfl, nofun, nofun⟩
  have hlast : (script xs).getLast? = some .finish := by
    rw [script, List.getLast?_concat]
  obtain ⟨w, hw, rfl⟩ := writes_of_encodes realizes htidy h hlast
  exact accepts_of_script xs ⟨rfl, rfl, rfl, rfl⟩ hw

end

end LibarchiveOxide.Cpio.Writing
