import LibarchiveOxide.Ar.Encoder
import LibarchiveOxide.Lib.Result

/-! # What the ar encoder writes

The bytes of an accepted script are the global magic and the bytes of each member
(`writes_script`), whatever the output buffers are. -/

namespace LibarchiveOxide.Ar.Writing

open Core.Failure Core.Budget Core.Metadata Core.Protocol Core.Encode Ar.Decoder Ar.Encoder
open Ar.Encoder.ArEncoder Lib.Result

/-- The bytes that are staged and not written yet. -/
def owed (e : ArEncoder) : List Byte := e.pending.drop e.pendingPos

/-- The encoder without staged bytes. -/
def flushed (e : ArEncoder) : ArEncoder := { e with pending := [], pendingPos := 0 }

/-- An empty staging buffer is read from its start, and a finished encoder has one. -/
structure Tidy (e : ArEncoder) : Prop where
  pos : e.pending = [] → e.pendingPos = 0
  done : e.done = true → e.pending = []

/-- What a command does to an encoder without staged bytes. -/
def effect : Effect ArEncoder := fun e c =>
  match c with
  | .beginEntry m =>
    match e.beginChecks m, e.stageEntry m with
    | .ok entries, (e', .ok ()) => some (flushed { e' with entries }, e'.pending)
    | _, _ => none
  | .data bytes =>
    if bytes.isEmpty then some (e, [])
    else if !e.isOpen || decide (e.remaining < bytes.length) then none
    else some ({ e with remaining := e.remaining - bytes.length }, bytes)
  | .endEntry =>
    if !e.isOpen || e.remaining != 0 then none
    else some ({ e with padding := 0, isOpen := false }, List.replicate e.padding (chr '\n'))
  | .finish =>
    if e.done then some (e, [])
    else if e.isOpen then none
    else some ({ e with started := true, done := true }, if e.started then [] else magic)

section
variable {e e' : ArEncoder} {c : EncodeCommand} {cs : List EncodeCommand} {n k : ℕ}
  {s : EncodeStep} {w : List Byte}

theorem flushed_of_nil (h : Tidy e) (hp : e.pending = []) : flushed e = e := by
  unfold flushed
  rw [← hp, ← h.pos hp]

theorem owed_of_nil (hp : e.pending = []) : owed e = [] := by
  rw [owed, hp, List.drop_nil]

/-- What draining does. -/
theorem drained_spec (hpos : e.pending = [] → e.pendingPos = 0) (h : e.drained k n = (e', .ok s)) :
    owed e = s.produced ++ owed e' ∧ flushed e' = flushed e ∧ s.consumed = k ∧ s.status ≠ .done ∧
      (e'.pending = [] → e'.pendingPos = 0) ∧ e'.done = e.done := by
  unfold drained drainPending at h
  cases h
  refine ⟨drain_owed _ _ _, rfl, rfl, ?_, drain_pos n hpos, rfl⟩
  unfold drainStatus
  split_ifs
  · exact nofun
  · exact nofun

theorem consumed_of_drained (h : e.drained k n = (e', .ok s)) : s.consumed = k := by
  unfold drained at h
  cases h
  rfl

/-- A command that is not consumed is presented again. -/
theorem resume_of_drained (hk : s.consumed = 0) (hd : s.status ≠ .done) :
    resume c s cs = c :: cs ∨ (c = .data [] ∧ resume c s cs = cs) := by
  cases c with
  | beginEntry m => exact .inl (if_pos hk)
  | endEntry => exact .inl (if_pos hk)
  | finish => exact .inl (if_neg hd)
  | data bytes =>
    simp only [resume, hk]
    cases bytes with
    | nil => exact .inr ⟨rfl, rfl⟩
    | cons b bytes => exact .inl rfl

variable {m : EntryMetadata}

theorem stageEntry_ok {u : Unit} (h : e.stageEntry m = (e', .ok u)) :
    ∃ size, m.size = some size ∧ size.toNat + inlineLength m.path.raw ≤ u64Max ∧
      e' = { e.start with
        pending := e.start.pending ++ memberHeader m (size.toNat + inlineLength m.path.raw) ++
          (if inlineName m.path.raw then m.path.raw else [])
        remaining := size.toNat
        padding := (size.toNat + inlineLength m.path.raw) % 2
        isOpen := true } := by
  unfold stageEntry at h
  cases hs : m.size with
  | none =>
    rw [hs] at h
    cases h
  | some size =>
    rw [hs] at h
    dsimp only at h
    cases ht : checkedAdd size.toNat (inlineLength m.path.raw) with
    | none =>
      rw [ht] at h
      cases h
    | some total =>
      rw [ht] at h
      obtain ⟨rfl, hle⟩ := checkedAdd_eq_some.mp ht
      cases h
      exact ⟨size, rfl, hle, rfl⟩

/-- The ways a step can succeed. -/
inductive Stepped (e : ArEncoder) (n : ℕ) : EncodeCommand → EncodeStep → ArEncoder → Prop
  | finished (hd : e.done = true) : Stepped e n .finish ⟨0, [], .done⟩ e
  | drained {c : EncodeCommand} {s : EncodeStep} {e' : ArEncoder} (hd : e.done = false)
      (h : e.drained 0 n = (e', .ok s)) : Stepped e n c s e'
  | begin {m : EntryMetadata} {entries : ℕ} {e1 e' : ArEncoder} {s : EncodeStep} (hd : e.done = false)
      (hp : e.pending = []) (hc : e.beginChecks m = .ok entries) (hs : e.stageEntry m = (e1, .ok ()))
      (h : ({ e1 with entries } : ArEncoder).drained 1 n = (e', .ok s)) :
      Stepped e n (.beginEntry m) s e'
  | data {input : List Byte} (status : EncodeStatus) (hd : e.done = false) (hp : e.pending = [])
      (ho : e.isOpen = true) (hle : input.length ≤ e.remaining) (k : ℕ)
      (hk : k = min input.length n) :
      Stepped e n (.data input) ⟨k, input.take k, status⟩ { e with remaining := e.remaining - k }
  | endEntry {e' : ArEncoder} {s : EncodeStep} (hd : e.done = false) (hp : e.pending = [])
      (ho : e.isOpen = true) (hr : e.remaining = 0)
      (h : ({ e with
        pending := List.replicate e.padding (chr '\n'), padding := 0, isOpen := false } :
        ArEncoder).drained 1 n = (e', .ok s)) : Stepped e n .endEntry s e'
  | finish (hd : e.done = false) (hp : e.pending = []) (ho : e.isOpen = false)
      (hs : e.started = true) : Stepped e n .finish ⟨1, [], .done⟩ { e with done := true }
  | magicLast (hd : e.done = false) (hp : e.pending = []) (ho : e.isOpen = false)
      (hs : e.started = false) (hlast : (e.start.drainPending n).2.pending = []) :
      Stepped e n .finish ⟨1, (e.start.drainPending n).1, .done⟩
        { (e.start.drainPending n).2 with done := true }
  | magicMore (hd : e.done = false) (hp : e.pending = []) (ho : e.isOpen = false)
      (hs : e.started = false) (hmore : (e.start.drainPending n).2.pending ≠ []) :
      Stepped e n .finish ⟨1, (e.start.drainPending n).1, .needOutput⟩ (e.start.drainPending n).2

theorem stepped_of_beginEntry (hd : e.done = false) (hp : e.pending = [])
    (h : e.beginEntry m n = (e', .ok s)) : Stepped e n (.beginEntry m) s e' := by
  unfold beginEntry at h
  cases hc : e.beginChecks m with
  | error err =>
    rw [hc] at h
    cases h
  | ok entries =>
    rw [hc] at h
    dsimp only at h
    generalize hs : e.stageEntry m = r at h
    obtain ⟨e1, r⟩ := r
    cases r with
    | error err => cases h
    | ok u => exact .begin hd hp hc hs h

theorem stepped_of_finish (hd : e.done = false) (hp : e.pending = [])
    (h : e.finish n = (e', .ok s)) : Stepped e n .finish s e' := by
  unfold finish at h
  by_cases ho : e.isOpen = true
  · rw [if_pos ho] at h
    cases h
  have ho' : e.isOpen = false := by simpa using ho
  rw [if_neg ho] at h
  by_cases hs : e.started = true
  · rw [if_neg (by simp [hs])] at h
    cases h
    exact .finish hd hp ho' hs
  · have hs' : e.started = false := by simpa using hs
    rw [if_pos (by simp [hs'])] at h
    dsimp only at h
    have hdone : (e.start.drainPending n).2.done = false := by
      rw [drainPending, start, hs']
      exact hd
    by_cases hemp : (e.start.drainPending n).2.pending = []
    · rw [if_pos (by simp [hemp])] at h
      cases h
      exact .magicLast hd hp ho' hs' hemp
    · rw [if_neg (by simpa using hemp), hdone] at h
      cases h
      exact .magicMore hd hp ho' hs' hemp

/-- **Every successful step is one of the listed ways.** -/
theorem stepped_of_step (h : e.step c n = (e', .ok s)) : Stepped e n c s e' := by
  unfold step at h
  by_cases hd : e.done = true
  · rw [if_pos hd] at h
    cases c with
    | finish =>
      cases h
      exact .finished hd
    | beginEntry m => cases h
    | data input => cases h
    | endEntry => cases h
  have hd' : e.done = false := by simpa using hd
  rw [if_neg hd] at h
  by_cases hp : e.pending = []
  · rw [if_neg (by simp [hp])] at h
    cases c with
    | beginEntry m => exact stepped_of_beginEntry hd' hp h
    | data input =>
      change e.data input n = _ at h
      unfold data at h
      split_ifs at h with ho hr
      · cases h
      · cases h
      · cases h
        exact .data _ hd' hp (by simpa using ho) (Nat.le_of_not_lt hr) _ rfl
    | endEntry =>
      change e.endEntry n = _ at h
      unfold endEntry at h
      by_cases ho : (!e.isOpen || e.remaining != 0) = true
      · rw [if_pos ho] at h
        cases h
      · rw [if_neg ho] at h
        obtain ⟨ho, hr⟩ := Bool.or_eq_false_iff.mp (Bool.eq_false_iff.mpr ho)
        exact .endEntry hd' hp (by simpa using ho) (by simpa using hr) h
    | finish => exact stepped_of_finish hd' hp h
  · rw [if_pos (by simpa using hp)] at h
    exact .drained hd' h

theorem effect_start (h : Tidy e) (hp : e.pending = []) (hs : e.started = false) :
    owed e.start = magic ∧ flushed e.start = { e with started := true } ∧
      (e.start.pending = [] → e.start.pendingPos = 0) := by
  have hpos := h.pos hp
  unfold start
  rw [hs]
  refine ⟨?_, ?_, fun _ => hpos⟩
  · simp [owed, hp, hpos]
  · simp [flushed, hp, hpos]

theorem tidy_of_stepped (h : Tidy e) (hs : Stepped e n c s e') : Tidy e' := by
  have hdrain : ∀ {e0 : ArEncoder} {k : ℕ}, (e0.pending = [] → e0.pendingPos = 0) →
      e0.done = false → e0.drained k n = (e', .ok s) → Tidy e' := by
    intro e0 k hpos hd hd0
    obtain ⟨-, -, -, -, hpos', hd'⟩ := drained_spec hpos hd0
    refine ⟨hpos', ?_⟩
    rw [hd', hd]
    exact nofun
  cases hs with
  | finished => exact h
  | drained hd h0 => exact hdrain h.pos hd h0
  | @begin m entries e1 _ _ hd hp hc hst h0 =>
    obtain ⟨size, -, -, rfl⟩ := stageEntry_ok hst
    refine hdrain ?_ ?_ h0
    · intro _
      show e.start.pendingPos = 0
      unfold start
      split_ifs
      · exact h.pos hp
      · exact h.pos hp
    · show e.start.done = false
      unfold start
      split_ifs
      · exact hd
      · exact hd
  | data status hd hp => exact ⟨fun _ => h.pos hp, fun hd' => by rw [← hp]⟩
  | endEntry hd hp ho hr h0 =>
    refine hdrain ?_ ?_ h0
    · intro _
      exact h.pos hp
    · exact hd
  | finish hd hp => exact ⟨fun _ => h.pos hp, fun _ => hp⟩
  | magicLast hd hp ho hst hlast =>
    exact ⟨fun hp' => drain_pos n (effect_start h hp hst).2.2 hp', fun _ => hlast⟩
  | magicMore hd hp ho hst hmore =>
    refine ⟨fun hp' => absurd hp' hmore, ?_⟩
    have hdone : (e.start.drainPending n).2.done = false := by
      rw [drainPending, start, hst]
      exact hd
    rw [hdone]
    exact nofun

/-- A command that stages its bytes, the first of which are drained. -/
theorem call_of_drained {e0 e1 : ArEncoder} (hpos : e1.pending = [] → e1.pendingPos = 0)
    (h : e1.drained k n = (e', .ok s)) (heff : effect e0 c = some (flushed e1, owed e1))
    (hw : writes effect (flushed e') cs = some w) :
    ∃ w', writes effect e0 (c :: cs) = some w' ∧ w' = s.produced ++ (owed e' ++ w) := by
  obtain ⟨howed, hflush, -⟩ := drained_spec hpos h
  rw [hflush] at hw
  refine ⟨owed e1 ++ w, ?_, ?_⟩
  · simp [writes, heff, hw]
  · rw [howed, List.append_assoc]

theorem effect_data {input : List Byte} (ho : e.isOpen = true) (hle : input.length ≤ e.remaining) :
    effect e (.data input) = some ({ e with remaining := e.remaining - input.length }, input) := by
  by_cases hi : input = []
  · subst hi
    rfl
  · simp only [effect]
    rw [if_neg (by simpa using hi), if_neg (by simp [ho, hle])]

/-- Data in two parts. -/
theorem writes_data {xs ys : List Byte} (ho : e.isOpen = true)
    (hle : xs.length + ys.length ≤ e.remaining)
    (hw : writes effect { e with remaining := e.remaining - xs.length } (.data ys :: cs) = some w) :
    writes effect e (.data (xs ++ ys) :: cs) = some (xs ++ w) := by
  have hys : effect { e with remaining := e.remaining - xs.length } (.data ys) = _ :=
    effect_data ho (by simp only; omega)
  obtain ⟨e1, out, rest, heff, hrest, rfl⟩ := writes_cons hw
  rw [hys] at heff
  cases heff
  have hall : effect e (.data (xs ++ ys)) = _ :=
    effect_data ho (by rw [List.length_append]; exact hle)
  simp only [Nat.sub_sub] at hrest
  simp [writes, hall, hrest]

theorem call_of_stepped (h : Tidy e) (hs : Stepped e n c s e')
    (hw : writes effect (flushed e') (resume c s cs) = some w) :
    ∃ w', writes effect (flushed e) (c :: cs) = some w' ∧
      owed e ++ w' = s.produced ++ (owed e' ++ w) := by
  cases hs with
  | finished hd =>
    have hp := h.done hd
    refine ⟨w, ?_, by rw [owed_of_nil hp]; rfl⟩
    rw [resume, if_pos rfl] at hw
    have heff : effect (flushed e) .finish = some (flushed e, []) := if_pos hd
    simp [writes, heff, hw]
  | drained hd h0 =>
    obtain ⟨howed, hflush, hk, hst, -⟩ := drained_spec h.pos h0
    rw [hflush] at hw
    rcases @resume_of_drained c cs _ hk hst with hres | ⟨rfl, hres⟩
    · rw [hres] at hw
      exact ⟨w, hw, by rw [howed, List.append_assoc]⟩
    · rw [hres] at hw
      refine ⟨w, ?_, by rw [howed, List.append_assoc]⟩
      have heff : effect (flushed e) (.data []) = some (flushed e, []) := rfl
      simp [writes, heff, hw]
  | @begin m entries e1 _ _ hd hp hc hst h0 =>
    rw [owed_of_nil hp, flushed_of_nil h hp]
    obtain ⟨size, hsize, hle, rfl⟩ := stageEntry_ok hst
    have hpos : e.start.pendingPos = 0 := by
      unfold start
      split_ifs
      · exact h.pos hp
      · exact h.pos hp
    have hk := consumed_of_drained h0
    rw [resume, if_neg (by omega)] at hw
    refine call_of_drained ?_ h0 ?_ hw
    · intro _
      exact hpos
    simp only [effect, hc, hst, owed, hpos, List.drop_zero]
  | @data input status hd hp ho hle k hk =>
    rw [owed_of_nil hp, flushed_of_nil h hp]
    have htidy : Tidy { e with remaining := e.remaining - k } :=
      ⟨fun _ => h.pos hp, fun _ => hp⟩
    rw [flushed_of_nil htidy hp] at hw
    rw [owed_of_nil (e := { e with remaining := e.remaining - k }) hp]
    have hlen : (input.take k).length = k := by
      rw [List.length_take]
      omega
    rw [resume] at hw
    by_cases hall : k = input.length
    · subst hall
      rw [if_pos rfl] at hw
      refine ⟨input ++ w, ?_, ?_⟩
      · simp [writes, effect_data ho hle, hw]
      · rw [List.take_length]
        rfl
    · rw [if_neg hall] at hw
      have hsum : (input.take k).length + (input.drop k).length ≤ e.remaining := by
        rw [hlen, List.length_drop]
        omega
      have hw' := @writes_data _ _ _ (input.take k) _ ho hsum (by rw [hlen]; exact hw)
      rw [List.take_append_drop] at hw'
      exact ⟨_, hw', rfl⟩
  | endEntry hd hp ho hr h0 =>
    rw [owed_of_nil hp, flushed_of_nil h hp]
    have hk := consumed_of_drained h0
    rw [resume, if_neg (by omega)] at hw
    refine call_of_drained ?_ h0 ?_ hw
    · intro _
      exact h.pos hp
    have hpos := h.pos hp
    simp [effect, ho, hr, owed, flushed, hp, hpos]
  | finish hd hp ho hst =>
    rw [owed_of_nil hp, flushed_of_nil h hp]
    have htidy : Tidy { e with done := true } := ⟨fun _ => h.pos hp, fun _ => hp⟩
    rw [resume, if_pos rfl, flushed_of_nil htidy hp] at hw
    rw [owed_of_nil (e := { e with done := true }) hp]
    have heff : effect e .finish = some ({ e with done := true }, []) := by
      simp only [effect, hd, ho, hst]
      rfl
    exact ⟨w, by simp [writes, heff, hw], rfl⟩
  | magicLast hd hp ho hst hlast =>
    rw [owed_of_nil hp, flushed_of_nil h hp]
    obtain ⟨howed, hflush, -⟩ := effect_start h hp hst
    have hdrain := drain_owed e.start.pending e.start.pendingPos n
    rw [show e.start.pending.drop e.start.pendingPos = magic from howed] at hdrain
    rw [resume, if_pos rfl] at hw
    have heff : effect e .finish = some ({ e with started := true, done := true }, magic) := by
      simp only [effect, hd, ho, hst]
      rfl
    have hsame : flushed { (e.start.drainPending n).2 with done := true } =
        { e with started := true, done := true } := by
      have hfl : flushed { (e.start.drainPending n).2 with done := true } =
          { flushed e.start with done := true } := rfl
      rw [hfl, hflush]
    rw [hsame] at hw
    refine ⟨magic ++ w, by simp [writes, heff, hw], ?_⟩
    rw [List.nil_append, hdrain, List.append_assoc]
    rfl
  | magicMore hd hp ho hst hmore =>
    rw [owed_of_nil hp, flushed_of_nil h hp]
    obtain ⟨howed, hflush, -⟩ := effect_start h hp hst
    have hdrain := drain_owed e.start.pending e.start.pendingPos n
    rw [show e.start.pending.drop e.start.pendingPos = magic from howed] at hdrain
    rw [resume, if_neg (fun hd => by cases hd)] at hw
    have heff : effect e .finish = some ({ e with started := true, done := true }, magic) := by
      simp only [effect, hd, ho, hst]
      rfl
    have hsame : flushed (e.start.drainPending n).2 = { e with started := true } := hflush
    rw [hsame] at hw
    -- the command is presented again, and then it writes nothing
    have heff' : effect { e with started := true } .finish =
        some ({ e with started := true, done := true }, []) := by
      simp only [effect, hd, ho]
      rfl
    obtain ⟨e1, out, rest, heq, hrest, rfl⟩ := writes_cons hw
    rw [heff'] at heq
    cases heq
    refine ⟨magic ++ rest, by simp [writes, heff, hrest], ?_⟩
    rw [List.nil_append, hdrain, List.append_assoc]
    rfl

/-- **The ar encoder realizes the effects of its commands.** -/
theorem realizes : Realizes ArEncoder.step effect owed flushed Tidy where
  inv h hs := tidy_of_stepped h (stepped_of_step hs)
  call h hs := call_of_stepped h (stepped_of_step hs)
  last := by
    intro e n e' s h hs hd
    refine owed_of_nil ?_
    cases stepped_of_step hs with
    | finished hd' => exact h.done hd'
    | drained _ h0 => exact absurd hd (drained_spec h.pos h0).2.2.2.1
    | finish _ hp => exact hp
    | magicLast _ _ _ _ hlast => exact hlast
    | magicMore => cases hd

/-! ### Archives -/

/-- The bytes of a member. -/
def memberBytes (x : EntryMetadata × List Byte) : List Byte :=
  memberHeader x.1 (x.2.length + inlineLength x.1.path.raw) ++
    ((if inlineName x.1.path.raw then x.1.path.raw else []) ++
      (x.2 ++ List.replicate ((x.2.length + inlineLength x.1.path.raw) % 2) (chr '\n')))

theorem effect_beginEntry {out : List Byte} (hp : e.pending = [])
    (h : effect e (.beginEntry m) = some (e', out)) :
    ∃ size, m.size = some size ∧ e'.remaining = size.toNat ∧ e'.isOpen = true ∧
      e'.done = e.done ∧ e'.started = true ∧ e'.pending = [] ∧
      e'.padding = (size.toNat + inlineLength m.path.raw) % 2 ∧
      out = (if e.started then [] else magic) ++
        (memberHeader m (size.toNat + inlineLength m.path.raw) ++
          (if inlineName m.path.raw then m.path.raw else [])) := by
  simp only [effect] at h
  split at h
  · next entries e1 hc hst =>
    obtain ⟨size, hsize, -, rfl⟩ := stageEntry_ok hst
    cases h
    refine ⟨size, hsize, rfl, rfl, ?_, ?_, rfl, rfl, ?_⟩
    · show e.start.done = e.done
      unfold start
      split_ifs
      · rfl
      · rfl
    · show e.start.started = true
      unfold start
      split_ifs with hs
      · exact hs
      · rfl
    · show e.start.pending ++ _ ++ _ = _
      rw [List.append_assoc]
      congr 1
      unfold start
      split_ifs
      · exact hp
      · show e.pending ++ magic = magic
        rw [hp, List.nil_append]
  · cases h

theorem effect_data_some {bytes out : List Byte} (h : effect e (.data bytes) = some (e', out)) :
    out = bytes ∧ e' = { e with remaining := e.remaining - bytes.length } ∧
      bytes.length ≤ e.remaining := by
  simp only [effect] at h
  split_ifs at h with hnil hbad
  · cases h
    have hb : bytes = [] := by simpa using hnil
    subst hb
    exact ⟨rfl, rfl, Nat.zero_le _⟩
  · cases h
    have hle := (Bool.or_eq_false_iff.mp (Bool.eq_false_iff.mpr hbad)).2
    exact ⟨rfl, rfl, by simpa using hle⟩

/-- **What a script writes**: the members, behind the global magic. -/
theorem writes_script : ∀ (xs : List (EntryMetadata × List Byte)) {e : ArEncoder} {w : List Byte},
    e.isOpen = false → e.done = false → e.pending = [] → writes effect e (script xs) = some w →
    w = (if e.started then [] else magic) ++ xs.flatMap memberBytes
  | [], e, w, ho, hd, hp, h => by
    obtain ⟨e1, out, rest, heff, hrest, rfl⟩ := writes_cons h
    cases hrest
    simp only [effect, ho, hd] at heff
    cases heff
    rfl
  | (m, body) :: xs, e, w, ho, hd, hp, h => by
    have hscript : script ((m, body) :: xs) =
        .beginEntry m :: .data body :: .endEntry :: script xs := rfl
    rw [hscript] at h
    obtain ⟨e1, out1, rest1, heff1, h1, rfl⟩ := writes_cons h
    obtain ⟨e2, out2, rest2, heff2, h2, rfl⟩ := writes_cons h1
    obtain ⟨e3, out3, rest3, heff3, h3, rfl⟩ := writes_cons h2
    obtain ⟨size, -, hrem, hopen, hdone, hstarted, hpend, hpad, rfl⟩ := effect_beginEntry hp heff1
    obtain ⟨rfl, rfl, hle⟩ := effect_data_some heff2
    simp only [effect] at heff3
    split_ifs at heff3 with hbad
    cases heff3
    -- the payload has the declared size
    have hrest := (Bool.or_eq_false_iff.mp (Bool.eq_false_iff.mpr hbad)).2
    have hzero : e1.remaining - out2.length = 0 := by simpa using hrest
    have hsize : size.toNat = out2.length := by omega
    have hd3 : ({ e1 with
        remaining := e1.remaining - out2.length, padding := 0, isOpen := false } :
        ArEncoder).done = false := hdone.trans hd
    have ih := writes_script xs (e := { e1 with
      remaining := e1.remaining - out2.length, padding := 0, isOpen := false }) rfl hd3 hpend h3
    simp only [hstarted, if_true, List.nil_append] at ih
    subst ih
    rw [List.flatMap_cons, memberBytes, hsize, hpad, hsize]
    simp only [List.append_assoc]

/-- **The output of the encoder**, whatever the output buffers are. -/
theorem encodes_script {limits : Limits} {xs : List (EntryMetadata × List Byte)} {out : List Byte}
    (h : Encodes ArEncoder.step (.new limits) (script xs) out) :
    out = magic ++ xs.flatMap memberBytes := by
  have htidy : Tidy (.new limits) := ⟨fun _ => rfl, nofun⟩
  have hlast : (script xs).getLast? = some .finish := by
    rw [script, List.getLast?_concat]
  obtain ⟨w, hw, rfl⟩ := writes_of_encodes realizes htidy h hlast
  exact writes_script xs rfl rfl rfl hw

end

end LibarchiveOxide.Ar.Writing
