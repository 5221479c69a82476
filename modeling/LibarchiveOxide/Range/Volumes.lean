import LibarchiveOxide.Lib.Result
import LibarchiveOxide.Lib.SortedMap
import LibarchiveOxide.Range.Source

/-! # The volume set

`resolve` looks under the lock, asks the resolver without it, and looks again under the lock before
it commits. Calls are threads: each has a phase, and an action moves one call through one of the
three sections, in any order across the calls. -/

namespace LibarchiveOxide.Range.Volumes

open Core.Failure Core.Budget Range.Source Lib

variable {S : Type} [ReadAt S]

/-! ### The code -/

/-- What the lock protects: the answer of every volume resolved so far (`none` for one that is
unavailable) and the sum of their lengths. -/
structure VolumeState (S : Type) where
  resolved : List (VolumeId × Option S)
  totalBytes : ℕ

/-- The source set: the resolver is outside, its answers come with the actions. -/
structure VolumeSet (S : Type) where
  primary : S
  limits : SourceLimits

namespace VolumeSet

/-- A bounded volume set, with nothing resolved. -/
def new (primary : S) (limits : SourceLimits) : Except IoError (VolumeSet S × VolumeState S) := do
  validateSourceLength (ReadAt.len primary) limits (some 0)
  if limits.volumes = some 0 then
    .error (.range (({ kind := .volumeCountExceeded } : RangeReadError).withBudget 1 0))
  else if exceeds (ReadAt.len primary) limits.volumeBytes then
    .error (.range ((({ kind := .volumeBytesExceeded } : RangeReadError).forVolume 0).withBudget
      (ReadAt.len primary) (limits.volumeBytes.getD 0)))
  else .ok (⟨primary, limits⟩, ⟨[], 0⟩)

variable (set : VolumeSet S)

/-- The number of volumes with the primary one and the one asked for, in `u32` with saturation. -/
def observed (st : VolumeState S) : ℕ := min (min st.resolved.length u32Max + 2) u32Max

/-- One more volume is within the volume budget. -/
def checkCount (st : VolumeState S) (volume : VolumeId) : Except IoError Unit :=
  if exceeds (observed st) (set.limits.volumes.map UInt32.toNat) then
    .error (.range ((({ kind := .volumeCountExceeded } : RangeReadError).forVolume
      volume).withBudget (observed st) ((set.limits.volumes.map UInt32.toNat).getD 0)))
  else .ok ()

/-- The first locked section: an answer that is there, or the leave to ask for one. -/
def check (st : VolumeState S) (volume : VolumeId) : Except IoError (Option (Option S)) :=
  match SortedMap.find volume st.resolved with
  | some cached => .ok (some cached)
  | none => do
    checkCount set st volume
    .ok none

/-- The section without the lock: what the resolver answered, with its length checked. -/
def validate (volume : VolumeId) (answer : Except IoError (Option S)) :
    Except IoError (Option S) := do
  match ← answer with
  | none => .ok none
  | some source =>
    validateSourceLength (ReadAt.len source) set.limits (some volume)
    .ok (some source)

/-- The total with a new volume, within the byte budget. -/
def addBytes (st : VolumeState S) (volume : VolumeId) : Option S → Except IoError ℕ
  | none => .ok st.totalBytes
  | some source => do
    let overflow : IoError :=
      .range (({ kind := .volumeBytesExceeded } : RangeReadError).forVolume volume)
    let total ← okOr ((checkedAdd (ReadAt.len set.primary) st.totalBytes).bind
      (checkedAdd · (ReadAt.len source))) overflow
    if exceeds total set.limits.volumeBytes then
      .error (.range ((({ kind := .volumeBytesExceeded } : RangeReadError).forVolume
        volume).withBudget total (set.limits.volumeBytes.getD 0)))
    else okOr (checkedAdd st.totalBytes (ReadAt.len source)) overflow

/-- The second locked section: the answer that is there by now, or this one committed. -/
def commit (st : VolumeState S) (volume : VolumeId) (resolved : Option S) :
    Except IoError (Option S) × VolumeState S :=
  match SortedMap.find volume st.resolved with
  | some cached => (.ok cached, st)
  | none =>
    match checkCount set st volume with
    | .error e => (.error e, st)
    | .ok () =>
      match addBytes set st volume resolved with
      | .error e => (.error e, st)
      | .ok total =>
        (.ok resolved,
          { resolved := SortedMap.insert (fun a b => a < b) volume resolved st.resolved
            totalBytes := total })

end VolumeSet

/-! ### Calls in any order -/

/-- How far a call is. -/
inductive Phase (S : Type) where
  | entered
  | asking
  | answered (resolved : Option S)
  | returned (r : Except IoError (Option S))

/-- A call of `resolve`. -/
structure Call (S : Type) where
  volume : VolumeId
  phase : Phase S

/-- The shared state and the calls made so far. A lock whose holder died is poisoned. -/
structure System (S : Type) where
  state : VolumeState S
  poisoned : Bool := false
  calls : List (Call S) := []

/-- What happens next: a new call, one section of a call, or the loss of the lock. -/
inductive Action (S : Type) where
  | call (volume : VolumeId)
  | check (i : ℕ)
  | answer (i : ℕ) (r : Except IoError (Option S))
  | commit (i : ℕ)
  | poison

/-- `resolve` returns the primary source for volume zero before it takes the lock. -/
def enter (set : VolumeSet S) (volume : VolumeId) : Phase S :=
  if volume = 0 then .returned (.ok (some set.primary)) else .entered

/-- After the first locked section. -/
def afterCheck (set : VolumeSet S) (st : VolumeState S) (volume : VolumeId) : Phase S :=
  match set.check st volume with
  | .error e => .returned (.error e)
  | .ok (some cached) => .returned (.ok cached)
  | .ok none => .asking

/-- After the section without the lock. -/
def afterAnswer (set : VolumeSet S) (volume : VolumeId) (r : Except IoError (Option S)) :
    Phase S :=
  match set.validate volume r with
  | .error e => .returned (.error e)
  | .ok resolved => .answered resolved

/-- `lock_state` on a poisoned lock. -/
def unavailable : Phase S := .returned (.error (rangeError .sourceUnavailable))

namespace System

/-- A call moved to a phase. -/
def move (s : System S) (i : ℕ) (c : Call S) (phase : Phase S) : System S :=
  { s with calls := s.calls.set i { c with phase := phase } }

/-- One action, where it is possible. -/
def step (set : VolumeSet S) (s : System S) : Action S → Option (System S)
  | .call volume => some { s with calls := s.calls ++ [⟨volume, enter set volume⟩] }
  | .check i =>
    match s.calls[i]? with
    | some ⟨volume, .entered⟩ =>
      some (s.move i ⟨volume, .entered⟩
        (if s.poisoned then unavailable else afterCheck set s.state volume))
    | _ => none
  | .answer i r =>
    match s.calls[i]? with
    | some ⟨volume, .asking⟩ => some (s.move i ⟨volume, .asking⟩ (afterAnswer set volume r))
    | _ => none
  | .commit i =>
    match s.calls[i]? with
    | some ⟨volume, .answered resolved⟩ =>
      if s.poisoned then some (s.move i ⟨volume, .answered resolved⟩ unavailable)
      else
        let r := set.commit s.state volume resolved
        some ({ s with state := r.2 }.move i ⟨volume, .answered resolved⟩ (.returned r.1))
    | _ => none
  | .poison => some { s with poisoned := true }

end System

/-- The states of a volume set under any interleaving of calls. -/
inductive Reachable (set : VolumeSet S) (st : VolumeState S) : System S → Prop
  | init : Reachable set st { state := st }
  | step {s s' : System S} {a : Action S} (hr : Reachable set st s)
      (h : s.step set a = some s') : Reachable set st s'

/-- The lengths of the resolved volumes. -/
def resolvedBytes (m : List (VolumeId × Option S)) : ℕ :=
  (m.map fun kv => kv.2.elim 0 ReadAt.len).sum

/-- What a volume set is for: both budgets, an exact total, and one answer for each volume. -/
structure Kept (set : VolumeSet S) (s : System S) : Prop where
  count : Within (1 + s.state.resolved.length) (set.limits.volumes.map UInt32.toNat)
  bytes : Within (ReadAt.len set.primary + resolvedBytes s.state.resolved) set.limits.volumeBytes
  total : s.state.totalBytes = resolvedBytes s.state.resolved
  agree : ∀ c ∈ s.calls, ∀ c' ∈ s.calls, c.volume = c'.volume → ∀ r r',
    c.phase = .returned (.ok r) → c'.phase = .returned (.ok r') → r = r'
  committed : ∀ c ∈ s.calls, ∀ r, c.phase = .returned (.ok r) →
    if c.volume = 0 then r = some set.primary
    else SortedMap.find c.volume s.state.resolved = some r

/-! ### What a commit can do -/

variable {volume : VolumeId} {r : Option S}

variable {set : VolumeSet S} {st : VolumeState S}

/-- The bytes of an answer. -/
def answerBytes (r : Option S) : ℕ := r.elim 0 ReadAt.len

theorem resolvedBytes_cons (k : VolumeId) (r : Option S) (m : List (VolumeId × Option S)) :
    resolvedBytes ((k, r) :: m) = answerBytes r + resolvedBytes m := by
  simp [resolvedBytes, answerBytes]

theorem resolvedBytes_perm {m m' : List (VolumeId × Option S)} (h : m.Perm m') :
    resolvedBytes m = resolvedBytes m' := (h.map _).sum_nat

theorem addBytes_ok {total : ℕ} (h : set.addBytes st volume r = .ok total)
    (hb : Within (ReadAt.len set.primary + st.totalBytes) set.limits.volumeBytes) :
    total = st.totalBytes + answerBytes r ∧
      Within (ReadAt.len set.primary + total) set.limits.volumeBytes := by
  cases r with
  | none =>
    rw [VolumeSet.addBytes] at h
    cases h
    exact ⟨rfl, hb⟩
  | some source =>
    rw [VolumeSet.addBytes] at h
    obtain ⟨t, ht, h⟩ := Result.bind_eq_ok.mp h
    obtain ⟨a, ha, hat⟩ := Option.bind_eq_some_iff.mp (okOr_eq_ok.mp ht)
    obtain ⟨rfl, -⟩ := checkedAdd_eq_some.mp ha
    obtain ⟨rfl, -⟩ := checkedAdd_eq_some.mp hat
    split_ifs at h with hx
    obtain ⟨rfl, -⟩ := checkedAdd_eq_some.mp (okOr_eq_ok.mp h)
    have hw := within_of_not_exceeds hx
    rw [Nat.add_assoc] at hw
    exact ⟨rfl, hw⟩

/-- A commit finds an answer, fails, or binds a volume that was not bound, within the budgets. -/
theorem commit_cases (volume : VolumeId) (resolved : Option S) :
    ((set.commit st volume resolved).2 = st ∧ ∀ r, (set.commit st volume resolved).1 = .ok r →
      SortedMap.find volume st.resolved = some r) ∨
    (SortedMap.find volume st.resolved = none ∧ set.checkCount st volume = .ok () ∧
      ∃ total, set.addBytes st volume resolved = .ok total ∧
        set.commit st volume resolved = (.ok resolved,
          { resolved := SortedMap.insert (fun a b => a < b) volume resolved st.resolved
            totalBytes := total })) := by
  unfold VolumeSet.commit
  cases hf : SortedMap.find volume st.resolved with
  | some cached => exact .inl ⟨rfl, fun r hr => by cases hr; rfl⟩
  | none =>
    cases hc : set.checkCount st volume with
    | error e => exact .inl ⟨rfl, nofun⟩
    | ok u =>
      cases ha : set.addBytes st volume resolved with
      | error e => exact .inl ⟨rfl, nofun⟩
      | ok total => exact .inr ⟨rfl, rfl, total, rfl, rfl⟩

omit [ReadAt S] in
/-- A volume that passes the count check fits in a limit below `u32::MAX`: there the saturating
count is the exact one. -/
theorem checkCount_ok (h : set.checkCount st volume = .ok ())
    (hmax : set.limits.volumes ≠ some 0xFFFFFFFF) :
    Within (1 + (st.resolved.length + 1)) (set.limits.volumes.map UInt32.toNat) := by
  unfold VolumeSet.checkCount at h
  split_ifs at h with hx
  intro l hl
  have hw := within_of_not_exceeds hx l hl
  obtain ⟨l', hl', rfl⟩ := Option.map_eq_some_iff.mp hl
  have hlt : l'.toNat < u32Max := by
    have hle : l'.toNat < 2 ^ 32 := l'.toNat_lt
    have hne : l'.toNat ≠ u32Max := by
      intro he
      exact hmax (by rw [hl', show l' = 0xFFFFFFFF from UInt32.toNat_inj.mp he])
    unfold u32Max at *
    omega
  unfold VolumeSet.observed at hw
  omega

/-! ### The invariant -/

variable {s : System S}

/-- What every action keeps. -/
structure Inv (set : VolumeSet S) (s : System S) : Prop where
  keyed : SortedMap.Keyed s.state.resolved
  count : set.limits.volumes ≠ some 0xFFFFFFFF →
    Within (1 + s.state.resolved.length) (set.limits.volumes.map UInt32.toNat)
  bytes : Within (ReadAt.len set.primary + s.state.totalBytes) set.limits.volumeBytes
  total : s.state.totalBytes = resolvedBytes s.state.resolved
  committed : ∀ c ∈ s.calls, ∀ r, c.phase = .returned (.ok r) →
    if c.volume = 0 then r = some set.primary
    else SortedMap.find c.volume s.state.resolved = some r
  flying : ∀ c ∈ s.calls, c.volume = 0 → ∃ r, c.phase = .returned r

/-- The invariant gives everything but the count, which takes a limit below `u32::MAX`. -/
theorem Inv.kept (h : Inv set s) (hmax : set.limits.volumes ≠ some 0xFFFFFFFF) :
    Kept set s where
  count := h.count hmax
  bytes := by rw [← h.total]; exact h.bytes
  total := h.total
  agree := by
    intro c hc c' hc' hv r r' hr hr'
    have h1 := h.committed c hc r hr
    have h2 := h.committed c' hc' r' hr'
    rw [← hv] at h2
    split_ifs at h1 h2
    · rw [h1, h2]
    · exact Option.some.inj (h1.symm.trans h2)
  committed := h.committed

/-- The shared state is as before, and every call that now returns an answer has the one that is
bound. -/
theorem Inv.of_calls {s' : System S} (h : Inv set s) (hst : s'.state = s.state)
    (hc : ∀ c ∈ s'.calls, c ∈ s.calls ∨
      (∀ r, c.phase = .returned (.ok r) → if c.volume = 0 then r = some set.primary
        else SortedMap.find c.volume s.state.resolved = some r) ∧
      (c.volume = 0 → ∃ r, c.phase = .returned r)) : Inv set s' where
  keyed := by rw [hst]; exact h.keyed
  count := by rw [hst]; exact h.count
  bytes := by rw [hst]; exact h.bytes
  total := by rw [hst]; exact h.total
  committed := by
    intro c hm r hr
    rw [hst]
    rcases hc c hm with hm | hm
    · exact h.committed c hm r hr
    · exact hm.1 r hr
  flying := by
    intro c hm hz
    rcases hc c hm with hm | hm
    · exact h.flying c hm hz
    · exact hm.2 hz

theorem Inv.move (h : Inv set s) (i : ℕ) (c : Call S) {phase : Phase S} (hv : c.volume ≠ 0)
    (hp : ∀ r, phase = .returned (.ok r) →
      SortedMap.find c.volume s.state.resolved = some r) : Inv set (s.move i c phase) := by
  refine h.of_calls rfl fun c' hc' => ?_
  rcases List.mem_or_eq_of_mem_set hc' with hm | rfl
  · exact .inl hm
  · refine .inr ⟨fun r hr => ?_, fun hz => absurd hz hv⟩
    rw [if_neg hv]
    exact hp r hr

/-- A call that has not returned is for a volume other than the primary one. -/
theorem Inv.volume_ne_zero (h : Inv set s) {i : ℕ} {phase : Phase S}
    (hc : s.calls[i]? = some ⟨volume, phase⟩) (hp : ∀ r, phase ≠ .returned r) : volume ≠ 0 := by
  intro hz
  obtain ⟨r, hr⟩ := h.flying _ (List.mem_of_getElem? hc) hz
  exact hp r hr

omit [ReadAt S] in
theorem check_ok (h : set.check st volume = .ok (some r)) :
    SortedMap.find volume st.resolved = some r := by
  unfold VolumeSet.check at h
  cases hf : SortedMap.find volume st.resolved with
  | some cached =>
    rw [hf] at h
    cases h
    rfl
  | none =>
    rw [hf] at h
    obtain ⟨_, -, h⟩ := Result.bind_eq_ok.mp h
    cases h

omit [ReadAt S] in
theorem afterCheck_returned (h : afterCheck set st volume = .returned (.ok r)) :
    SortedMap.find volume st.resolved = some r := by
  unfold afterCheck at h
  cases hc : set.check st volume with
  | error e => rw [hc] at h; cases h
  | ok o =>
    rw [hc] at h
    cases o with
    | none => cases h
    | some cached =>
      cases h
      exact check_ok hc

theorem afterAnswer_ne_returned {a : Except IoError (Option S)} :
    afterAnswer set volume a ≠ .returned (.ok r) := by
  unfold afterAnswer
  cases set.validate volume a with
  | error e => nofun
  | ok o => nofun

/-- A commit keeps the invariant, whichever call commits first. -/
theorem Inv.commit (h : Inv set s) {i : ℕ} {resolved : Option S} (hv : volume ≠ 0) :
    Inv set (({ s with state := (set.commit s.state volume resolved).2 } : System S).move i
      ⟨volume, .answered resolved⟩ (.returned (set.commit s.state volume resolved).1)) := by
  rcases @commit_cases _ _ set s.state volume resolved with
    ⟨hst, hr⟩ | ⟨hf, hcount, total, hadd, he⟩
  · rw [hst]
    refine Inv.move h i _ hv fun r hp => ?_
    exact hr r (by injection hp)
  · rw [he]
    obtain ⟨rfl, hbytes⟩ := addBytes_ok hadd h.bytes
    have hperm := @SortedMap.bind_perm _ _ _ (fun a b => decide (a < b)) _ resolved _ h.keyed hf
    refine Inv.move (s := { s with state := _ }) ?_ i _ hv fun r hp => ?_
    · refine ⟨SortedMap.keyed_bind h.keyed hf, fun hmax => ?_, hbytes, ?_, ?_, h.flying⟩
      · rw [hperm.length_eq]
        exact checkCount_ok hcount hmax
      · rw [resolvedBytes_perm hperm, resolvedBytes_cons, h.total, Nat.add_comm]
      · intro c hc r hr
        have hb := h.committed c hc r hr
        split_ifs at hb ⊢ with hz
        · exact hb
        · exact SortedMap.find_bind h.keyed hf hb
    · cases hp
      exact SortedMap.find_bind_self h.keyed hf

/-- **Every action keeps the invariant.** -/
theorem Inv.step {s s' : System S} {a : Action S} (h : Inv set s) (hs : s.step set a = some s') :
    Inv set s' := by
  cases a with
  | call volume =>
    cases hs
    refine h.of_calls rfl fun c hc => ?_
    rcases List.mem_append.mp hc with hm | hm
    · exact .inl hm
    · rw [List.mem_singleton] at hm
      subst hm
      refine .inr ⟨fun r hr => ?_, fun hz => ⟨_, if_pos hz⟩⟩
      dsimp only at hr
      unfold enter at hr
      split_ifs at hr with hz
      rw [if_pos hz]
      injection hr with hr
      injection hr with hr
      exact hr.symm
  | check i =>
    rw [System.step] at hs
    split at hs
    next volume hc =>
      cases hs
      have hv : volume ≠ 0 := h.volume_ne_zero hc fun r hr => by cases hr
      refine h.move i _ hv fun r hp => ?_
      split_ifs at hp
      · cases hp
      · exact afterCheck_returned hp
    next => cases hs
  | answer i r =>
    rw [System.step] at hs
    split at hs
    next volume hc =>
      cases hs
      have hv : volume ≠ 0 := h.volume_ne_zero hc fun r hr => by cases hr
      exact h.move i _ hv fun r hp => absurd hp afterAnswer_ne_returned
    next => cases hs
  | commit i =>
    rw [System.step] at hs
    split at hs
    next volume resolved hc =>
      have hv : volume ≠ 0 := h.volume_ne_zero hc fun r hr => by cases hr
      split_ifs at hs
      · cases hs
        exact h.move i _ hv fun r hr => by cases hr
      · cases hs
        exact h.commit hv
    next => cases hs
  | poison =>
    cases hs
    exact h.of_calls rfl fun c hc => .inl hc

/-- **Every reachable state keeps the invariant.** -/
theorem Inv.of_reachable {primary : S} {limits : SourceLimits}
    (hnew : VolumeSet.new primary limits = .ok (set, st)) (h : Reachable set st s) : Inv set s := by
  induction h with
  | init =>
    obtain ⟨-, -, hn⟩ := Result.bind_eq_ok.mp hnew
    split_ifs at hn with hz hx
    cases hn
    refine ⟨List.nodup_nil, fun _ l hl => ?_, within_of_not_exceeds hx, rfl,
      fun c hc => absurd hc List.not_mem_nil, fun c hc => absurd hc List.not_mem_nil⟩
    obtain ⟨l', hl', rfl⟩ := Option.map_eq_some_iff.mp hl
    dsimp only at hl'
    have hne : l'.toNat ≠ 0 := by
      intro he
      exact hz (by rw [hl', show l' = 0 from UInt32.toNat_inj.mp he])
    rw [List.length_nil]
    omega
  | step _ hs ih => exact ih.step hs

/-! ### Calls one after the other -/

/-- A call that nothing interrupts commits its answer. -/
theorem Reachable.resolve (h : Reachable set st s) (hp : s.poisoned = false) (hv : volume ≠ 0)
    (hf : SortedMap.find volume s.state.resolved = none)
    (hc : set.checkCount s.state volume = .ok ()) (hr : set.validate volume (.ok r) = .ok r)
    {total : ℕ} (ha : set.addBytes s.state volume r = .ok total) :
    Reachable set st
      { state :=
          { resolved := SortedMap.insert (fun a b => a < b) volume r s.state.resolved
            totalBytes := total }
        calls := s.calls ++ [⟨volume, .returned (.ok r)⟩] } := by
  have h1 := h.step (a := .call volume) rfl
  have h2 := @Reachable.step _ _ _ _ _ { s with calls := s.calls ++ [⟨volume, .asking⟩] }
    (.check s.calls.length) h1 (by
      simp [System.step, enter, hv, System.move, hp, afterCheck, VolumeSet.check, hf, hc])
  have h3 := @Reachable.step _ _ _ _ _ { s with calls := s.calls ++ [⟨volume, .answered r⟩] }
    (.answer s.calls.length (.ok r)) h2 (by
      simp [System.step, System.move, afterAnswer, hr])
  refine h3.step (a := .commit s.calls.length) ?_
  simp [System.step, System.move, hp, VolumeSet.commit, hf, hc, ha]

omit [ReadAt S] in
/-- Against a limit of `u32::MAX` the saturating count never fails. -/
theorem checkCount_max (hmax : set.limits.volumes = some 0xFFFFFFFF) (volume : VolumeId) :
    set.checkCount st volume = .ok () := by
  unfold VolumeSet.checkCount
  rw [hmax, if_neg]
  have : VolumeSet.observed st ≤ u32Max := min_le_right _ _
  simpa [exceeds, u32Max] using this

/-- An empty answer is within every byte budget. -/
theorem addBytes_empty (hr : answerBytes r = 0) (ht : st.totalBytes = 0)
    (hb : Within (ReadAt.len set.primary) set.limits.volumeBytes) :
    set.addBytes st volume r = .ok 0 := by
  cases r with
  | none => rw [VolumeSet.addBytes, ht]
  | some source =>
    have hs : ReadAt.len source = 0 := hr
    have hl := ReadAt.len_le set.primary
    have hx := within_iff.mp hb
    simp [VolumeSet.addBytes, hs, ht, checkedAdd_of_le, hl, hx]

theorem validate_empty (hr : answerBytes r = 0) : set.validate volume (.ok r) = .ok r := by
  cases r with
  | none => rfl
  | some source =>
    have hs : ReadAt.len source = 0 := hr
    have hl : validateSourceLength 0 set.limits (some volume) = .ok () := by
      unfold validateSourceLength
      cases set.limits.sourceBytes with
      | none => rfl
      | some l => exact if_pos (Nat.zero_le l)
    simp [VolumeSet.validate, hs, hl]

/-- With a limit of `u32::MAX`, the volumes from `1` to `n` resolve one after the other, each to an
empty answer, for every `n` up to `u32::MAX`. -/
theorem reachable_volumes {primary : S} {limits : SourceLimits}
    (hnew : VolumeSet.new primary limits = .ok (set, st))
    (hmax : set.limits.volumes = some 0xFFFFFFFF) {r : Option S} (hr : answerBytes r = 0) (n : ℕ)
    (hn : n ≤ u32Max) : ∃ s, Reachable set st s ∧ s.poisoned = false ∧ s.state.totalBytes = 0 ∧
      s.state.resolved.length = n ∧ ∀ kv ∈ s.state.resolved, kv.1.toNat ≤ n := by
  obtain ⟨-, -, hn'⟩ := Result.bind_eq_ok.mp hnew
  split_ifs at hn' with hz hx
  injection hn' with hn'
  injection hn' with hset hst
  have hb : Within (ReadAt.len set.primary) set.limits.volumeBytes := by
    rw [← hset]
    exact within_of_not_exceeds hx
  induction n with
  | zero => exact ⟨_, .init, rfl, by rw [← hst], by rw [← hst]; rfl, by rw [← hst]; nofun⟩
  | succ n ih =>
    obtain ⟨s, hs, hp, ht, hlen, hkeys⟩ := ih (by omega)
    have hinv := Inv.of_reachable hnew hs
    have hv : (UInt32.ofNat (n + 1)).toNat = n + 1 := by
      rw [UInt32.toNat_ofNat', Nat.mod_eq_of_lt]
      unfold u32Max at hn
      omega
    have hv0 : UInt32.ofNat (n + 1) ≠ 0 := by
      intro he
      rw [he] at hv
      simp at hv
    have hf : SortedMap.find (UInt32.ofNat (n + 1)) s.state.resolved = none := by
      rw [Option.eq_none_iff_forall_ne_some]
      intro v hfv
      have hle : (UInt32.ofNat (n + 1)).toNat ≤ n := hkeys _ (SortedMap.mem_of_find hfv)
      omega
    refine ⟨_, hs.resolve hp hv0 hf (checkCount_max hmax _) (validate_empty hr)
      (addBytes_empty hr ht hb), rfl, rfl, ?_, ?_⟩
    · rw [(SortedMap.bind_perm hinv.keyed hf).length_eq, List.length_cons, hlen]
    · intro kv hkv
      rcases List.mem_cons.mp ((SortedMap.bind_perm hinv.keyed hf).subset hkv) with rfl | hm
      · exact hv.le
      · exact (hkeys kv hm).trans (Nat.le_succ n)

/-- **The volume set keeps its budgets and one answer for each volume, under any interleaving of
calls and any answers of the resolver, exactly if its limit on volumes is not `u32::MAX`.** -/
theorem resolve_kept_iff {primary : S} {limits : SourceLimits}
    (hnew : VolumeSet.new primary limits = .ok (set, st)) :
    (∀ s, Reachable set st s → Kept set s) ↔ limits.volumes ≠ some 0xFFFFFFFF := by
  have hlim : set.limits = limits := by
    obtain ⟨-, -, hn⟩ := Result.bind_eq_ok.mp hnew
    split_ifs at hn
    cases hn
    rfl
  rw [← hlim]
  constructor
  · intro h hmax
    obtain ⟨s, hs, -, -, hlen, -⟩ := reachable_volumes hnew hmax (r := none) rfl u32Max le_rfl
    have hcount := (h s hs).count u32Max (by rw [hmax]; rfl)
    omega
  · intro hmax s hs
    exact (Inv.of_reachable hnew hs).kept hmax

/-- The default budgets around a one-byte primary source. -/
theorem resolve_kept_iff_safe :
    VolumeSet.new (⟨[0], [1]⟩ : MemoryReadAt) .safe =
        .ok (⟨⟨[0], [1]⟩, .safe⟩, ⟨[], 0⟩) ∧
      ((∀ s, Reachable (⟨⟨[0], [1]⟩, .safe⟩ : VolumeSet MemoryReadAt) ⟨[], 0⟩ s →
        Kept ⟨⟨[0], [1]⟩, .safe⟩ s) ↔ SourceLimits.safe.volumes ≠ some 0xFFFFFFFF) :=
  have hnew : VolumeSet.new (⟨[0], [1]⟩ : MemoryReadAt) .safe =
      .ok (⟨⟨[0], [1]⟩, .safe⟩, ⟨[], 0⟩) := rfl
  ⟨hnew, resolve_kept_iff hnew⟩

/-- With a limit of `u32::MAX` volumes and resolver answers that are empty sources, `2 ^ 32`
volumes are in use in the end. -/
theorem reachable_over_limit :
    ∃ s, Reachable (⟨⟨[], [1]⟩, { SourceLimits.unlimited with volumes := some 0xFFFFFFFF }⟩ :
          VolumeSet MemoryReadAt) ⟨[], 0⟩ s ∧
        VolumeSet.new (⟨[], [1]⟩ : MemoryReadAt)
            { SourceLimits.unlimited with volumes := some 0xFFFFFFFF } =
          .ok (⟨⟨[], [1]⟩, { SourceLimits.unlimited with volumes := some 0xFFFFFFFF }⟩, ⟨[], 0⟩) ∧
        (0xFFFFFFFF : UInt32).toNat < 1 + s.state.resolved.length := by
  obtain ⟨s, hs, -, -, hlen, -⟩ := @reachable_volumes _ _ _ _ (⟨[], [1]⟩ : MemoryReadAt)
    { SourceLimits.unlimited with volumes := some 0xFFFFFFFF } rfl rfl (some ⟨[], [2]⟩) rfl
    u32Max le_rfl
  refine ⟨s, hs, rfl, ?_⟩
  rw [hlen]
  decide

end LibarchiveOxide.Range.Volumes
