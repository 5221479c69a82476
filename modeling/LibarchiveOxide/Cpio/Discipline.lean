import LibarchiveOxide.Core.Grammar
import LibarchiveOxide.Cpio.DecoderLemmas

/-! # The events of the cpio decoder

A record is reported, queued or withheld in the group of its key, so the records begun are the
entries reported, the entries queued and the records withheld. What is queued or withheld is empty
and has a path within the budget. -/

namespace LibarchiveOxide.Cpio.Decoder

open Core.Failure Core.Budget Core.Metadata Core.Protocol Core.Drive Core.Grammar Cpio.Header Lib
open Lib.Result

/-! ### Groups -/

/-- An entry without data and with a path within the budget. -/
def Light (limits : Limits) (m : EntryMetadata) : Prop :=
  m.size = some 0 ∧ Within m.path.raw.length limits.pathBytes

/-- A group withholds only empty records, and none once it has a target. -/
structure Sound (limits : Limits) (group : HardlinkGroup) : Prop where
  settled : group.target.isSome → group.pending = []
  light : ∀ m ∈ group.pending, Light limits m

/-- The number of records the groups withhold. -/
def withheld (groups : List (HardlinkKey × HardlinkGroup)) : ℕ :=
  (groups.map fun b => b.2.pending.length).sum

theorem light_hardlinkMetadata {limits : Limits} {m : EntryMetadata} (target : ArchivePath)
    (h : Within m.path.raw.length limits.pathBytes) : Light limits (hardlinkMetadata m target) :=
  ⟨rfl, h⟩

theorem length_resolve (ms : List EntryMetadata) : (resolve ms).length = ms.length := by
  cases ms with
  | nil => rfl
  | cons m ms => simp [resolve]

theorem light_resolve {limits : Limits} {ms : List EntryMetadata}
    (h : ∀ m ∈ ms, Light limits m) : ∀ m ∈ resolve ms, Light limits m := by
  cases ms with
  | nil => simp [resolve]
  | cons first rest =>
    intro m hm
    rcases List.mem_cons.mp hm with rfl | hm
    · exact h _ List.mem_cons_self
    · obtain ⟨m', hm', rfl⟩ := List.mem_map.mp hm
      exact light_hardlinkMetadata _ (h m' (List.mem_cons_of_mem _ hm')).2

section
variable {limits : Limits} {group group' : HardlinkGroup} {m : EntryMetadata} {size : ℕ}
  {queued : List EntryMetadata} {result : Option EntryMetadata}

/-- What a record that joins a group turns into. -/
structure Joining (limits : Limits) (group group' : HardlinkGroup) (m : EntryMetadata) (size : ℕ)
    (queued : List EntryMetadata) (result : Option EntryMetadata) : Prop where
  sound : Sound limits group'
  light : ∀ m ∈ queued, Light limits m
  count : group'.pending.length + queued.length + result.toList.length = group.pending.length + 1
  result_size : ∀ m', result = some m' → m'.size.map UInt64.toNat = some size ∧ m'.path = m.path
  none_size : result = none → size = 0

theorem joining_of_joined (hg : Sound limits group)
    (hsize : m.size.map UInt64.toNat = some size)
    (hpath : Within m.path.raw.length limits.pathBytes)
    (h : Joined group m size group' queued result) :
    Joining limits group group' m size queued result := by
  have hlight : size = 0 → Light limits m := by
    rintro rfl
    refine ⟨?_, hpath⟩
    obtain ⟨v, hv, hv0⟩ := Option.map_eq_some_iff.mp hsize
    rw [hv, UInt64.toNat_inj.mp (hv0.trans UInt64.toNat_zero.symm)]
  cases h with
  | payload =>
    refine ⟨⟨fun _ => rfl, by simp⟩, ?_, by simp, ?_, by simp⟩
    · intro q hq
      obtain ⟨m', hm', rfl⟩ := List.mem_map.mp hq
      exact light_hardlinkMetadata _ (hg.light m' hm').2
    · rintro m' ⟨⟩
      exact ⟨hsize, rfl⟩
  | link target hs ht =>
    have hnil := hg.settled (by simp [ht])
    refine ⟨⟨fun _ => hnil, hg.light⟩, by simp, by simp, ?_, by simp⟩
    rintro m' ⟨⟩
    rw [hs]
    exact ⟨rfl, rfl⟩
  | last hs ht =>
    refine ⟨⟨fun _ => rfl, by simp⟩, light_resolve ?_, ?_, by simp, fun _ => hs⟩
    · intro q hq
      rcases List.mem_append.mp hq with hq | hq
      · exact hg.light q hq
      · rw [List.mem_singleton.mp hq]
        exact hlight hs
    · simp [length_resolve]
  | withheld hs ht =>
    refine ⟨⟨fun h => absurd h (by simp [ht]), ?_⟩, by simp, by simp, by simp, fun _ => hs⟩
    intro q hq
    rcases List.mem_append.mp hq with hq | hq
    · exact hg.light q hq
    · rw [List.mem_singleton.mp hq]
      exact hlight hs

end

theorem withheld_rebind {groups : List (HardlinkKey × HardlinkGroup)} (k : HardlinkKey)
    (group group' : HardlinkGroup) (hk : SortedMap.Keyed groups)
    (hg : group = (SortedMap.find k groups).getD { expected := group.expected }) :
    withheld (SortedMap.insert HardlinkKey.lt k group' (SortedMap.erase k groups)) +
      group.pending.length = withheld groups + group'.pending.length := by
  have hnew : withheld (SortedMap.insert HardlinkKey.lt k group' (SortedMap.erase k groups)) =
      group'.pending.length + withheld (SortedMap.erase k groups) :=
    ((SortedMap.rebind_perm hk).map _).sum_eq
  have hold : withheld groups = group.pending.length + withheld (SortedMap.erase k groups) := by
    cases hf : SortedMap.find k groups with
    | none =>
      rw [hf] at hg
      rw [SortedMap.erase_of_find hf, hg]
      simp
    | some g =>
      rw [hf] at hg
      subst hg
      exact ((SortedMap.perm_of_find hf).map _).sum_eq
  omega

/-- The groups of a decoder. -/
structure Grouped (limits : Limits) (groups : List (HardlinkKey × HardlinkGroup)) : Prop where
  keyed : SortedMap.Keyed groups
  sound : ∀ b ∈ groups, Sound limits b.2

section
variable {limits : Limits} {d d' : CpioDecoder} {m : EntryMetadata} {size : ℕ}
  {result : Option EntryMetadata}

/-- What the classification of a record adds to the queue, and where the record is. -/
structure Filed (limits : Limits) (d d' : CpioDecoder) (m : EntryMetadata) (size : ℕ)
    (result : Option EntryMetadata) (Q : List EntryMetadata) : Prop where
  groups : Grouped limits d'.hardlinks
  queued : d'.queued = d.queued ++ Q.flatMap queueEntry
  light : ∀ m ∈ Q, Light limits m
  count : withheld d'.hardlinks + Q.length + result.toList.length = withheld d.hardlinks + 1
  result_size : ∀ m', result = some m' → m'.size.map UInt64.toNat = some size ∧ m'.path = m.path
  none_size : result = none → size = 0

theorem filed_of_classified (hg : Grouped limits d.hardlinks)
    (hsize : m.size.map UInt64.toNat = some size)
    (hpath : Within m.path.raw.length limits.pathBytes) (h : Classified d m size result d') :
    ∃ Q, Filed limits d d' m size result Q := by
  cases h with
  | single =>
    refine ⟨[], hg, by simp, by simp, by simp, ?_, by simp⟩
    rintro m' ⟨⟩
    exact ⟨hsize, rfl⟩
  | @grouped _ group' queued _ account hj =>
    generalize hgr : (SortedMap.find (keyOf m) d.hardlinks).getD { expected := linksOf m } = group
      at hj
    have hsound : Sound limits group := by
      cases hf : SortedMap.find (keyOf m) d.hardlinks with
      | none =>
        rw [hf] at hgr
        subst hgr
        exact ⟨fun _ => rfl, by simp⟩
      | some g =>
        rw [hf] at hgr
        subst hgr
        exact hg.sound _ (SortedMap.mem_of_find hf)
    have hj := joining_of_joined hsound hsize hpath hj
    have hcount := withheld_rebind (keyOf m) group group' hg.keyed (by
      rw [← hgr]
      cases SortedMap.find (keyOf m) d.hardlinks <;> rfl)
    refine ⟨queued, ⟨SortedMap.keyed_rebind hg.keyed, ?_⟩, rfl, hj.light, ?_, hj.result_size,
      hj.none_size⟩
    · rintro ⟨k, g⟩ hb
      rcases (SortedMap.mem_rebind hg.keyed).mp hb with ⟨-, rfl⟩ | ⟨-, hb⟩
      · exact hj.sound
      · exact hg.sound _ hb
    · have := hj.count
      simp only
      omega

theorem length_unresolved {group : HardlinkGroup} (h : Sound limits group) :
    (CpioDecoder.unresolved group).length = group.pending.length := by
  unfold CpioDecoder.unresolved
  split_ifs with ht
  · rw [h.settled ht]
  · exact length_resolve _

theorem light_unresolved {group : HardlinkGroup} (h : Sound limits group) :
    ∀ m ∈ CpioDecoder.unresolved group, Light limits m := by
  unfold CpioDecoder.unresolved
  split_ifs with ht
  · simp
  · exact light_resolve h.light

theorem pending_resolveGroup {group : HardlinkGroup} (h : Sound limits group) :
    (CpioDecoder.resolveGroup group).pending = [] := by
  unfold CpioDecoder.resolveGroup
  split_ifs with ht
  · rcases Bool.or_eq_true _ _ ▸ ht with ht | ht
    · exact h.settled ht
    · simpa using ht
  · rfl

/-- The entries of all withheld records, in the order of the groups. -/
def incomplete (groups : List (HardlinkKey × HardlinkGroup)) : List EntryMetadata :=
  groups.flatMap fun b => CpioDecoder.unresolved b.2

theorem length_incomplete : ∀ {groups : List (HardlinkKey × HardlinkGroup)},
    (∀ b ∈ groups, Sound limits b.2) → (incomplete groups).length = withheld groups
  | [], _ => rfl
  | b :: groups, h => by
    have ih := length_incomplete fun b hb => h b (List.mem_cons_of_mem _ hb)
    rw [incomplete, List.flatMap_cons, List.length_append, ← incomplete, ih,
      length_unresolved (h b List.mem_cons_self)]
    rfl

/-- After the trailer nothing is withheld. -/
theorem resolved (hg : Grouped limits d.hardlinks) :
    Grouped limits d.resolveIncompleteHardlinks.hardlinks ∧
      withheld d.resolveIncompleteHardlinks.hardlinks = 0 := by
  have hnil : ∀ b ∈ d.resolveIncompleteHardlinks.hardlinks, b.2.pending = [] := by
    intro b hb
    obtain ⟨b', hb', rfl⟩ := List.mem_map.mp hb
    exact pending_resolveGroup (hg.sound b' hb')
  refine ⟨⟨?_, ?_⟩, ?_⟩
  · show (List.map _ (List.map _ _)).Nodup
    rw [List.map_map]
    exact hg.keyed
  · intro b hb
    refine ⟨fun _ => hnil b hb, ?_⟩
    rw [hnil b hb]
    simp
  · refine List.sum_eq_zero ?_
    intro n hn
    obtain ⟨b, hb, rfl⟩ := List.mem_map.mp hn
    rw [hnil b hb]
    rfl

end

/-! ### The account of the events -/

namespace CpioDecoder

/-- No data of a reported entry is left to read. -/
def Quiet (state : DecoderState) : Prop :=
  state = .header ∨ state = .done ∨
    (∃ padding checksum actual, state = .data 0 padding checksum actual false) ∨
    ∃ padding checksum actual, state = .endEntry padding checksum actual false

/-- Where the decoder stands, as its events tell, with the queued entries. -/
def Stands (limits : Limits) (d : CpioDecoder) (Q : List EntryMetadata) : Phase → Prop
  | .between => Quiet d.state ∧ d.queued = Q.flatMap queueEntry
  | .inside m windows =>
    (d.queued = Q.flatMap queueEntry ∧
      ((∃ remaining padding checksum actual, d.state = .data remaining padding checksum actual true ∧
        m.size.map UInt64.toNat = some (windowBytes windows + remaining) ∧
        Within (windowBytes windows + remaining) limits.entryBytes) ∨
      ∃ padding checksum actual, d.state = .endEntry padding checksum actual true ∧
        Exact m windows)) ∨
    (d.queued = .endEntry :: Q.flatMap queueEntry ∧ (d.state = .header ∨ d.state = .done) ∧
      Exact m windows)
  | .finished => d.queued = Q.flatMap queueEntry

/-- What holds along a run. -/
structure Accounted (limits : Limits) (d : CpioDecoder) (evs : List DecodeEvent)
    (Q : List EntryMetadata) (p : Phase) : Prop where
  limits_eq : d.limits = limits
  reading : Reading d.limits d.header d.headerTarget
  ledger : Ledger limits Exact evs p d.total d.entries
  groups : Grouped limits d.hardlinks
  light : ∀ m ∈ Q, Light limits m
  count : entryCount evs + Q.length + withheld d.hardlinks = d.entries
  stands : Stands limits d Q p

section
variable {limits : Limits} {d d' : CpioDecoder} {evs : List DecodeEvent} {Q : List EntryMetadata}
  {p : Phase} {input : List Byte} {outputLen : ℕ} {eoi : EndOfInput} {st : DecodeStep} {t : Turn}

/-- At a header nothing is queued only between entries. -/
theorem phase_of_idle (h : Stands limits d Q p) (hs : d.state = .header ∨ d.state = .done)
    (hq : d.queued = []) (hp : p ≠ .finished) : p = .between ∧ Q = [] := by
  cases p with
  | finished => exact absurd rfl hp
  | between =>
    refine ⟨rfl, ?_⟩
    have hQ := h.2.symm.trans hq
    cases Q with
    | nil => rfl
    | cons m Q => simp [queueEntry] at hQ
  | inside m windows =>
    rcases h with ⟨-, ⟨_, _, _, _, hd, -⟩ | ⟨_, _, _, hd, -⟩⟩ | ⟨hq', -⟩
    · rw [hd] at hs
      simp at hs
    · rw [hd] at hs
      simp at hs
    · rw [hq] at hq'
      simp at hq'

/-- A queued event continues the events. -/
theorem accounted_pop (h : Accounted limits d evs Q p) (hp : p ≠ .finished)
    (hs : d.state = .header ∨ d.state = .done) {ev : QueuedEvent} {rest : List QueuedEvent}
    (hq : d.queued = ev :: rest) :
    ∃ Q' p', Accounted limits { d with queued := rest } (evs ++ [ev.event]) Q' p' := by
  have hcount := h.count
  have hst := h.stands
  cases p with
  | finished => exact absurd rfl hp
  | between =>
    cases Q with
    | nil => simp [hst.2] at hq
    | cons m Q =>
      have hq' : ev = .entry m ∧ rest = .endEntry :: Q.flatMap queueEntry := by
        have := hq.symm.trans hst.2
        simpa [queueEntry] using this
      obtain ⟨rfl, rfl⟩ := hq'
      obtain ⟨hm, hQ⟩ := List.forall_mem_cons.mp h.light
      rw [List.length_cons] at hcount
      refine ⟨Q, .inside m [], h.limits_eq, h.reading, h.ledger.entry (by omega) hm.2, h.groups, hQ,
        ?_, .inr ⟨rfl, hs, ?_⟩⟩
      · rw [QueuedEvent.event, entryCount_append_entry]
        simp only
        omega
      · simp [Exact, hm.1]
  | inside m windows =>
    rcases hst with ⟨-, ⟨_, _, _, _, hd, -⟩ | ⟨_, _, _, hd, -⟩⟩ | ⟨hq', -, hex⟩
    · rw [hd] at hs
      simp at hs
    · rw [hd] at hs
      simp at hs
    · obtain ⟨rfl, rfl⟩ := List.cons.inj (hq.symm.trans hq')
      refine ⟨Q, .between, h.limits_eq, h.reading, h.ledger.endEntry hex, h.groups, h.light, ?_, ?_,
        rfl⟩
      · rw [QueuedEvent.event, entryCount_append_of_not rfl]
        exact hcount
      · rcases hs with hs | hs
        · exact .inl hs
        · exact .inr (.inl hs)

/-- A request changes nothing. -/
theorem accounted_request (h : Accounted limits d evs Q p) (hp : p ≠ .finished) {ev : DecodeEvent}
    (hr : isRequest ev = true) (he : isEntry ev = false) :
    Accounted limits d (evs ++ [ev]) Q p := by
  refine ⟨h.limits_eq, h.reading, h.ledger.request hr hp, h.groups, h.light, ?_, h.stands⟩
  rw [entryCount_append_of_not he]
  exact h.count

/-- The phase in a payload. -/
theorem phase_of_data {remaining padding : ℕ} {checksum : Option UInt32} {actual : UInt32}
    {emitEnd : Bool} (h : Stands limits d Q p) (hp : p ≠ .finished)
    (hs : d.state = .data remaining padding checksum actual emitEnd) :
    d.queued = Q.flatMap queueEntry ∧
    ((emitEnd = false ∧ remaining = 0 ∧ p = .between) ∨
      (emitEnd = true ∧ ∃ m windows, p = .inside m windows ∧
        m.size.map UInt64.toNat = some (windowBytes windows + remaining) ∧
        Within (windowBytes windows + remaining) limits.entryBytes)) := by
  cases p with
  | finished => exact absurd rfl hp
  | between =>
    refine ⟨h.2, .inl ?_⟩
    rcases h.1 with hq | hq | ⟨_, _, _, hq⟩ | ⟨_, _, _, hq⟩
    · rw [hs] at hq; simp at hq
    · rw [hs] at hq; simp at hq
    · rw [hs] at hq
      simp only [DecoderState.data.injEq] at hq
      exact ⟨hq.2.2.2.2, hq.1, rfl⟩
    · rw [hs] at hq; simp at hq
  | inside m windows =>
    rcases h with ⟨hQ, ⟨_, _, _, _, hd, hsz, hw⟩ | ⟨_, _, _, hd, -⟩⟩ | ⟨-, hd, -⟩
    · rw [hs] at hd
      simp only [DecoderState.data.injEq] at hd
      obtain ⟨rfl, -, -, -, rfl⟩ := hd
      exact ⟨hQ, .inr ⟨rfl, m, windows, rfl, hsz, hw⟩⟩
    · rw [hs] at hd; simp at hd
    · rw [hs] at hd; simp at hd

/-- The phase after a payload. -/
theorem phase_of_endEntry {padding : ℕ} {checksum : Option UInt32} {actual : UInt32}
    {emitEnd : Bool} (h : Stands limits d Q p) (hp : p ≠ .finished)
    (hs : d.state = .endEntry padding checksum actual emitEnd) :
    d.queued = Q.flatMap queueEntry ∧
    ((emitEnd = false ∧ p = .between) ∨
      (emitEnd = true ∧ ∃ m windows, p = .inside m windows ∧ Exact m windows)) := by
  cases p with
  | finished => exact absurd rfl hp
  | between =>
    refine ⟨h.2, .inl ?_⟩
    rcases h.1 with hq | hq | ⟨_, _, _, hq⟩ | ⟨_, _, _, hq⟩
    · rw [hs] at hq; simp at hq
    · rw [hs] at hq; simp at hq
    · rw [hs] at hq; simp at hq
    · rw [hs] at hq
      simp only [DecoderState.endEntry.injEq] at hq
      exact ⟨hq.2.2.2, rfl⟩
  | inside m windows =>
    rcases h with ⟨hQ, ⟨_, _, _, _, hd, -⟩ | ⟨_, _, _, hd, hex⟩⟩ | ⟨-, hd, -⟩
    · rw [hs] at hd; simp at hd
    · rw [hs] at hd
      simp only [DecoderState.endEntry.injEq] at hd
      obtain ⟨-, -, -, rfl⟩ := hd
      exact ⟨hQ, .inr ⟨rfl, m, windows, rfl, hex⟩⟩
    · rw [hs] at hd; simp at hd

/-- The trailer brings the withheld records into the queue. -/
theorem accounted_trailer (h : Accounted limits d evs Q p) (hs : d.state = .header)
    (hq : d.queued = []) (hp : p ≠ .finished) :
    Accounted limits { d.cleared.resolveIncompleteHardlinks with state := .done } evs
      (incomplete d.hardlinks) .between := by
  obtain ⟨rfl, rfl⟩ := phase_of_idle h.stands (.inl hs) hq hp
  obtain ⟨hgroups, hzero⟩ := resolved (d := d.cleared) h.groups
  have hcount := h.count
  refine ⟨h.limits_eq, reading_nil _, h.ledger, hgroups, ?_, ?_, .inr (.inl rfl), ?_⟩
  · intro m hm
    obtain ⟨b, hb, hm⟩ := List.mem_flatMap.mp hm
    exact light_unresolved (h.groups.sound b hb) m hm
  · rw [length_incomplete h.groups.sound]
    simp only [List.length_nil] at hcount
    simp only [hzero]
    exact hcount
  · show d.queued ++ _ = _
    rw [hq, List.nil_append]
    rfl

/-- A record is reported, queued or withheld. -/
theorem accounted_record (h : Accounted limits d evs Q p) (hs : d.state = .header)
    (hq : d.queued = []) (hp : p ≠ .finished) {r : ParsedHeader} (hr : Described limits r)
    (hmax : d.entries + 1 ≤ u64Max) (hw : Within (d.entries + 1) limits.entries)
    {result : Option EntryMetadata}
    (hc : Classified { d.cleared with entries := d.entries + 1 } r.metadata r.size result d') :
    ∃ Q' p', p' ≠ .finished ∧ Accounted limits (d'.opened r result.isSome)
      (evs ++ (result.map DecodeEvent.entry).toList) Q' p' := by
  obtain ⟨rfl, rfl⟩ := phase_of_idle h.stands (.inl hs) hq hp
  obtain ⟨hlim, hhead, htarget, htotal, hentries⟩ := limits_of_classified hc
  have hgroups : Grouped limits ({ d.cleared with entries := d.entries + 1 } : CpioDecoder).hardlinks :=
    h.groups
  obtain ⟨Q', hf⟩ := filed_of_classified hgroups hr.size_eq hr.path_within hc
  have hcount := h.count
  have hfc := hf.count
  simp only [List.length_nil, Nat.add_zero] at hcount
  have hlim' : d'.limits = limits := hlim.trans h.limits_eq
  have hread : Reading d'.limits d'.header d'.headerTarget := by
    rw [hhead, htarget]
    exact reading_nil _
  have hqueue : d'.queued = Q'.flatMap queueEntry := by
    rw [hf.queued]
    show d.queued ++ _ = _
    rw [hq, List.nil_append]
  have hled : Ledger limits Exact evs .between d'.total d'.entries := by
    rw [htotal, hentries]
    exact h.ledger.begin (Nat.le_succ _) hmax hw
  have hentries' : d'.entries = d.entries + 1 := hentries
  change withheld d'.hardlinks + Q'.length + _ = withheld d.hardlinks + 1 at hfc
  cases result with
  | none =>
    have h0 := hf.none_size rfl
    refine ⟨Q', .between, by simp, hlim', hread, ?_, hf.groups, hf.light, ?_, ?_, hqueue⟩
    · rw [Option.map_none, Option.toList_none, List.append_nil]
      exact hled
    · rw [Option.map_none, Option.toList_none, List.append_nil]
      simp only [Option.toList_none, List.length_nil] at hfc
      simp only [opened]
      omega
    · rw [opened, h0]
      exact .inr (.inr (.inl ⟨_, _, _, rfl⟩))
  | some m =>
    obtain ⟨hsz, hpath⟩ := hf.result_size m rfl
    rw [Option.map_some, Option.toList_some]
    simp only [Option.toList_some, List.length_singleton] at hfc
    refine ⟨Q', .inside m [], by simp, hlim', hread, ?_, hf.groups, hf.light, ?_,
      .inl ⟨hqueue, .inl ⟨r.size, r.padding, r.checksum, 0, rfl, ?_, ?_⟩⟩⟩
    · refine hled.entry (by omega) ?_
      rw [hpath]
      exact hr.path_within
    · rw [entryCount_append_entry]
      simp only [opened]
      omega
    · rw [windowBytes_nil, Nat.zero_add]
      exact hsz
    · rw [windowBytes_nil, Nat.zero_add]
      exact hr.size_within

/-- The events after a turn. -/
def Turn.report (evs : List DecodeEvent) : Turn → List DecodeEvent
  | .stop st => evs ++ [st.event]
  | .again _ => evs

/-- **Every turn keeps the account.** -/
theorem accounted_turn (h : Accounted limits d evs Q p) (hp : p ≠ .finished)
    (ht : Turned d input eoi t d') :
    ∃ Q' p', Accounted limits d' (t.report evs) Q' p' ∧ ∀ k, t = .again k → p' ≠ .finished := by
  have hother : ∀ {ev : DecodeEvent}, isEntry ev = false →
      entryCount (evs ++ [ev]) + Q.length + withheld d.hardlinks = d.entries := by
    intro ev he
    rw [entryCount_append_of_not he]
    exact h.count
  cases ht with
  | pop hs ev rest hq =>
    obtain ⟨Q', p', h'⟩ := accounted_pop h hp hs hq
    exact ⟨Q', p', h', by simp⟩
  | finished hs hq hi =>
    obtain ⟨rfl, rfl⟩ := phase_of_idle h.stands (.inr hs) hq hp
    exact ⟨[], .finished, ⟨h.limits_eq, h.reading, h.ledger.done, h.groups, h.light, hother rfl, hq⟩,
      by simp⟩
  | dataEnd padding checksum actual emitEnd hs =>
    obtain ⟨hq, ⟨rfl, -, rfl⟩ | ⟨rfl, m, windows, rfl, hsz, -⟩⟩ := phase_of_data h.stands hp hs
    · exact ⟨Q, .between, ⟨h.limits_eq, h.reading, h.ledger, h.groups, h.light, h.count,
        .inr (.inr (.inr ⟨_, _, _, rfl⟩)), hq⟩, fun _ _ => hp⟩
    · exact ⟨Q, .inside m windows, ⟨h.limits_eq, h.reading, h.ledger, h.groups, h.light, h.count,
        .inl ⟨hq, .inr ⟨_, _, _, rfl, hsz⟩⟩⟩, fun _ _ => hp⟩
  | dataStarved => exact ⟨Q, p, accounted_request h hp rfl rfl, by simp⟩
  | data remaining padding k checksum actual emitEnd hs hk hpos hmax hw =>
    obtain ⟨hq, ⟨-, rfl, -⟩ | ⟨rfl, m, windows, rfl, hsz, hwin⟩⟩ := phase_of_data h.stands hp hs
    · omega
    have hlen : (input.take k).length = k := by
      rw [List.length_take]
      omega
    have hled : Ledger limits Exact (evs ++ [.data (input.take k)]) _ _ _ :=
      h.ledger.data (by rw [hlen]; exact hmax) (by rw [hlen, ← h.limits_eq]; exact hw)
        (by rw [hlen]; exact hwin.mono (by omega))
    rw [hlen] at hled
    have hsum : windowBytes (windows ++ [input.take k]) + (remaining - k) =
        windowBytes windows + remaining := by
      rw [windowBytes_append, hlen]
      omega
    refine ⟨Q, .inside m (windows ++ [input.take k]), ⟨h.limits_eq, h.reading, hled, h.groups, h.light,
      hother rfl, .inl ⟨hq, .inl ⟨remaining - k, padding, checksum, _, rfl, ?_, ?_⟩⟩⟩, by simp⟩
    · rw [hsum]
      exact hsz
    · rw [hsum]
      exact hwin
  | endStarved => exact ⟨Q, p, accounted_request h hp rfl rfl, by simp⟩
  | endEntry padding checksum actual hs =>
    obtain ⟨hq, ⟨he, -⟩ | ⟨-, m, windows, rfl, hex⟩⟩ := phase_of_endEntry h.stands hp hs
    · simp at he
    exact ⟨Q, .between, ⟨h.limits_eq, h.reading, h.ledger.endEntry hex, h.groups, h.light, hother rfl,
      .inl rfl, hq⟩, by simp⟩
  | endQuiet padding checksum actual hs =>
    obtain ⟨hq, ⟨-, rfl⟩ | ⟨he, -⟩⟩ := phase_of_endEntry h.stands hp hs
    · exact ⟨Q, .between, ⟨h.limits_eq, h.reading, h.ledger, h.groups, h.light, h.count, .inl rfl, hq⟩,
        fun _ _ => hp⟩
    · simp at he
  | starved hs hq target hi hr =>
    obtain ⟨rfl, rfl⟩ := phase_of_idle h.stands (.inl hs) hq hp
    refine ⟨[], .between, accounted_request (d := { d with
      header := d.header ++ input, headerTarget := target }) ?_ hp rfl rfl, by simp⟩
    exact ⟨h.limits_eq, hr, h.ledger, h.groups, h.light, h.count, .inl hs, hq⟩
  | trailer hs hq k hpos hk hh r hr ht ev rest he =>
    have h' := accounted_trailer h hs hq hp
    rcases he with ⟨hnil, rfl, rfl⟩ | ⟨q, hcons, rfl⟩
    · obtain ⟨-, hnone⟩ := phase_of_idle h'.stands (.inr rfl) hnil (by simp)
      refine ⟨[], .finished, ⟨h'.limits_eq, h'.reading, h'.ledger.done, h'.groups, by simp, ?_, rfl⟩,
        by simp⟩
      have hcount := h'.count
      rw [hnone] at hcount
      rw [Turn.report, entryCount_append_of_not rfl]
      exact hcount
    · obtain ⟨Q', p', h''⟩ := accounted_pop h' (by simp) (.inr rfl) hcons
      exact ⟨Q', p', h'', by simp⟩
  | @record hs hq k hpos hk hh r hr ht hmax hw result d1 hc =>
    have hlim := h.limits_eq
    have hdesc : Described limits r := hlim ▸ described_of_parseHeader hh.whole hr
    obtain ⟨Q', p', hp', h'⟩ := accounted_record h hs hq hp hdesc hmax (hlim ▸ hw) hc
    refine ⟨Q', p', ?_, fun _ _ => hp'⟩
    cases result with
    | none =>
      rw [Option.map_none, Option.toList_none, List.append_nil] at h'
      exact h'
    | some m => exact h'

theorem accounted_turns : ∀ (n : ℕ) {d : CpioDecoder} {Q : List EntryMetadata} {p : Phase}
    {input : List Byte} {st : DecodeStep}, Accounted limits d evs Q p → p ≠ .finished →
    turns eoi n d input = .ok (st, d') → ∃ Q' p', Accounted limits d' (evs ++ [st.event]) Q' p'
  | 0, d, Q, p, input, st, h, hp, hs => by
    cases hs
    exact ⟨Q, p, accounted_request h hp rfl rfl⟩
  | n + 1, d, Q, p, input, st, h, hp, hs => by
    obtain ⟨⟨t, d1⟩, hturn, hs⟩ := bind_eq_ok.mp hs
    obtain ⟨Q1, p1, h1, hp1⟩ := accounted_turn h hp (turned_of_turn h.reading hturn)
    cases t with
    | stop st' =>
      cases hs
      exact ⟨Q1, p1, h1⟩
    | again k =>
      obtain ⟨⟨st', d2⟩, hrest, hs⟩ := bind_eq_ok.mp hs
      obtain ⟨total, -, hs⟩ := bind_eq_ok.mp hs
      cases hs
      have ih := accounted_turns n h1 (hp1 k rfl) hrest
      exact ih

end

/-- The records read so far: the entries reported, those in the queue and the withheld ones. -/
def begun (d : CpioDecoder) (evs : List DecodeEvent) : ℕ :=
  entryCount evs + d.queued.countP (· ≠ .endEntry) + withheld d.hardlinks

theorem countP_queueEntry (Q : List EntryMetadata) :
    (Q.flatMap queueEntry).countP (· ≠ .endEntry) = Q.length := by
  induction Q with
  | nil => rfl
  | cons m Q ih =>
    rw [List.flatMap_cons, List.countP_append, ih, List.length_cons]
    simp [queueEntry]
    omega

theorem Accounted.begun_eq {limits : Limits} {d : CpioDecoder} {evs : List DecodeEvent}
    {Q : List EntryMetadata} {p : Phase} (h : Accounted limits d evs Q p) :
    d.entries = d.begun evs := by
  have hq : d.queued.countP (· ≠ .endEntry) = Q.length := by
    have hst := h.stands
    cases p with
    | between =>
      rw [hst.2]
      exact countP_queueEntry Q
    | finished =>
      rw [show d.queued = _ from hst]
      exact countP_queueEntry Q
    | inside m windows =>
      rcases hst with ⟨hq, -⟩ | ⟨hq, -⟩
      · rw [hq]
        exact countP_queueEntry Q
      · rw [hq, List.countP_cons, countP_queueEntry]
        simp
  rw [begun, hq]
  exact h.count.symm

/-- The account of a run. -/
theorem cpio_accounted (limits : Limits) (metadataSize : ℕ) {B : List Byte} (c : Cutting B) (n : ℕ) :
    ∃ Q p, Accounted limits (run CpioDecoder.step (.new limits metadataSize) c n).decoder
      (run CpioDecoder.step (.new limits metadataSize) c n).events Q p := by
  refine run_induction (P := fun d evs => ∃ Q p, Accounted limits d evs Q p) ?_ ?_ n
  · exact ⟨[], .between, rfl, reading_nil _, ledger_nil _ _, ⟨.nil, by simp [new]⟩, by simp, rfl,
      .inl rfl, rfl⟩
  · rintro d evs input outputLen eoi st d' ⟨Q, p, h⟩ hl hs
    exact accounted_turns _ h (h.ledger.trace.not_finished hl) hs

end CpioDecoder

end LibarchiveOxide.Cpio.Decoder
