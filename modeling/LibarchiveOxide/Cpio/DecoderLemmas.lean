import LibarchiveOxide.Core.Drive
import LibarchiveOxide.Cpio.Decoder
import LibarchiveOxide.Cpio.Header
import LibarchiveOxide.Lib.Result

/-! # What a turn and a call of the cpio decoder can do -/

namespace LibarchiveOxide.Cpio.Decoder

open Core.Failure Core.Budget Core.Metadata Core.Protocol Core.Drive Cpio.Header Lib Lib.Result

/-- The event of a queued one. -/
def QueuedEvent.event : QueuedEvent → DecodeEvent
  | .entry m => .entry m
  | .endEntry => .endEntry

/-! ### The reading of a header -/

theorem defaultTarget_of_lt {header : List Byte} (h : header.length < 2) :
    CpioDecoder.defaultTarget header = 2 := if_pos h

section
variable {limits : Limits} {eoi : EndOfInput}

theorem target_of_reading {header : List Byte} {target : Option ℕ}
    (h : Reading limits header target) :
    target.getD (CpioDecoder.defaultTarget header) = target.getD 2 := by
  cases target with
  | none => exact defaultTarget_of_lt h.2
  | some t => rfl

/-- **The loop over a header.** It ends with all input taken and more wanted, or with exactly a
header. -/
theorem headerLoop_ok : ∀ (n : ℕ) {header input : List Byte} {target : Option ℕ} {c : ℕ}
    {r : CpioDecoder.HeaderRead}, Reading limits header target → input.length < n →
    CpioDecoder.headerLoop limits eoi n header target input c = .ok r →
    (∃ t, (eoi = .more ∨ input ≠ []) ∧ r = .starved (c + input.length) (header ++ input) t ∧
      Reading limits (header ++ input) t) ∨
    ∃ j, 0 < j ∧ j ≤ input.length ∧ r = .complete (c + j) (header ++ input.take j) ∧
      Head limits (header ++ input.take j)
  | 0, _, input, _, _, _, _, hn, _ => by omega
  | n + 1, header, input, target, c, r, hr, hn, h => by
    rw [CpioDecoder.headerLoop, target_of_reading hr] at h
    have hlt := hr.2
    generalize ht : target.getD 2 = t at h hlt
    have hfront : Front limits header t := ht ▸ hr.1
    generalize hcount : min (t - header.length) input.length = count at h
    have hlen : (header ++ input.take count).length = header.length + count := by
      rw [List.length_append, List.length_take]
      omega
    rw [hlen] at h
    by_cases hshort : header.length + count < t
    · rw [if_pos hshort] at h
      split_ifs at h with he
      cases h
      have hall : count = input.length := by omega
      rw [hall, List.take_length]
      refine .inl ⟨target, ?_, rfl, ?_, ?_⟩
      · cases eoi with
        | more => exact .inl rfl
        | «end» => exact absurd rfl he
      · rw [ht]
        exact hfront.append input
      · rw [ht, List.length_append]
        omega
    · rw [if_neg hshort] at h
      have hfull : header.length + count = t := by omega
      have hpre : Front limits (header ++ input.take count) t := hfront.append _
      obtain ⟨next, hnext, h⟩ := bind_eq_ok.mp h
      split_ifs at h with hany hend
      · cases h
        obtain ⟨needed, rfl, hneed⟩ := (Option.any_eq_true _ _).mp hany
        have hneed : header.length + count < needed := by simpa using hneed
        rw [hend, List.take_length]
        rw [hend, List.take_length] at hnext hpre hlen
        refine .inl ⟨some needed, ?_, rfl, ?_, ?_⟩
        · refine .inr ?_
          rintro rfl
          rw [List.length_nil] at hend
          omega
        · show Front limits (header ++ input) needed
          refine hpre.next (by omega) ?_ (by omega)
          rw [List.take_of_length_le (by omega)]
          exact hnext
        · show (header ++ input).length < needed
          omega
      · obtain ⟨needed, rfl, hneed⟩ := (Option.any_eq_true _ _).mp hany
        have hneed : header.length + count < needed := by simpa using hneed
        have hread : Reading limits (header ++ input.take count) (some needed) := by
          refine ⟨?_, ?_⟩
          · show Front limits (header ++ input.take count) needed
            refine hpre.next (by omega) ?_ (by omega)
            rw [List.take_of_length_le (by omega)]
            exact hnext
          · show _ < needed
            omega
        have hlen' : (input.drop count).length < n := by
          rw [List.length_drop]
          omega
        have hjoin : ∀ j, header ++ input.take count ++ (input.drop count).take j =
            header ++ input.take (count + j) := by
          intro j
          rw [List.append_assoc, List.take_add]
        rcases headerLoop_ok n hread hlen' h with ⟨t', -, rfl, hr'⟩ | ⟨j, hj, hjl, rfl, hh⟩
        · rw [List.append_assoc, List.take_append_drop] at hr' ⊢
          refine .inl ⟨t', .inr ?_, ?_, hr'⟩
          · rintro rfl
            rw [List.length_nil] at hcount hend
            omega
          rw [List.length_drop]
          congr 1
          omega
        · rw [List.length_drop] at hjl
          rw [hjoin] at hh ⊢
          refine .inr ⟨count + j, by omega, by omega, ?_, hh⟩
          congr 1
          omega
      · cases h
        refine .inr ⟨count, by omega, by omega, rfl, ?_, next, hnext, ?_⟩
        · rw [hlen, hfull]
          exact hpre
        · rintro needed rfl
          have : ¬ header.length + count < needed := by simpa using hany
          omega

end

/-! ### The turns -/

variable {m : EntryMetadata} {result : Option EntryMetadata}

/-- How a record joins the group of its key. -/
inductive Joined (group : HardlinkGroup) (m : EntryMetadata) (size : ℕ) :
    HardlinkGroup → List EntryMetadata → Option EntryMetadata → Prop
  | payload (hs : size ≠ 0) (ht : group.target = none) :
      Joined group m size
        { group with seen := group.seen + 1, target := some m.path, pending := [] }
        (group.pending.map (hardlinkMetadata · m.path)) (some m)
  | link (target : ArchivePath) (hs : size = 0) (ht : group.target = some target) :
      Joined group m size { group with seen := group.seen + 1 } [] (some (hardlinkMetadata m target))
  | last (hs : size = 0) (ht : group.target = none) :
      Joined group m size
        { group with
          seen := group.seen + 1, target := (group.pending ++ [m]).head?.map (·.path), pending := [] }
        (resolve (group.pending ++ [m])) none
  | withheld (hs : size = 0) (ht : group.target = none) :
      Joined group m size
        { group with seen := group.seen + 1, pending := group.pending ++ [m] } [] none

theorem joined_of_joinGroup {group group' : HardlinkGroup} {size : ℕ} {queued : List EntryMetadata}
    (h : joinGroup group m size = .ok (group', queued, result)) :
    Joined group m size group' queued result := by
  obtain ⟨-, h⟩ := guard_eq_ok.mp h
  obtain ⟨seen, hseen, h⟩ := bind_eq_ok.mp h
  obtain ⟨-, h⟩ := guard_eq_ok.mp h
  obtain ⟨rfl, -⟩ := checkedAdd_eq_some.mp (okOr_eq_ok.mp hseen)
  split at h
  · next hs =>
    obtain ⟨ht, h⟩ := guard_eq_ok.mp h
    cases h
    exact .payload hs (by simpa using ht)
  · next hs =>
    have hs' : size = 0 := by simpa using hs
    split at h
    · next target ht =>
      cases h
      exact .link target hs' ht
    · next ht =>
      split_ifs at h
      · cases h
        exact .last hs' ht
      · cases h
        exact .withheld hs' ht

/-- What the classification of a record does. -/
inductive Classified (d : CpioDecoder) (m : EntryMetadata) (size : ℕ) :
    Option EntryMetadata → CpioDecoder → Prop
  | single (hg : isGrouped m = false) : Classified d m size (some m) d
  | grouped (hg : isGrouped m = true) {group : HardlinkGroup} {queued : List EntryMetadata}
      {result : Option EntryMetadata} (account : ℕ)
      (hj : Joined ((SortedMap.find (keyOf m) d.hardlinks).getD { expected := linksOf m }) m size
        group queued result) :
      Classified d m size result { d with
        hardlinkMetadata := account
        hardlinks := SortedMap.insert HardlinkKey.lt (keyOf m) group
          (SortedMap.erase (keyOf m) d.hardlinks)
        queued := d.queued ++ queued.flatMap queueEntry }

namespace CpioDecoder

variable {d d' : CpioDecoder} {input : List Byte} {outputLen : ℕ} {eoi : EndOfInput}
  {st : DecodeStep} {t : Turn}

theorem classified_of_classifyHardlink {size : ℕ}
    (h : d.classifyHardlink m size = .ok (result, d')) : Classified d m size result d' := by
  unfold classifyHardlink at h
  split_ifs at h with hg
  · cases h
    exact .single (by simpa using hg)
  · obtain ⟨account, -, h⟩ := bind_eq_ok.mp h
    obtain ⟨⟨group, queued, result'⟩, hj, h⟩ := bind_eq_ok.mp h
    cases h
    exact .grouped (by simpa using hg) account (joined_of_joinGroup hj)

/-- The decoder that has closed a header. -/
def cleared (d : CpioDecoder) : CpioDecoder := { d with header := [], headerTarget := none }

/-- The decoder that opens the payload of a record. -/
def opened (d : CpioDecoder) (p : ParsedHeader) (emitEnd : Bool) : CpioDecoder :=
  { d with state := .data p.size p.padding p.checksum 0 emitEnd }

/-- The ways a turn can succeed. -/
inductive Turned (d : CpioDecoder) (input : List Byte) (eoi : EndOfInput) :
    Turn → CpioDecoder → Prop
  | pop (hs : d.state = .header ∨ d.state = .done) (ev : QueuedEvent) (rest : List QueuedEvent)
      (hq : d.queued = ev :: rest) :
      Turned d input eoi (.stop ⟨0, 0, ev.event⟩) { d with queued := rest }
  | finished (hs : d.state = .done) (hq : d.queued = []) (hi : input = []) :
      Turned d input eoi (.stop ⟨0, 0, .done⟩) d
  | dataEnd (padding : ℕ) (checksum : Option UInt32) (actual : UInt32) (emitEnd : Bool)
      (hs : d.state = .data 0 padding checksum actual emitEnd) :
      Turned d input eoi (.again 0) { d with state := .endEntry padding checksum actual emitEnd }
  | dataStarved (remaining padding : ℕ) (checksum : Option UInt32) (actual : UInt32)
      (emitEnd : Bool) (hs : d.state = .data remaining padding checksum actual emitEnd)
      (hr : 0 < remaining) (hi : input = []) (he : eoi = .more) :
      Turned d input eoi (.stop ⟨0, 0, .needInput⟩) d
  | data (remaining padding k : ℕ) (checksum : Option UInt32) (actual : UInt32) (emitEnd : Bool)
      (hs : d.state = .data remaining padding checksum actual emitEnd)
      (hk : k = min input.length remaining) (hpos : 0 < k) (hmax : d.total + k ≤ u64Max)
      (hw : Within (d.total + k) d.limits.decodedTotal) :
      Turned d input eoi (.stop ⟨k, 0, .data (input.take k)⟩) { d with
        total := d.total + k
        state := .data (remaining - k) padding checksum (byteSum actual (input.take k)) emitEnd }
  | endStarved (padding : ℕ) (checksum : Option UInt32) (actual : UInt32) (emitEnd : Bool)
      (hs : d.state = .endEntry padding checksum actual emitEnd) (hlt : input.length < padding)
      (he : eoi = .more) : Turned d input eoi (.stop ⟨0, 0, .needInput⟩) d
  | endEntry (padding : ℕ) (checksum : Option UInt32) (actual : UInt32)
      (hs : d.state = .endEntry padding checksum actual true) (hle : padding ≤ input.length) :
      Turned d input eoi (.stop ⟨padding, 0, .endEntry⟩) { d with state := .header }
  | endQuiet (padding : ℕ) (checksum : Option UInt32) (actual : UInt32)
      (hs : d.state = .endEntry padding checksum actual false) (hle : padding ≤ input.length) :
      Turned d input eoi (.again padding) { d with state := .header }
  | starved (hs : d.state = .header) (hq : d.queued = []) (target : Option ℕ)
      (hi : eoi = .more ∨ input ≠ []) (hr : Reading d.limits (d.header ++ input) target) :
      Turned d input eoi (.stop ⟨input.length, 0, .needInput⟩) { d with
        header := d.header ++ input, headerTarget := target }
  | trailer (hs : d.state = .header) (hq : d.queued = []) (k : ℕ) (hpos : 0 < k)
      (hk : k ≤ input.length) (hh : Head d.limits (d.header ++ input.take k)) (p : ParsedHeader)
      (hp : parseHeader d.limits (d.header ++ input.take k) = .ok p) (ht : p.trailer = true)
      (ev : DecodeEvent) (rest : List QueuedEvent)
      (he : (d.cleared.resolveIncompleteHardlinks.queued = [] ∧ ev = .done ∧ rest = []) ∨
        ∃ q, d.cleared.resolveIncompleteHardlinks.queued = q :: rest ∧ ev = q.event) :
      Turned d input eoi (.stop ⟨k, 0, ev⟩) { d.cleared.resolveIncompleteHardlinks with
        state := .done, queued := rest }
  | record (hs : d.state = .header) (hq : d.queued = []) (k : ℕ) (hpos : 0 < k)
      (hk : k ≤ input.length) (hh : Head d.limits (d.header ++ input.take k)) (p : ParsedHeader)
      (hp : parseHeader d.limits (d.header ++ input.take k) = .ok p) (ht : p.trailer = false)
      (hmax : d.entries + 1 ≤ u64Max) (hw : Within (d.entries + 1) d.limits.entries)
      {result : Option EntryMetadata} {d1 : CpioDecoder}
      (hc : Classified { d.cleared with entries := d.entries + 1 } p.metadata p.size result d1) :
      Turned d input eoi
        (result.elim (.again k) fun m => .stop ⟨k, 0, .entry m⟩) (d1.opened p result.isSome)

theorem popQueued_eq_none (h : d.popQueued = none) : d.queued = [] := by
  unfold popQueued at h
  split at h
  · next hq => exact hq
  · cases h
  · cases h

theorem popQueued_eq_some {ev : DecodeEvent} (h : d.popQueued = some (ev, d')) :
    ∃ q rest, d.queued = q :: rest ∧ ev = q.event ∧ d' = { d with queued := rest } := by
  unfold popQueued at h
  split at h
  · cases h
  · next m rest hq =>
    cases h
    exact ⟨_, rest, hq, rfl, rfl⟩
  · next rest hq =>
    cases h
    exact ⟨_, rest, hq, rfl, rfl⟩

theorem more_of_ne_end (h : ¬ eoi = .end) : eoi = .more := by
  cases eoi with
  | more => rfl
  | «end» => exact absurd rfl h

theorem turned_of_turnData {remaining padding : ℕ} {checksum : Option UInt32} {actual : UInt32}
    {emitEnd : Bool} (hs : d.state = .data remaining padding checksum actual emitEnd)
    (h : d.turnData input eoi remaining padding checksum actual emitEnd = .ok (t, d')) :
    Turned d input eoi t d' := by
  unfold turnData at h
  split_ifs at h with h0 hi he
  · cases h
    subst h0
    exact .dataEnd padding checksum actual emitEnd hs
  · cases h
    exact .dataStarved remaining padding checksum actual emitEnd hs (by omega) (by simpa using hi)
      (more_of_ne_end he)
  · obtain ⟨total, ht, h⟩ := bind_eq_ok.mp h
    obtain ⟨hw, h⟩ := guard_eq_ok.mp h
    obtain ⟨rfl, hmax⟩ := checkedAdd_eq_some.mp (okOr_eq_ok.mp ht)
    cases h
    have hne : input.length ≠ 0 := by
      intro h0
      exact hi (by simp [List.length_eq_zero_iff.mp h0])
    exact .data remaining padding _ checksum actual emitEnd hs rfl (by omega) hmax
      (within_of_not_exceeds hw)

theorem turned_of_turnEndEntry {padding : ℕ} {checksum : Option UInt32} {actual : UInt32}
    {emitEnd : Bool} (hs : d.state = .endEntry padding checksum actual emitEnd)
    (h : d.turnEndEntry input eoi padding checksum actual emitEnd = .ok (t, d')) :
    Turned d input eoi t d' := by
  unfold turnEndEntry at h
  split_ifs at h with hlt he hc hem
  · cases h
    exact .endStarved padding checksum actual emitEnd hs hlt (more_of_ne_end he)
  · cases h
    subst hem
    exact .endEntry padding checksum actual hs (by omega)
  · cases h
    have hem' : emitEnd = false := by simpa using hem
    subst hem'
    exact .endQuiet padding checksum actual hs (by omega)

theorem turned_of_enter {k : ℕ} {p : ParsedHeader} (hs : d.state = .header) (hq : d.queued = [])
    (hpos : 0 < k) (hk : k ≤ input.length) (hh : Head d.limits (d.header ++ input.take k))
    (hp : parseHeader d.limits (d.header ++ input.take k) = .ok p)
    (h : d.cleared.enter k p = .ok (t, d')) : Turned d input eoi t d' := by
  unfold enter at h
  split at h
  · next ht =>
    dsimp only at h
    split at h
    · next ev d1 hpop =>
      cases h
      obtain ⟨q, rest, hq', rfl, rfl⟩ := popQueued_eq_some hpop
      exact .trailer hs hq k hpos hk hh p hp ht _ rest (.inr ⟨q, hq', rfl⟩)
    · next hpop =>
      cases h
      have hq' := popQueued_eq_none hpop
      have hturn : Turned d input eoi _ _ :=
        .trailer hs hq k hpos hk hh p hp ht .done [] (.inl ⟨hq', rfl, rfl⟩)
      simp only at hq'
      rw [← hq'] at hturn
      exact hturn
  · next ht =>
    obtain ⟨entries, he, h⟩ := bind_eq_ok.mp h
    obtain ⟨hw, h⟩ := guard_eq_ok.mp h
    obtain ⟨rfl, hmax⟩ := checkedAdd_eq_some.mp (okOr_eq_ok.mp he)
    obtain ⟨⟨result, d1⟩, hc, h⟩ := bind_eq_ok.mp h
    have hrec : Turned d input eoi _ _ := .record hs hq k hpos hk hh p hp (by simpa using ht) hmax
      (within_of_not_exceeds hw) (classified_of_classifyHardlink hc)
    cases result with
    | none => cases h; exact hrec
    | some m => cases h; exact hrec

theorem turned_of_turnHeader (hr : Reading d.limits d.header d.headerTarget)
    (hs : d.state = .header) (hq : d.queued = []) (h : d.turnHeader input eoi = .ok (t, d')) :
    Turned d input eoi t d' := by
  obtain ⟨r, hh, h⟩ := bind_eq_ok.mp h
  rcases headerLoop_ok _ hr (by omega) hh with ⟨target, hi, rfl, hr'⟩ | ⟨j, hj, hjl, rfl, hh'⟩
  · cases h
    rw [Nat.zero_add]
    exact .starved hs hq target hi hr'
  · obtain ⟨p, hp, h⟩ := bind_eq_ok.mp h
    rw [Nat.zero_add] at h
    exact turned_of_enter hs hq hj hjl hh' hp h

/-- **Every successful turn is one of the listed ways.** -/
theorem turned_of_turn (hr : Reading d.limits d.header d.headerTarget)
    (h : d.turn input eoi = .ok (t, d')) : Turned d input eoi t d' := by
  unfold turn at h
  split at h
  · next hs => exact turned_of_turnData hs h
  · next hs => exact turned_of_turnEndEntry hs h
  · next hs =>
    split at h
    · next ev d1 hpop =>
      cases h
      obtain ⟨q, rest, hq, rfl, rfl⟩ := popQueued_eq_some hpop
      exact .pop (.inl hs) q rest hq
    · next hpop => exact turned_of_turnHeader hr hs (popQueued_eq_none hpop) h
  · next hs =>
    split at h
    · next ev d1 hpop =>
      cases h
      obtain ⟨q, rest, hq, rfl, rfl⟩ := popQueued_eq_some hpop
      exact .pop (.inr hs) q rest hq
    · next hpop =>
      split_ifs at h with hi
      cases h
      exact .finished hs (popQueued_eq_none hpop) (by simpa using hi)

/-! ### What every turn keeps -/

theorem limits_of_classified {size : ℕ} (h : Classified d m size result d') :
    d'.limits = d.limits ∧ d'.header = d.header ∧
      d'.headerTarget = d.headerTarget ∧ d'.total = d.total ∧ d'.entries = d.entries := by
  cases h with
  | single => exact ⟨rfl, rfl, rfl, rfl, rfl⟩
  | grouped => exact ⟨rfl, rfl, rfl, rfl, rfl⟩

theorem limits_of_turned (h : Turned d input eoi t d') : d'.limits = d.limits := by
  cases h with
  | record _ _ _ _ _ _ _ _ _ _ _ hc => exact (limits_of_classified hc).1
  | _ => rfl

theorem reading_of_turned (hr : Reading d.limits d.header d.headerTarget)
    (h : Turned d input eoi t d') : Reading d'.limits d'.header d'.headerTarget := by
  cases h with
  | starved _ _ _ _ hr' => exact hr'
  | trailer => exact reading_nil _
  | record _ _ _ _ _ _ _ _ _ _ _ hc =>
    obtain ⟨-, hh, ht, -, -⟩ := limits_of_classified hc
    show Reading _ _ _
    rw [opened, hh, ht]
    exact reading_nil _
  | _ => exact hr

end CpioDecoder

end LibarchiveOxide.Cpio.Decoder
