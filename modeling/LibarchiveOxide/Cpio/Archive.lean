import LibarchiveOxide.Cpio.Discipline
import LibarchiveOxide.Cpio.Meaning

/-! # Archives record by record

What the machine of the cpio decoder does with a record (`steps_record`) and with the trailer
(`halts_trailer`), and so with an archive (`halts_archive`). -/

namespace LibarchiveOxide.Cpio.Archive

open Core.Failure Core.Budget Core.Metadata Core.Protocol Core.Drive Core.Meaning Cpio.Header
open Cpio.Decoder Cpio.Meaning Cpio.Decoder.CpioDecoder Lib Lib.Machine Lib.Result

/-! ### Headers -/

section
variable {limits : Limits} {bytes S : List Byte}

/-- The header loop comes to every point where the reading of the header wants more of it. -/
theorem headerLoop_front {t : ℕ} (h : Front limits bytes t) (hle : t ≤ bytes.length) :
    ∃ s target, s < t ∧ target.getD 2 = t ∧ Reading limits (bytes.take s) target ∧
      ∀ n, (bytes ++ S).length < n → headerLoop limits .end n [] none (bytes ++ S) 0 =
        headerLoop limits .end n (bytes.take s) target ((bytes ++ S).drop s) s := by
  induction h with
  | start =>
    refine ⟨0, none, by omega, rfl, ?_, ?_⟩
    · rw [List.take_zero]
      exact reading_nil limits
    · intro n _
      rw [List.take_zero, List.drop_zero]
  | @next t t' _ hle' ht hlt ih =>
    obtain ⟨s, target, hst, htarget, hread, hloop⟩ := ih (by omega)
    have hlen : (bytes.take s).length = s := by
      rw [List.length_take]
      omega
    have hall : (bytes ++ S).length = bytes.length + S.length := List.length_append ..
    have hgap : gap (bytes.take s) target = t - s := by rw [gap, htarget, hlen]
    have hfilled : filled (bytes.take s) target ((bytes ++ S).drop s) = bytes.take t := by
      rw [filled, hgap, List.drop_append_of_le_length (by omega),
        List.take_append_of_le_length (by rw [List.length_drop]; omega)]
      have hsum : t = s + (t - s) := by omega
      rw [hsum, List.take_add, Nat.add_sub_cancel_left]
    have htlen : (bytes.take t).length = t := by
      rw [List.length_take]
      omega
    have hwants : wants (bytes.take t) (some t') = true := by
      simp only [wants, Option.any_some, htlen, decide_eq_true_eq]
      exact hlt
    have hread' : Reading limits (bytes.take t) (some t') := by
      have := @reading_filled _ _ ((bytes ++ S).drop s) _ hread
        (by rw [hgap, List.length_drop]; omega) _ (by rw [hfilled]; exact ht)
        (by rw [hfilled]; exact hwants)
      rw [hfilled] at this
      exact this
    refine ⟨t, some t', hlt, rfl, hread', ?_⟩
    intro n hn
    obtain ⟨n, rfl⟩ : ∃ k, n = k + 1 := ⟨n - 1, by omega⟩
    have hdlen : ((bytes ++ S).drop s).length = (bytes ++ S).length - s := List.length_drop ..
    rw [hloop _ hn, headerLoop_succ hread, hgap, if_neg (by omega), hfilled, ht]
    simp only [ok_bind]
    rw [if_pos hwants, if_neg (by omega), List.drop_drop, Nat.add_sub_of_le hst.le]
    exact headerLoop_rounds _ _ _ hread' (by rw [List.length_drop]; omega)
      (by rw [List.length_drop]; omega)

/-- **A header is read whole.** -/
theorem headerLoop_head (h : Head limits bytes) {n : ℕ} (hn : (bytes ++ S).length < n) :
    headerLoop limits .end n [] none (bytes ++ S) 0 = .ok (.complete bytes.length bytes) := by
  obtain ⟨s, target, hst, htarget, hread, hloop⟩ := headerLoop_front (S := S) h.front le_rfl
  obtain ⟨next, hnext, hneed⟩ := h.whole
  obtain ⟨n, rfl⟩ : ∃ k, n = k + 1 := ⟨n - 1, by omega⟩
  have hall : (bytes ++ S).length = bytes.length + S.length := List.length_append ..
  have hlen : (bytes.take s).length = s := by
    rw [List.length_take]
    omega
  have hgap : gap (bytes.take s) target = bytes.length - s := by rw [gap, htarget, hlen]
  have hfilled : filled (bytes.take s) target ((bytes ++ S).drop s) = bytes := by
    have hrest : (bytes.drop s).take (bytes.length - s) = bytes.drop s :=
      List.take_of_length_le (by rw [List.length_drop])
    rw [filled, hgap, List.drop_append_of_le_length hst.le,
      List.take_append_of_le_length (by rw [List.length_drop]), hrest, List.take_append_drop]
  have hwants : ¬ wants bytes next = true := by
    intro hw
    obtain ⟨needed, rfl, hlt⟩ := (Option.any_eq_true _ _).mp hw
    have := hneed needed rfl
    have : bytes.length < needed := by simpa using hlt
    omega
  rw [hloop _ hn, headerLoop_succ hread, hgap, if_neg (by rw [List.length_drop]; omega), hfilled, hnext]
  simp only [ok_bind]
  rw [if_neg hwants, Nat.add_sub_of_le hst.le]
  rfl

theorem length_of_head (h : Head limits bytes) : 2 ≤ bytes.length := by
  have hle : ∀ t, Front limits bytes t → 2 ≤ t := by
    intro t ht
    induction ht with
    | start => exact le_rfl
    | next _ _ _ hlt ih => omega
  exact hle _ h.front

end

/-! ### Records -/

/-- A record as it stands in an archive. -/
structure Record where
  header : List Byte
  parsed : ParsedHeader
  payload : List Byte
  padding : List Byte
  head : Head .unlimited header
  parse : parseHeader .unlimited header = .ok parsed
  ordinary : parsed.trailer = false
  payload_length : payload.length = parsed.size
  padding_length : padding.length = parsed.padding
  checksum : parsed.checksum.any (· ≠ byteSum 0 payload) = false

/-- The bytes of a record. -/
def Record.bytes (r : Record) : List Byte := r.header ++ (r.payload ++ r.padding)

/-- The header that ends an archive. -/
structure Trailer where
  header : List Byte
  parsed : ParsedHeader
  head : Head .unlimited header
  parse : parseHeader .unlimited header = .ok parsed
  trailer : parsed.trailer = true

/-- A decoder in front of a record, with the rest of its stream. -/
structure Ready (d : CpioDecoder) (S : List Byte) : Prop where
  limits : d.limits = .unlimited
  header : d.header = []
  headerTarget : d.headerTarget = none
  state : d.state = .header
  queued : d.queued = []
  total : d.total + S.length ≤ u64Max
  entries : d.entries + S.length ≤ u64Max

/-- The atoms of queued events. -/
def queuedAtoms (q : List QueuedEvent) : List Atom := q.flatMap fun ev => atoms ev.event

section
variable {d d1 : CpioDecoder} {S : List Byte}

theorem ready_new (metadataSize : ℕ) {B : List Byte} (hB : B.length ≤ u64Max) :
    Ready (.new .unlimited metadataSize) B where
  limits := rfl
  header := rfl
  headerTarget := rfl
  state := rfl
  queued := rfl
  total := by simpa [CpioDecoder.new] using hB
  entries := by simpa [CpioDecoder.new] using hB

theorem Ready.turn_head {h : List Byte} (hd : Ready d (h ++ S)) (hh : Head .unlimited h) :
    d.turn (h ++ S) .end = parseHeader .unlimited h >>= d.cleared.enter h.length := by
  rw [turn_header hd.state hd.queued, turnHeader_eq, hd.header, hd.headerTarget, hd.limits,
    headerLoop_head hh (Nat.lt_add_of_pos_right Nat.two_pos), ok_bind, afterRead, hd.limits]

/-- The queue is emptied in its order. -/
theorem steps_queue : ∀ (q : List QueuedEvent) {d : CpioDecoder},
    d.state = .header ∨ d.state = .done → d.queued = q →
    Steps reader (d, S) (queuedAtoms q) ({ d with queued := [] }, S)
  | [], d, _, hq => by
    have hd : ({ d with queued := [] } : CpioDecoder) = d := by rw [← hq]
    rw [hd]
    exact .refl _
  | ev :: q, d, hs, hq => by
    have hnext : reader (d, S) = .next (atoms ev.event) ({ d with queued := q }, S) := by
      have hpop : d.popQueued = some (ev.event, { d with queued := q }) := by
        cases ev with
        | entry m => simp only [popQueued, hq, QueuedEvent.event]
        | endEntry => simp only [popQueued, hq, QueuedEvent.event]
      have hturn : d.turn S .end = .ok (.stop ⟨0, 0, ev.event⟩, { d with queued := q }) := by
        generalize ({ d with queued := q } : CpioDecoder) = d' at hpop ⊢
        rcases hs with hs | hs
        · rw [turn, hs]
          simp only [hpop]
        · rw [turn, hs]
          simp only [hpop]
      have hne : ev.event ≠ .done := by
        cases ev with
        | entry m => exact fun he => by cases he
        | endEntry => exact fun he => by cases he
      simp only [reader, hturn, if_neg hne, List.drop_zero]
    exact .head hnext (steps_queue q (d := { d with queued := q }) hs rfl)

/-- The decoder after some payload. -/
def ended (d : CpioDecoder) (padding : ℕ) (checksum : Option UInt32) (payload : List Byte)
    (emitEnd : Bool) : CpioDecoder :=
  { d with
    total := d.total + payload.length
    state := .endEntry padding checksum (byteSum 0 payload) emitEnd }

/-- **A payload is read to its end.** -/
theorem steps_payload {size padding : ℕ} {checksum : Option UInt32} {emitEnd : Bool}
    (hs : d.state = .data size padding checksum 0 emitEnd) (hl : d.limits = .unlimited)
    (ht : d.total + S.length ≤ u64Max) (hsize : size ≤ S.length) :
    Steps reader (d, S) ((S.take size).map .byte)
      (ended d padding checksum (S.take size) emitEnd, S.drop size) := by
  have hlast : ∀ {d : CpioDecoder} {actual : UInt32} {S : List Byte},
      d.state = .data 0 padding checksum actual emitEnd →
      reader (d, S) = .next [] ({ d with state := .endEntry padding checksum actual emitEnd }, S) := by
    intro d actual S hs
    have hturn : d.turn S .end =
        .ok (.again 0, { d with state := .endEntry padding checksum actual emitEnd }) := by
      rw [turn, hs]
      rfl
    simp only [reader, hturn, List.drop_zero]
  by_cases h0 : size = 0
  · subst h0
    exact .single (hlast hs)
  · have hlen : (S.take size).length = size := by
      rw [List.length_take]
      omega
    have hne : S ≠ [] := by
      rintro rfl
      simp only [List.length_nil] at hsize
      omega
    have hdata := @turn_data _ _ .end _ _ _ _ _ hs hl (by omega) hne ht
    have hstate : (consume d size padding checksum 0 emitEnd (S.take size)).state =
        .data 0 padding checksum (byteSum 0 (S.take size)) emitEnd := by
      simp only [consume, hlen, Nat.sub_self]
    have hfirst : reader (d, S) = .next ((S.take size).map .byte)
        (consume d size padding checksum 0 emitEnd (S.take size), S.drop size) := by
      simp only [reader, hdata]
      rw [if_neg (by simp), atoms, hlen]
    have hsteps := Steps.head hfirst (.single (hlast hstate))
    rw [List.append_nil] at hsteps
    exact hsteps

/-- A payload that is cut off. -/
theorem halts_payload {size padding : ℕ} {checksum : Option UInt32} {emitEnd : Bool}
    (hs : d.state = .data size padding checksum 0 emitEnd) (hl : d.limits = .unlimited)
    (ht : d.total + S.length ≤ u64Max) (hsize : S.length < size) :
    Halts reader (d, S) (S.map .byte) .fail := by
  have hlast : ∀ {d : CpioDecoder} {remaining : ℕ} {actual : UInt32},
      d.state = .data remaining padding checksum actual emitEnd → 0 < remaining →
      reader (d, []) = .halt .fail := by
    intro d remaining actual hs hpos
    refine reader_fail (e := cpioError .malformed "truncated entry data") ?_ (by simp [hs])
    rw [turn, hs]
    simp only [turnData]
    rw [if_neg (by omega)]
    rfl
  by_cases hnil : S = []
  · subst hnil
    exact .of_halt (hlast hs (by omega))
  · have hdata := @turn_data _ _ .end _ _ _ _ _ hs hl (by omega) hnil ht
    rw [List.take_of_length_le hsize.le] at hdata
    have hfirst : reader (d, S) = .next (S.map .byte)
        (consume d size padding checksum 0 emitEnd S, []) := by
      simp only [reader, hdata, List.drop_length]
      rw [if_neg (by simp), atoms]
    have hhalt := Halts.prepend (.single hfirst) (.of_halt (hlast rfl (Nat.sub_pos_of_lt hsize)))
    rw [List.append_nil] at hhalt
    exact hhalt

/-- The classification of the record that comes next. -/
def file (d : CpioDecoder) (p : ParsedHeader) :
    Except ArchiveError (Option EntryMetadata × CpioDecoder) :=
  ({ d with entries := d.entries + 1 } : CpioDecoder).classifyHardlink p.metadata p.size

/-- The decoder that has filed a record and is through with it. -/
def settled (d : CpioDecoder) (size : ℕ) : CpioDecoder :=
  { d with total := d.total + size, state := .header, queued := [] }

/-- The atoms of a record that is reported at once. -/
def recordAtoms (result : Option EntryMetadata) (payload : List Byte) : List Atom :=
  result.elim [] fun m => .entry m :: (payload.map .byte ++ [.endEntry])

theorem Ready.cleared (h : Ready d S) : d.cleared = d := by
  unfold CpioDecoder.cleared
  rw [← h.header, ← h.headerTarget]

variable {p : ParsedHeader}

theorem enter_record {k : ℕ} (h : Ready d S) (hS : 0 < S.length) (ht : p.trailer = false) :
    d.enter k p = file d p >>= fun r => .ok (r.1.elim (.again k) fun m => .stop ⟨k, 0, .entry m⟩,
      r.2.opened p r.1.isSome) := by
  have hentries := h.entries
  unfold enter
  rw [if_neg (by simp [ht]), checkedAdd_of_le (by omega), h.limits]
  show classifyHardlink _ p.metadata p.size >>= _ = _
  rw [file, h.limits]
  congr 1
  funext r
  obtain ⟨result, d1⟩ := r
  cases result with
  | none => rfl
  | some m => rfl

theorem size_of_file (h : file d p = .ok (none, d1)) : p.size = 0 := by
  have hc := classified_of_classifyHardlink h
  generalize hr : (none : Option EntryMetadata) = result at hc
  cases hc with
  | single => cases hr
  | grouped _ _ hj =>
    subst hr
    cases hj with
    | last hs => exact hs
    | withheld hs => exact hs

/-- What the classification of a record leaves alone. -/
theorem Ready.file {p : ParsedHeader} {result : Option EntryMetadata} (h : Ready d S)
    (hf : file d p = .ok (result, d1)) : d1.limits = .unlimited ∧ d1.header = [] ∧
      d1.headerTarget = none ∧ d1.total = d.total ∧ d1.entries = d.entries + 1 := by
  obtain ⟨h1, h2, h3, h4, h5⟩ := limits_of_classified (classified_of_classifyHardlink hf)
  exact ⟨h1.trans h.limits, h2.trans h.header, h3.trans h.headerTarget, h4, h5⟩

/-- What follows a payload whose padding and checksum are right. -/
theorem reader_ended {padding : ℕ} {checksum : Option UInt32} {payload : List Byte} {emitEnd : Bool}
    (hp : padding ≤ S.length) (hc : checksum.any (· ≠ byteSum 0 payload) = false) :
    reader (ended d padding checksum payload emitEnd, S) = .next (if emitEnd then [.endEntry] else [])
      ({ d with total := d.total + payload.length, state := .header }, S.drop padding) := by
  have hturn : (ended d padding checksum payload emitEnd).turn S .end =
      (ended d padding checksum payload emitEnd).turnEndEntry S .end padding checksum
        (byteSum 0 payload) emitEnd := rfl
  cases emitEnd with
  | false =>
    simp only [reader, hturn, turnEndEntry]
    rw [if_neg (by omega), hc]
    rfl
  | true =>
    simp only [reader, hturn, turnEndEntry]
    rw [if_neg (by omega), hc]
    rfl

/-- What follows a payload otherwise. -/
theorem reader_ended_fail {padding : ℕ} {checksum : Option UInt32} {payload : List Byte}
    {emitEnd : Bool}
    (h : S.length < padding ∨ checksum.any (· ≠ byteSum 0 payload) = true) :
    reader (ended d padding checksum payload emitEnd, S) = .halt .fail := by
  have hturn : (ended d padding checksum payload emitEnd).turn S .end =
      (ended d padding checksum payload emitEnd).turnEndEntry S .end padding checksum
        (byteSum 0 payload) emitEnd := rfl
  have herr : ∃ e, (ended d padding checksum payload emitEnd).turn S .end = .error e := by
    rw [hturn, turnEndEntry]
    by_cases hlt : S.length < padding
    · rw [if_pos hlt]
      exact ⟨_, rfl⟩
    · rw [if_neg hlt, h.resolve_left hlt]
      exact ⟨_, rfl⟩
  obtain ⟨e, he⟩ := herr
  exact reader_fail he (by simp [ended])

variable {result : Option EntryMetadata}

/-- The turn at the header of a record. -/
theorem reader_head {h : List Byte} (hd : Ready d (h ++ S)) (hh : Head .unlimited h)
    (hp : parseHeader .unlimited h = .ok p) (ht : p.trailer = false)
    (hf : file d p = .ok (result, d1)) :
    reader (d, h ++ S) = .next (result.elim [] fun m => [.entry m])
      (d1.opened p result.isSome, S) := by
  have hpos : 0 < (h ++ S).length := by
    have := length_of_head hh
    rw [List.length_append]
    omega
  have hturn := hd.turn_head hh
  rw [hp, ok_bind, hd.cleared, enter_record hd hpos ht, hf, ok_bind] at hturn
  cases result with
  | none => simp only [reader, hturn, Option.elim, List.drop_left]
  | some m =>
    simp only [reader, hturn, Option.elim, List.drop_left]
    rw [if_neg (by simp), atoms]

/-- **A record is read.** -/
theorem steps_record {r : Record} (hd : Ready d (r.bytes ++ S))
    (hf : file d r.parsed = .ok (result, d1)) :
    Steps reader (d, r.bytes ++ S) (recordAtoms result r.payload ++ queuedAtoms d1.queued)
      (settled d1 r.parsed.size, S) ∧ Ready (settled d1 r.parsed.size) S := by
  obtain ⟨hlim, hhead, htarget, htotal, hentries⟩ := hd.file hf
  have hT := hd.total
  have hE := hd.entries
  have hlen : (r.bytes ++ S).length = r.header.length + (r.parsed.size + r.parsed.padding) + S.length := by
    rw [List.length_append, Record.bytes, List.length_append, List.length_append, r.payload_length,
      r.padding_length]
  have h2 := length_of_head r.head
  refine ⟨?_, ⟨hlim, hhead, htarget, rfl, rfl, ?_, ?_⟩⟩
  · have hbytes : r.bytes ++ S = r.header ++ (r.payload ++ (r.padding ++ S)) := by
      rw [Record.bytes, List.append_assoc, List.append_assoc]
    rw [hbytes] at hd ⊢
    have hfirst := reader_head hd r.head r.parse r.ordinary hf
    have htake : (r.payload ++ (r.padding ++ S)).take r.parsed.size = r.payload := by
      rw [← r.payload_length, List.take_left]
    have hdrop : (r.payload ++ (r.padding ++ S)).drop r.parsed.size = r.padding ++ S := by
      rw [← r.payload_length, List.drop_left]
    have hpay := steps_payload (d := d1.opened r.parsed result.isSome)
      (S := r.payload ++ (r.padding ++ S)) rfl hlim
      (by
        show d1.total + _ ≤ _
        rw [List.length_append, List.length_append, r.payload_length, r.padding_length]
        omega)
      (by rw [List.length_append, r.payload_length]; omega)
    rw [htake, hdrop] at hpay
    have hend := @reader_ended (d1.opened r.parsed result.isSome) (r.padding ++ S)
      r.parsed.padding _ _ result.isSome (by rw [List.length_append, r.padding_length]; omega)
      r.checksum
    have hpad : (r.padding ++ S).drop r.parsed.padding = S := by
      rw [← r.padding_length, List.drop_left]
    rw [hpad, r.payload_length] at hend
    have hqueue := steps_queue (S := S) d1.queued (d := { d1.opened r.parsed result.isSome with
      total := d1.total + r.parsed.size, state := .header }) (.inl rfl) rfl
    have hall := Steps.head hfirst (hpay.trans (.head hend hqueue))
    have hatoms : (result.elim [] fun m => [Atom.entry m]) ++ (r.payload.map .byte ++
        ((if result.isSome then [.endEntry] else []) ++ queuedAtoms d1.queued)) =
        recordAtoms result r.payload ++ queuedAtoms d1.queued := by
      cases result with
      | none =>
        have hnil : r.payload = [] := by
          rw [← List.length_eq_zero_iff, r.payload_length]
          exact size_of_file hf
        rw [hnil]
        rfl
      | some m => simp [recordAtoms]
    rw [hatoms] at hall
    exact hall
  · show d1.total + _ + _ ≤ _
    omega
  · show d1.entries + _ ≤ _
    omega

/-- What the decoder reports of some records, and the decoder after them. -/
def readAll : CpioDecoder → List Record → Except ArchiveError (List Atom × CpioDecoder)
  | d, [] => .ok ([], d)
  | d, r :: rs => do
    let (result, d1) ← file d r.parsed
    let (as, d2) ← readAll (settled d1 r.parsed.size) rs
    return (recordAtoms result r.payload ++ queuedAtoms d1.queued ++ as, d2)

/-- The bytes of some records. -/
def bytesOf (rs : List Record) : List Byte := rs.flatMap Record.bytes

theorem bytesOf_cons (r : Record) (rs : List Record) :
    bytesOf (r :: rs) = r.bytes ++ bytesOf rs := List.flatMap_cons

theorem steps_records : ∀ (rs : List Record) {d d' : CpioDecoder} {as : List Atom},
    Ready d (bytesOf rs ++ S) → readAll d rs = .ok (as, d') →
    Steps reader (d, bytesOf rs ++ S) as (d', S) ∧ Ready d' S
  | [], d, d', as, hd, h => by
    cases h
    exact ⟨.refl _, hd⟩
  | r :: rs, d, d', as, hd, h => by
    have hbytes : bytesOf (r :: rs) ++ S = r.bytes ++ (bytesOf rs ++ S) := by
      rw [bytesOf_cons, List.append_assoc]
    rw [hbytes] at hd ⊢
    obtain ⟨⟨result, d1⟩, hf, h⟩ := bind_eq_ok.mp h
    obtain ⟨⟨as', d2⟩, hrest, h⟩ := bind_eq_ok.mp h
    cases h
    obtain ⟨hsteps, hready⟩ := steps_record hd hf
    obtain ⟨hsteps', hready'⟩ := steps_records rs hready hrest
    exact ⟨hsteps.trans hsteps', hready'⟩

/-- A record that cannot be filed. -/
theorem halts_records : ∀ (rs : List Record) {d : CpioDecoder} {e : ArchiveError},
    Ready d (bytesOf rs ++ S) → readAll d rs = .error e →
    ∃ as, Halts reader (d, bytesOf rs ++ S) as .fail
  | [], d, e, hd, h => by cases h
  | r :: rs, d, e, hd, h => by
    have hbytes : bytesOf (r :: rs) ++ S = r.bytes ++ (bytesOf rs ++ S) := by
      rw [bytesOf_cons, List.append_assoc]
    rw [hbytes] at hd ⊢
    rcases bind_eq_error.mp h with hf | ⟨⟨result, d1⟩, hf, h⟩
    · refine ⟨[], .of_halt (reader_fail (e := e) ?_ (by simp [hd.state]))⟩
      have hpos : 0 < (r.bytes ++ (bytesOf rs ++ S)).length := by
        have := length_of_head r.head
        rw [List.length_append, Record.bytes, List.length_append]
        omega
      rw [Record.bytes, List.append_assoc] at hd hpos ⊢
      rw [hd.turn_head r.head, r.parse, ok_bind, hd.cleared, enter_record hd hpos r.ordinary, hf,
        error_bind]
    · rcases bind_eq_error.mp h with hrest | ⟨_, _, h⟩
      · obtain ⟨hsteps, hready⟩ := steps_record hd hf
        obtain ⟨as, hhalt⟩ := halts_records rs hready hrest
        exact ⟨_, hhalt.prepend hsteps⟩
      · cases h

/-- **The trailer is read**: the withheld records are reported, and bytes behind them refused. -/
theorem halts_trailer (t : Trailer) (hd : Ready d (t.header ++ S)) :
    Halts reader (d, t.header ++ S) (queuedAtoms ((incomplete d.hardlinks).flatMap queueEntry))
      (if incomplete d.hardlinks = [] ∨ S = [] then .done else .refused) := by
  have hturn := hd.turn_head t.head
  rw [t.parse, ok_bind, hd.cleared, enter, if_pos t.trailer] at hturn
  dsimp only at hturn
  have hqueue : d.resolveIncompleteHardlinks.queued = (incomplete d.hardlinks).flatMap queueEntry := by
    show d.queued ++ _ = _
    rw [hd.queued]
    rfl
  cases hinc : incomplete d.hardlinks with
  | nil =>
    rw [hinc] at hqueue
    rw [if_pos (.inl rfl)]
    refine .of_halt ?_
    have hpop : ({ d.resolveIncompleteHardlinks with state := .done } : CpioDecoder).popQueued =
        none := by
      simp only [popQueued, hqueue, List.flatMap_nil]
    rw [hpop] at hturn
    simp only [reader, hturn, if_true]
  | cons m ms =>
    rw [hinc] at hqueue
    have hpop : ({ d.resolveIncompleteHardlinks with state := .done } : CpioDecoder).popQueued =
        some (.entry m, { d.resolveIncompleteHardlinks with
          state := .done, queued := .endEntry :: ms.flatMap queueEntry }) := by
      simp only [popQueued, hqueue, List.flatMap_cons, queueEntry, List.cons_append,
        List.nil_append]
    rw [hpop] at hturn
    have hfirst : reader (d, t.header ++ S) = .next [.entry m] ({ d.resolveIncompleteHardlinks with
        state := .done, queued := .endEntry :: ms.flatMap queueEntry }, S) := by
      simp only [reader, hturn, List.drop_left]
      rw [if_neg (by simp), atoms]
    have hrest := steps_queue (S := S) (.endEntry :: ms.flatMap queueEntry)
      (d := { d.resolveIncompleteHardlinks with
        state := .done, queued := .endEntry :: ms.flatMap queueEntry }) (.inr rfl) rfl
    have hsteps := Steps.head hfirst hrest
    rw [if_congr (or_iff_right (List.cons_ne_nil m ms)) rfl rfl]
    refine ⟨_, hsteps, ?_⟩
    by_cases hS : S = []
    · rw [if_pos hS]
      subst hS
      rfl
    · rw [if_neg hS]
      cases S with
      | nil => exact absurd rfl hS
      | cons b S => rfl

/-- **Bytes behind an archive with withheld records**: the records that come first are read, some of
them are withheld at the trailer, and more bytes follow it. -/
def Overrun (d : CpioDecoder) (S : List Byte) : Prop :=
  ∃ (rs : List Record) (t : Trailer) (rest : List Byte) (as : List Atom) (d' : CpioDecoder),
    S = bytesOf rs ++ (t.header ++ rest) ∧ rest ≠ [] ∧ readAll d rs = .ok (as, d') ∧
      incomplete d'.hardlinks ≠ []

theorem Overrun.halts (hd : Ready d S) (h : Overrun d S) : ∃ as, Halts reader (d, S) as .refused := by
  obtain ⟨rs, t, rest, as, d', rfl, hrest, hread, hinc⟩ := h
  obtain ⟨hsteps, hready⟩ := steps_records rs hd hread
  have ht := halts_trailer t hready
  rw [if_neg (not_or.mpr ⟨hinc, hrest⟩)] at ht
  exact ⟨_, ht.prepend hsteps⟩

/-- What the reading of a header comes to. -/
theorem Ready.head_cases (hd : Ready d S) : (∃ as, Halts reader (d, S) as .fail) ∨
    ∃ h rest p, S = h ++ rest ∧ Head .unlimited h ∧ parseHeader .unlimited h = .ok p := by
  have hread : Reading d.limits d.header d.headerTarget := by
    rw [hd.header, hd.headerTarget]
    exact reading_nil _
  have hne : d.state ≠ .done := by simp [hd.state]
  have hturn : d.turn S .end = headerLoop d.limits .end (S.length + 2) d.header d.headerTarget S 0 >>=
      afterRead d := by
    rw [turn_header hd.state hd.queued, turnHeader_eq]
  cases hloop : headerLoop d.limits .end (S.length + 2) d.header d.headerTarget S 0 with
  | error e =>
    rw [hloop, error_bind] at hturn
    exact .inl ⟨[], .of_halt (reader_fail hturn hne)⟩
  | ok r =>
    rw [hloop, ok_bind] at hturn
    rcases headerLoop_ok _ hread (Nat.lt_add_of_pos_right Nat.two_pos) hloop with
      ⟨target, -, rfl, hr'⟩ | ⟨j, -, hj, rfl, hh⟩
    · -- the stream ends in a header
      rw [afterRead, Nat.zero_add] at hturn
      have hfirst : reader (d, S) = .next [] ({ d with
          header := d.header ++ S, headerTarget := target }, []) := by
        simp only [reader, hturn, List.drop_length]
        rw [if_neg (by simp), atoms]
      have hlast := turn_nil_end (d := { d with header := d.header ++ S, headerTarget := target })
        hr' hd.state hd.queued
      exact .inl ⟨_, .prepend (.single hfirst) (.of_halt (reader_fail hlast hne))⟩
    · rw [hd.header, List.nil_append, hd.limits] at hh
      cases hp : parseHeader .unlimited (S.take j) with
      | error e =>
        refine .inl ⟨[], .of_halt (reader_fail (e := e) ?_ hne)⟩
        rw [hturn, afterRead, hd.header, List.nil_append, hd.limits, hp, error_bind]
      | ok p => exact .inr ⟨S.take j, S.drop j, p, (List.take_append_drop j S).symm, hh, hp⟩

/-- What follows the header of a record is its payload and padding, or the machine fails. -/
theorem record_cases {h : List Byte} (hd : Ready d (h ++ S)) (hh : Head .unlimited h)
    (hp : parseHeader .unlimited h = .ok p) (ht : p.trailer = false)
    (hf : file d p = .ok (result, d1)) :
    (∃ as, Halts reader (d, h ++ S) as .fail) ∨
      ∃ r : Record, ∃ rest, r.parsed = p ∧ h ++ S = r.bytes ++ rest := by
  obtain ⟨hlim, -, -, htotal, -⟩ := hd.file hf
  have hT := hd.total
  rw [List.length_append] at hT
  have hfirst := Steps.single (reader_head hd hh hp ht hf)
  have hsum : (d1.opened p result.isSome).total + S.length ≤ u64Max := by
    show d1.total + _ ≤ _
    omega
  by_cases hsize : S.length < p.size
  · exact .inl ⟨_, .prepend hfirst
      (halts_payload (d := d1.opened p result.isSome) rfl hlim hsum hsize)⟩
  have hpay := steps_payload (d := d1.opened p result.isSome) rfl hlim hsum (by omega)
  by_cases hbad : (S.drop p.size).length < p.padding ∨
      p.checksum.any (· ≠ byteSum 0 (S.take p.size)) = true
  · exact .inl ⟨_, .prepend hfirst (.prepend hpay (.of_halt (reader_ended_fail hbad)))⟩
  obtain ⟨hpad, hsum'⟩ := not_or.mp hbad
  refine .inr ⟨⟨h, p, S.take p.size, (S.drop p.size).take p.padding, hh, hp, ht, ?_, ?_, ?_⟩,
    (S.drop p.size).drop p.padding, rfl, ?_⟩
  · rw [List.length_take]
    omega
  · rw [List.length_take]
    omega
  · simpa using hsum'
  · rw [Record.bytes, List.append_assoc, List.append_assoc, List.take_append_drop,
      List.take_append_drop]

/-- **Only such bytes are refused.** -/
theorem overrun_of_halts : ∀ (n : ℕ) {d : CpioDecoder} {S : List Byte} {as : List Atom},
    S.length ≤ n → Ready d S → Halts reader (d, S) as .refused → Overrun d S := by
  intro n
  induction n with
  | zero =>
    intro d S as hn hd hhalt
    rcases hd.head_cases with ⟨bs, hfail⟩ | ⟨h, rest, p, rfl, hh, -⟩
    · cases (hhalt.unique hfail).2
    · have := length_of_head hh
      rw [List.length_append] at hn
      omega
  | succ n ih =>
    intro d S as hn hd hhalt
    rcases hd.head_cases with ⟨bs, hfail⟩ | ⟨h, rest, p, rfl, hh, hp⟩
    · cases (hhalt.unique hfail).2
    have h2 := length_of_head hh
    rw [List.length_append] at hn
    by_cases ht : p.trailer = true
    · have htrailer := halts_trailer ⟨h, p, hh, hp, ht⟩ hd
      have hout := (hhalt.unique htrailer).2
      split_ifs at hout with hif
      obtain ⟨hinc, hrest⟩ := not_or.mp hif
      exact ⟨[], ⟨h, p, hh, hp, ht⟩, rest, [], d, rfl, hrest, rfl, hinc⟩
    have ht' : p.trailer = false := by simpa using ht
    cases hf : file d p with
    | error e =>
      have hpos : 0 < (h ++ rest).length := by
        rw [List.length_append]
        omega
      have hturn := hd.turn_head hh
      rw [hp, ok_bind, hd.cleared, enter_record hd hpos ht', hf, error_bind] at hturn
      have hfail := Halts.of_halt (reader_fail hturn (by simp [hd.state]))
      cases (hhalt.unique hfail).2
    | ok res =>
      obtain ⟨result, d1⟩ := res
      rcases record_cases hd hh hp ht' hf with ⟨bs, hfail⟩ | ⟨r, rest', rfl, hbytes⟩
      · cases (hhalt.unique hfail).2
      have hlen : r.bytes.length + rest'.length = h.length + rest.length := by
        rw [← List.length_append, ← hbytes, List.length_append]
      have hr2 : 2 ≤ r.bytes.length := by
        have := length_of_head r.head
        rw [Record.bytes, List.length_append]
        omega
      rw [hbytes] at hd hhalt ⊢
      obtain ⟨hsteps, hready⟩ := steps_record hd hf
      obtain ⟨cs, -, hhalt'⟩ := hhalt.of_steps hsteps
      obtain ⟨rs, t, rest'', as', d', rfl, hne, hread, hinc⟩ := ih (by omega) hready hhalt'
      refine ⟨r :: rs, t, rest'', recordAtoms result r.payload ++ queuedAtoms d1.queued ++ as', d', ?_,
        hne, ?_, hinc⟩
      · rw [bytesOf_cons, List.append_assoc]
      · rw [readAll, hf]
        simp only [ok_bind, hread]
        rfl

/-- The machine accepts exactly the other streams. -/
theorem accepted_iff (hd : Ready d S) : Accepted d S ↔ ¬ Overrun d S := by
  refine ⟨?_, ?_⟩
  · intro ha ho
    obtain ⟨as, hhalt⟩ := ho.halts hd
    exact ha as hhalt
  · intro ho as hhalt
    exact ho (overrun_of_halts _ le_rfl hd hhalt)

/-! ### Whole archives -/

theorem reading_of_ready (h : Ready d S) :
    Reading d.limits d.header d.headerTarget := by
  rw [h.header, h.headerTarget]
  exact reading_nil _

theorem running_of_ready (h : Ready d S) (ha : Accepted d S) : Running d S :=
  ⟨h.limits, reading_of_ready h, h.total, ha⟩

/-- What the decoder reads is what the machine reads. -/
theorem reads_iff_halts (h : Ready d S) {P : List Atom → Prop} :
    Reads CpioDecoder.step d S P ↔ ∃ as, Halts reader (d, S) as .done ∧ P as := by
  refine ⟨?_, ?_⟩
  · intro hr
    obtain ⟨n, hdone, -, hP⟩ := hr (.whole S fun _ => 1) (fun _ => one_pos) ⟨0, fun _ _ => rfl⟩
    have hhalt := (@whole_done _ _ reader d S (fun _ => 1)
      (fun {d S k s d'} hs => turns_end _ hs) n).1 hdone
    exact ⟨_, hhalt, hP⟩
  · rintro ⟨as, hhalt, hP⟩
    have ha : Accepted d S := by
      intro bs hr
      cases (hhalt.unique hr).2
    exact (reads_iff cpio_faithful cpio_ending (running_of_ready h ha) (reading_of_ready h)).mpr
      ⟨as, hhalt, hP⟩

/-- **What the decoder reports of an archive.** -/
theorem reads_archive_iff {rs : List Record} (t : Trailer) (h : Ready d (bytesOf rs ++ t.header))
    {P : List Atom → Prop} :
    Reads CpioDecoder.step d (bytesOf rs ++ t.header) P ↔ ∃ as d', readAll d rs = .ok (as, d') ∧
      P (as ++ queuedAtoms ((incomplete d'.hardlinks).flatMap queueEntry)) := by
  rw [reads_iff_halts h]
  have hread : ∀ {as d'}, readAll d rs = .ok (as, d') → Halts reader (d, bytesOf rs ++ t.header)
      (as ++ queuedAtoms ((incomplete d'.hardlinks).flatMap queueEntry)) .done := by
    intro as d' hr
    obtain ⟨hsteps, hready⟩ := steps_records rs h hr
    have htrailer := halts_trailer (S := []) t (by rw [List.append_nil]; exact hready)
    rw [if_pos (.inr rfl), List.append_nil] at htrailer
    exact htrailer.prepend hsteps
  refine ⟨?_, ?_⟩
  · rintro ⟨as, hhalt, hP⟩
    cases hr : readAll d rs with
    | error e =>
      obtain ⟨bs, hfail⟩ := halts_records rs h hr
      cases (hhalt.unique hfail).2
    | ok res =>
      obtain ⟨bs, d'⟩ := res
      obtain ⟨rfl, -⟩ := hhalt.unique (hread hr)
      exact ⟨bs, d', rfl, hP⟩
  · rintro ⟨as, d', hr, hP⟩
    exact ⟨_, hread hr, hP⟩

end

end LibarchiveOxide.Cpio.Archive
