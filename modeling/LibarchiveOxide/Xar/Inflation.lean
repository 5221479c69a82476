import LibarchiveOxide.Lib.Result
import LibarchiveOxide.Stream.Event
import LibarchiveOxide.Xar.Payloads

/-! # Zlib streams of any size

`inflate_toc` and `read_payload` hand a zlib stream to the decoder in pieces, and say that the input ends
here (`MZFlush::Finish`) as soon as the last piece has been read. A decoder that is told so and whose
output fills first says `Buf`. `inflate_toc` then drops the input that is left, and a first call of this
kind is the only one (`Resumable`), so that `inflate_toc` works exactly if what is still to come fits
into its buffer when the last piece has been read, and `read_payload` exactly if its first call does not
have the whole stream, or has room for all that it decodes to (`inflated_iff`). -/

namespace LibarchiveOxide.Xar.Inflation

open Core.Failure Lib.Slice Lib.Result Stream.Event Stream.Image Xar.Reader Xar.Payloads

/-! ### The table of contents -/

/-- What `inflate_toc` works on: where the source is, the compressed bytes that are not read yet, the
ones that were read and not consumed, the decoder, and what it has put out. -/
structure Toc (σ : Type) where
  position : ℕ
  compRemaining : ℕ
  unread : List Byte
  state : σ
  output : List Byte

/-- The next piece is read in the place of the one before. -/
def Toc.refill {σ : Type} (image : List Byte) (t : Toc σ) : Except StreamError (Toc σ) :=
  let count := min t.compRemaining buffer
  if count ≠ 0 then
    (readExact image t.position count).map fun bytes =>
      { t with
        position := t.position + count
        compRemaining := t.compRemaining - count
        unread := bytes }
  else .ok { t with unread := [] }

/-- What follows a call that made no progress, or whose output filled. -/
def Toc.stalled {σ : Type} (image : List Byte) (t : Toc σ) :
    Except StreamError (Toc σ ⊕ List Byte) :=
  if t.compRemaining = 0 ∧ t.unread = [] then
    .error (xarError .malformed "xar TOC ended without stream end")
  else (t.refill image).map .inl

/-- A call of the decoder, and what follows it: another state, or the table of contents. -/
def tocRound (c : Codec) (image : List Byte) (expected : ℕ) (t : Toc c.State) :
    Except StreamError (Toc c.State ⊕ List Byte) :=
  let r := c.decode t.state t.unread buffer (t.compRemaining == 0)
  if expected < t.output.length + r.written.length then
    .error (xarError .malformed "xar TOC inflated beyond its declared length")
  else
    let t := { t with
      unread := t.unread.drop r.consumed
      state := r.state
      output := t.output ++ r.written }
    match r.status with
    | .streamEnd =>
      if t.output.length ≠ expected then
        .error (xarError .malformed "xar TOC length does not match its header")
      else .ok (.inr t.output)
    | .ok =>
      if r.consumed ≠ 0 ∨ r.written ≠ [] then
        if t.unread = [] ∧ t.compRemaining ≠ 0 then (t.refill image).map .inl else .ok (.inl t)
      else t.stalled image
    | .buf => t.stalled image
    | .memNeeded | .failed => .error (xarError .malformed "xar TOC decode failed")

/-- The loop of `inflate_toc`, for at most so many rounds. -/
def tocLoop (c : Codec) (image : List Byte) (expected : ℕ) :
    ℕ → Toc c.State → Option (Except StreamError (List Byte))
  | 0, _ => none
  | rounds + 1, t =>
    match tocRound c image expected t with
    | .error e => some (.error e)
    | .ok (.inr output) => some (.ok output)
    | .ok (.inl t) => tocLoop c image expected rounds t

/-- `inflate_toc` before it reads. -/
def Toc.start (c : Codec) (position compLen : ℕ) : Toc c.State := ⟨position, compLen, [], c.new, []⟩

/-- `inflate_toc`. -/
def inflateToc (c : Codec) (image : List Byte) (position compLen expected rounds : ℕ) :
    Option (Except StreamError (List Byte)) :=
  match (Toc.start c position compLen).refill image with
  | .error e => some (.error e)
  | .ok t => tocLoop c image expected rounds t

/-! ### Resumable decoders -/

/-- What a call is asked to do: some of the rest of a stream is the input, and there is room. -/
structure Asked {σ : Type} (At : σ → List Byte → List Byte → Bool → Prop) (s : σ)
    (input later todo : List Byte) (fresh : Bool) (room : ℕ) : Prop where
  place : At s (input ++ later) todo fresh
  room : 0 < room

/-- **A resumable decoder.** `At s rest todo fresh` says that behind `rest` the stream ends and that
`todo` is what is still to be put out, and `fresh` that there was no call yet. A call puts out what comes
next, all that fits if it has the whole rest; with input it makes progress; it says when the stream has
ended and everything is out, and `buf` if the input ends and the output filled first or if it made no
progress. A first call that is told that the input ends is the only one. -/
structure Resumable (c : Codec) (At : c.State → List Byte → List Byte → Bool → Prop)
    (Dead : c.State → Prop) : Prop where
  written : ∀ {s input later todo fresh room} (finish : Bool), Asked At s input later todo fresh room →
    (c.decode s input room finish).written <+: todo
  whole : ∀ {s input todo fresh room} (finish : Bool), Asked At s input [] todo fresh room →
    (c.decode s input room finish).written = todo.take room ∧
      (todo.length ≤ room → (c.decode s input room finish).consumed = input.length)
  progress : ∀ {s input later todo fresh room} (finish : Bool),
    Asked At s input later todo fresh room → input ≠ [] →
      (c.decode s input room finish).consumed ≠ 0 ∨ (c.decode s input room finish).written ≠ []
  ends : ∀ {s input later todo fresh room} (finish : Bool), Asked At s input later todo fresh room →
    ((c.decode s input room finish).status = .streamEnd ↔
      (c.decode s input room finish).consumed = (input ++ later).length ∧
        (c.decode s input room finish).written = todo)
  goesOn : ∀ {s input later todo fresh room} (finish : Bool), Asked At s input later todo fresh room →
    (c.decode s input room finish).status ≠ .streamEnd →
      (c.decode s input room finish).status =
        if finish = true ∧ (c.decode s input room finish).written.length = room ∨
          (c.decode s input room finish).consumed = 0 ∧ (c.decode s input room finish).written = []
        then .buf else .ok
  next : ∀ {s input later todo fresh room} (finish : Bool), Asked At s input later todo fresh room →
    (c.decode s input room finish).status ≠ .streamEnd →
      if fresh = true ∧ finish = true ∧ (c.decode s input room finish).status = .buf then
        Dead (c.decode s input room finish).state
      else At (c.decode s input room finish).state
        ((input ++ later).drop (c.decode s input room finish).consumed)
        (todo.drop (c.decode s input room finish).written.length) false
  dead : ∀ {s} input room finish, Dead s → (c.decode s input room finish).status = .failed

/-! ### Reading the table of contents -/

section toc

variable {c : Codec} {At : c.State → List Byte → List Byte → Bool → Prop} {Dead : c.State → Prop}
  {image x : List Byte} {expected : ℕ}

/-- The decoder stands where the pieces that it was given leave it. -/
structure Feeds (At : c.State → List Byte → List Byte → Bool → Prop) (image x : List Byte)
    (t : Toc c.State) (later todo : List Byte) (fresh : Bool) : Prop where
  place : At t.state (t.unread ++ later) todo fresh
  remaining : t.compRemaining = later.length
  ahead : window image t.position (t.position + later.length) = later
  inside : t.position + later.length ≤ image.length
  output : t.output ++ todo = x
  unread : later ≠ [] → t.unread ≠ []

variable {t : Toc c.State}

/-- The next piece. -/
theorem refill_feeds {later todo : List Byte} {fresh : Bool} (hplace : At t.state later todo fresh)
    (hremaining : t.compRemaining = later.length)
    (hahead : window image t.position (t.position + later.length) = later)
    (hinside : t.position + later.length ≤ image.length) (houtput : t.output ++ todo = x) :
    ∃ t' later', t.refill image = .ok t' ∧ t'.unread ++ later' = later ∧ t'.output = t.output ∧
      Feeds At image x t' later' todo fresh := by
  unfold Toc.refill
  dsimp only
  by_cases hcount : min t.compRemaining buffer = 0
  · have hnil : later = [] := by
      refine List.length_eq_zero_iff.mp ?_
      simp only [buffer] at hcount
      omega
    subst hnil
    rw [if_neg (not_not.mpr hcount)]
    exact ⟨_, [], rfl, rfl, rfl, hplace, hremaining, hahead, hinside, houtput, fun h => absurd rfl h⟩
  · rw [if_pos hcount]
    set count := min t.compRemaining buffer
    have hle : count ≤ later.length := hremaining ▸ min_le_left _ _
    have hfirst : window image t.position (t.position + count) = later.take count := by
      rw [← hahead, window, window, List.take_take, Nat.add_sub_cancel_left, Nat.add_sub_cancel_left,
        min_eq_left hle]
    have hsecond : window image (t.position + count) (t.position + count + (later.length - count)) =
        later.drop count := by
      have hjoin := window_join image (Nat.le_add_right t.position count)
        (Nat.le_add_right (t.position + count) (later.length - count))
      rw [hfirst, show t.position + count + (later.length - count) = t.position + later.length by omega,
        hahead] at hjoin
      rw [show t.position + count + (later.length - count) = t.position + later.length by omega]
      exact List.append_cancel_left (hjoin.trans (List.take_append_drop count later).symm)
    have hread : readExact image t.position count = .ok (later.take count) := by
      rw [readExact, if_pos (by omega), ← hfirst, window, Nat.add_sub_cancel_left]
    rw [hread]
    refine ⟨_, later.drop count, rfl, List.take_append_drop _ _, rfl, ?_, ?_, ?_, ?_, houtput, ?_⟩
    · exact (List.take_append_drop count later).symm ▸ hplace
    · simp only [List.length_drop, hremaining]
    · rw [List.length_drop]
      exact hsecond
    · rw [List.length_drop]
      exact (show t.position + count + (later.length - count) ≤ image.length by omega)
    · intro _ hnil
      have := congrArg List.length hnil
      rw [List.length_take, List.length_nil] at this
      omega

/-- **A round with more to read** goes on, and something is consumed or put out. -/
theorem tocRound_none (h : Resumable c At Dead) {later todo : List Byte} {fresh : Bool}
    (ht : Feeds At image x t later todo fresh) (hlater : later ≠ []) (hx : x.length = expected) :
    ∃ t' later' todo', tocRound c image expected t = .ok (.inl t') ∧
      Feeds At image x t' later' todo' false ∧
      (t'.unread ++ later').length + todo'.length < (t.unread ++ later).length + todo.length := by
  have hpos : 0 < later.length := List.length_pos_of_ne_nil hlater
  have hfinish : (t.compRemaining == 0) = false := by
    rw [ht.remaining]
    exact beq_false_of_ne (by omega)
  have hasked : Asked At t.state t.unread later todo fresh buffer := ⟨ht.place, by decide⟩
  have hwritten := h.written false hasked
  have hprogress := h.progress false hasked (ht.unread hlater)
  have hends := h.ends false hasked
  have hgoes := h.goesOn false hasked
  have hnext := h.next false hasked
  have hconsumed := c.consumed_le t.state t.unread buffer false
  unfold tocRound
  rw [hfinish]
  generalize c.decode t.state t.unread buffer false = r at hwritten hprogress hends hgoes hnext hconsumed
  obtain ⟨todo', hsplit⟩ := hwritten
  have hstatus : r.status ≠ .streamEnd := by
    intro he
    have := (hends.mp he).1
    rw [List.length_append] at this
    omega
  have hok : r.status = .ok := by
    rw [hgoes hstatus, if_neg]
    rintro (⟨h, -⟩ | ⟨h0, h1⟩)
    · exact Bool.false_ne_true h
    · exact hprogress.elim (fun h => h h0) fun h => h h1
  have hplace := hnext hstatus
  rw [if_neg (by simp), ← hsplit, List.drop_left, List.drop_append_of_le_length hconsumed] at hplace
  have hlength : t.output.length + (r.written.length + todo'.length) = expected := by
    rw [← hx, ← ht.output, ← hsplit, List.length_append, List.length_append]
  have hless : r.consumed ≠ 0 ∨ r.written.length ≠ 0 :=
    hprogress.imp_right fun h => fun h0 => h (List.length_eq_zero_iff.mp h0)
  have houtput : t.output ++ r.written ++ todo' = x := by
    rw [List.append_assoc, hsplit, ht.output]
  dsimp only
  rw [if_neg (by omega), hok]
  dsimp only
  rw [if_pos hprogress]
  have hmeasure : (t.unread.drop r.consumed ++ later).length + todo'.length <
      (t.unread ++ later).length + todo.length := by
    rw [← hsplit]
    simp only [List.length_append, List.length_drop]
    omega
  by_cases hnil : t.unread.drop r.consumed = []
  · rw [if_pos ⟨hnil, by rw [ht.remaining]; omega⟩]
    rw [hnil, List.nil_append] at hplace hmeasure
    obtain ⟨t', later', hrefill, hrest, -, hfeeds⟩ := refill_feeds (c := c)
      (t := ⟨t.position, t.compRemaining, t.unread.drop r.consumed, r.state, t.output ++ r.written⟩)
      hplace ht.remaining ht.ahead ht.inside houtput
    rw [hrefill]
    exact ⟨t', later', todo', rfl, hfeeds, by rwa [hrest]⟩
  · rw [if_neg fun hc => hnil hc.1]
    exact ⟨_, later, todo', rfl, ⟨hplace, ht.remaining, ht.ahead, ht.inside, houtput, fun _ => hnil⟩,
      hmeasure⟩

/-- Input was dropped, or the decoder has had its only call. -/
def Broken (At : c.State → List Byte → List Byte → Bool → Prop) (Dead : c.State → Prop)
    (t : Toc c.State) : Prop :=
  t.compRemaining = 0 ∧ t.unread = [] ∧
    (Dead t.state ∨ ∃ later todo, later ≠ [] ∧ At t.state later todo false)

/-- **The last round**, if what is still to come fits. -/
theorem tocRound_fits (h : Resumable c At Dead) {todo : List Byte} {fresh : Bool}
    (ht : Feeds At image x t [] todo fresh) (hx : x.length = expected)
    (hfits : todo.length ≤ buffer) : tocRound c image expected t = .ok (.inr x) := by
  have hplace := ht.place
  rw [List.append_nil] at hplace
  have hasked : Asked At t.state t.unread [] todo fresh buffer := ⟨ht.place, by decide⟩
  have hfinish : (t.compRemaining == 0) = true := by rw [ht.remaining]; rfl
  obtain ⟨hwritten, hconsumed⟩ := h.whole true hasked
  rw [List.take_of_length_le hfits] at hwritten
  have hstatus := (h.ends true hasked).mpr
    ⟨by rw [hconsumed hfits, List.append_nil], hwritten⟩
  have hlength : t.output.length + todo.length = expected := by
    rw [← hx, ← ht.output, List.length_append]
  unfold tocRound
  rw [hfinish]
  generalize c.decode t.state t.unread buffer true = r at hwritten hstatus
  dsimp only
  rw [hwritten, if_neg (by omega), hstatus, ht.output]
  dsimp only
  rw [if_neg (not_not.mpr hx)]

/-- **The last round**, if it does not. -/
theorem tocRound_filled (h : Resumable c At Dead) {todo : List Byte} {fresh : Bool}
    (ht : Feeds At image x t [] todo fresh) (hfull : buffer < todo.length)
    {r : Toc c.State ⊕ List Byte} (hround : tocRound c image expected t = .ok r) :
    ∃ t', r = .inl t' ∧ Broken At Dead t' := by
  have hasked : Asked At t.state t.unread [] todo fresh buffer := ⟨ht.place, by decide⟩
  have hfinish : (t.compRemaining == 0) = true := by rw [ht.remaining]; rfl
  have hwritten := (h.whole true hasked).1
  have hends := h.ends true hasked
  have hgoes := h.goesOn true hasked
  have hnext := h.next true hasked
  have hconsumed := c.consumed_le t.state t.unread buffer true
  have hremaining : t.compRemaining = 0 := ht.remaining
  unfold tocRound at hround
  rw [hfinish] at hround
  generalize c.decode t.state t.unread buffer true = o at hwritten hends hgoes hnext hconsumed hround
  have hlength : o.written.length = buffer := by
    rw [hwritten, List.length_take_of_le hfull.le]
  have hstatus : o.status ≠ .streamEnd := by
    intro he
    rw [(hends.mp he).2] at hlength
    omega
  have hbuf : o.status = .buf := by rw [hgoes hstatus, if_pos (.inl ⟨rfl, hlength⟩)]
  have hnext := hnext hstatus
  dsimp only at hround
  by_cases hlong : expected < t.output.length + o.written.length
  · rw [if_pos hlong] at hround
    cases hround
  rw [if_neg hlong, hbuf] at hround
  unfold Toc.stalled at hround
  dsimp only at hround
  split_ifs at hround with hempty
  have hleft : t.unread.drop o.consumed ≠ [] := fun hnil => hempty ⟨hremaining, hnil⟩
  unfold Toc.refill at hround
  simp only [hremaining, Nat.zero_min, ne_eq, not_true_eq_false, if_false] at hround
  cases hround
  refine ⟨_, rfl, rfl, rfl, ?_⟩
  rw [hbuf, List.append_nil] at hnext
  cases fresh with
  | true => exact .inl (by simpa using hnext)
  | false => exact .inr ⟨_, _, hleft, by simpa using hnext⟩

/-- A broken decoder stays broken. -/
theorem tocRound_broken (h : Resumable c At Dead) (ht : Broken At Dead t)
    {r : Toc c.State ⊕ List Byte} (hround : tocRound c image expected t = .ok r) :
    ∃ t', r = .inl t' ∧ Broken At Dead t' := by
  obtain ⟨hremaining, hunread, hstate⟩ := ht
  have hfinish : (t.compRemaining == 0) = true := by rw [hremaining]; rfl
  unfold tocRound at hround
  rw [hfinish, hunread] at hround
  rcases hstate with hdead | ⟨later, todo, hlater, hplace⟩
  · have hstatus := h.dead [] buffer true hdead
    generalize c.decode t.state [] buffer true = o at hstatus hround
    dsimp only at hround
    by_cases hlong : expected < t.output.length + o.written.length
    · rw [if_pos hlong] at hround
      cases hround
    · rw [if_neg hlong, hstatus] at hround
      cases hround
  · have hasked : Asked At t.state [] later todo false buffer := ⟨hplace, by decide⟩
    have hends := h.ends true hasked
    have hgoes := h.goesOn true hasked
    have hnext := h.next true hasked
    have hconsumed := c.consumed_le t.state [] buffer true
    generalize c.decode t.state [] buffer true = o at hends hgoes hnext hconsumed hround
    have hzero : o.consumed = 0 := Nat.le_zero.mp hconsumed
    have hstatus : o.status ≠ .streamEnd := by
      intro he
      have := (hends.mp he).1
      rw [hzero, List.nil_append] at this
      exact hlater (List.length_eq_zero_iff.mp this.symm)
    have hstall : ∀ (t' : Toc c.State) r', t'.stalled image = .ok r' → t'.compRemaining = 0 →
        t'.unread ≠ [] := by
      intro t' r' hr' h1 h2
      rw [Toc.stalled, if_pos ⟨h1, h2⟩] at hr'
      cases hr'
    dsimp only at hround
    by_cases hlong : expected < t.output.length + o.written.length
    · rw [if_pos hlong] at hround
      cases hround
    rw [if_neg hlong] at hround
    by_cases hbuf : o.status = .buf
    · rw [hbuf] at hround
      exact absurd List.drop_nil (hstall _ _ hround hremaining)
    · have hok : o.status = .ok := by
        rw [hgoes hstatus] at hbuf ⊢
        split_ifs at hbuf ⊢
        · exact absurd rfl hbuf
        · rfl
      have hnext := hnext hstatus
      rw [if_neg (fun hc => Bool.false_ne_true hc.1), hzero, List.nil_append, List.drop_zero] at hnext
      rw [hok] at hround
      dsimp only at hround
      split_ifs at hround with hprogress hmore
      · exact absurd hremaining hmore.2
      · cases hround
        exact ⟨_, rfl, hremaining, List.drop_nil, .inr ⟨later, _, hlater, hnext⟩⟩
      · exact absurd List.drop_nil (hstall _ _ hround hremaining)

theorem tocLoop_broken (h : Resumable c At Dead) : ∀ {rounds : ℕ} {t : Toc c.State}
    {output : List Byte}, Broken At Dead t → tocLoop c image expected rounds t ≠ some (.ok output)
  | 0, _, _, _ => nofun
  | rounds + 1, t, output, ht => by
    intro hrun
    rw [tocLoop] at hrun
    cases hround : tocRound c image expected t with
    | error e =>
      rw [hround] at hrun
      cases hrun
    | ok r =>
      obtain ⟨t', rfl, ht'⟩ := tocRound_broken h ht hround
      rw [hround] at hrun
      exact tocLoop_broken h ht' hrun

/-- A round that goes on. -/
def Step (c : Codec) (image : List Byte) (expected : ℕ) (t t' : Toc c.State) : Prop :=
  tocRound c image expected t = .ok (.inl t')

/-- In every state that is reached with the last piece read, what is still to come fits. -/
def Fits (c : Codec) (image x : List Byte) (t : Toc c.State) : Prop :=
  ∀ t', Relation.ReflTransGen (Step c image x.length) t t' → t'.compRemaining = 0 →
    x.length ≤ t'.output.length + buffer

/-- **The loop**: the table of contents comes out exactly if what is left fits when the last piece has
been read. -/
theorem tocLoop_iff (h : Resumable c At Dead) : ∀ {rounds : ℕ} {t : Toc c.State}
    {later todo : List Byte} {fresh : Bool}, Feeds At image x t later todo fresh →
    (t.unread ++ later).length + todo.length < rounds →
    (tocLoop c image x.length rounds t = some (.ok x) ↔ Fits c image x t)
  | 0, _, _, _, _, _, hrounds => absurd hrounds (Nat.not_lt_zero _)
  | rounds + 1, t, later, todo, fresh, ht, hrounds => by
    by_cases hlater : later = []
    · subst hlater
      have hlength : t.output.length + todo.length = x.length := by
        rw [← ht.output, List.length_append]
      by_cases hfits : todo.length ≤ buffer
      · have hround := tocRound_fits h ht rfl hfits
        have hdone : ∀ t', ¬ Step c image x.length t t' := by
          intro t' hstep
          rw [Step, hround] at hstep
          cases hstep
        rw [tocLoop, hround]
        refine iff_of_true rfl fun t' ht' _ => ?_
        rcases Relation.ReflTransGen.cases_head_iff.mp ht' with rfl | ⟨t1, hstep, -⟩
        · omega
        · exact absurd hstep (hdone t1)
      · refine iff_of_false (fun hrun => ?_) fun hall => ?_
        · rw [tocLoop] at hrun
          cases hround : tocRound c image x.length t with
          | error e =>
            rw [hround] at hrun
            cases hrun
          | ok r =>
            obtain ⟨t', rfl, hbroken⟩ := tocRound_filled h ht (by omega) hround
            rw [hround] at hrun
            exact tocLoop_broken h hbroken hrun
        · have := hall t .refl ht.remaining
          omega
    · obtain ⟨t1, later', todo', hround, ht1, hless⟩ := tocRound_none h ht hlater rfl
      rw [tocLoop, hround]
      refine (tocLoop_iff h ht1 (by omega)).trans ⟨fun hall t' ht' hlast => ?_, fun hall t' ht' => ?_⟩
      · rcases Relation.ReflTransGen.cases_head_iff.mp ht' with rfl | ⟨t2, hstep, hrest⟩
        · rw [ht.remaining] at hlast
          exact absurd (List.length_eq_zero_iff.mp hlast) hlater
        · rw [Step, hround, Except.ok.injEq, Sum.inl.injEq] at hstep
          subst hstep
          exact hall t' hrest hlast
      · exact hall t' (.head hround ht')

end toc

/-! ### Reading a payload -/

section payload

/-- Calls of `read_payload` with buffers of these lengths, until one returns nothing: what they return,
one after the other. -/
def drain (a : Archive) (fuel : ℕ) (rooms : ℕ → ℕ) :
    ℕ → ℕ → Input → Option (Payload a) → Option (Except StreamError (List Byte))
  | 0, _, _, _ => none
  | calls + 1, i, input, payload =>
    match readPayload a fuel input payload (rooms i) with
    | none => none
    | some (.error e) => some (.error e)
    | some (.ok ([], _, _)) => some (.ok [])
    | some (.ok (b :: bytes, input, payload)) =>
      (drain a fuel rooms calls (i + 1) input payload).map fun r => r.map (b :: bytes ++ ·)

variable {a : Archive} {At : a.zlib.State → List Byte → List Byte → Bool → Prop}
  {Dead : a.zlib.State → Prop} {input : Input} {s : Inflating a.zlib.State}
  {later todo : List Byte} {fresh : Bool} {room fuel calls : ℕ} {rooms : ℕ → ℕ}

/-- The decoder of a payload stands where the pieces that it was given leave it. -/
structure Draws (At : a.zlib.State → List Byte → List Byte → Bool → Prop) (input : Input)
    (s : Inflating a.zlib.State) (later todo : List Byte) (fresh : Bool) : Prop where
  place : At s.state (s.unread ++ later) todo fresh
  remaining : s.compRemaining = later.length
  ahead : ahead a input later.length = later
  inside : input.position + later.length ≤ a.image.length
  unfinished : s.finished = false

/-- The bytes of the next read, if so many are asked for. -/
def nextRead (a : Archive) (input : Input) (count : ℕ) : ℕ :=
  min (min count buffer) (a.grant input.reads + 1)

/-- A refill: it reads if there is nothing left from before. -/
theorem refill_draws (h : Draws At input s later todo fresh) (message : String) :
    ∃ input' s' later', a.refill input s message = .ok (input', s') ∧
      Draws At input' s' later' todo fresh ∧ s'.unread ++ later' = s.unread ++ later ∧
      (later' ≠ [] → s'.unread ≠ []) ∧
      (s.unread = [] → later'.length = later.length - nextRead a input later.length) := by
  unfold Archive.refill
  by_cases hread : s.unread = [] ∧ 0 < s.compRemaining
  · obtain ⟨hnil, hpos⟩ := hread
    rw [h.remaining] at hpos
    rw [if_pos ⟨hnil, by rw [h.remaining]; exact hpos⟩, h.remaining]
    obtain ⟨hle, hposition, hsplit⟩ := read_spec (min later.length buffer) later.length h.inside
      (min_le_left _ _)
    have hlength : (a.read input (min later.length buffer)).1.length =
        nextRead a input later.length := by
      unfold Archive.read nextRead
      dsimp only
      have := h.inside
      rw [length_window_of_le (by omega)]
      omega
    have hsome : 0 < nextRead a input later.length := by
      simp only [nextRead, buffer]
      omega
    rw [h.ahead] at hsplit
    generalize a.read input (min later.length buffer) = r at hle hposition hsplit hlength
    obtain ⟨bytes, input'⟩ := r
    dsimp only at hle hposition hsplit hlength ⊢
    have hbytes : bytes ≠ [] := by
      intro h0
      rw [h0, List.length_nil] at hlength
      omega
    have hlater : (ahead a input' (later.length - bytes.length)).length =
        later.length - bytes.length := by
      have := congrArg List.length hsplit
      rw [List.length_append] at this
      omega
    have hmin : bytes.length ≤ later.length := hle.trans (min_le_left _ _)
    have hinside := h.inside
    rw [if_neg hbytes]
    refine ⟨input', _, ahead a input' (later.length - bytes.length), rfl, ⟨?_, ?_, ?_, ?_, h.unfinished⟩,
      ?_, fun _ => hbytes, fun _ => ?_⟩
    · rw [← hsplit]
      simpa only [hnil, List.nil_append] using h.place
    · exact hlater.symm
    · rw [hlater]
    · rw [hlater]
      omega
    · rw [← hsplit, hnil, List.nil_append]
    · rw [hlater, hlength]
  · rw [if_neg hread]
    refine ⟨input, s, later, rfl, h, rfl, fun hlater hnil => ?_, fun hnil => ?_⟩
    · exact hread ⟨hnil, by rw [h.remaining]; exact List.length_pos_of_ne_nil hlater⟩
    · have hzero : later.length = 0 := by
        have : ¬ 0 < s.compRemaining := fun hpos => hread ⟨hnil, hpos⟩
        have := h.remaining
        omega
      rw [hzero, Nat.zero_sub]

/-- **A call of `read_payload`** that is not a first one with the whole stream and too little room
returns what comes next, and nothing only at the end. -/
theorem readZlib_ok (h : Resumable a.zlib At Dead) (hroom : 0 < room) : ∀ {fuel : ℕ} {input : Input}
    {s : Inflating a.zlib.State} {later : List Byte} {fresh : Bool},
    Draws At input s later todo fresh → (s.unread ++ later).length < fuel →
    (fresh = true → s.unread = [] ∧ (nextRead a input later.length < later.length ∨
      todo.length ≤ room)) →
    ∃ written input' s' todo', readZlib a room fuel input s = some (.ok (written, input', s')) ∧
      todo = written ++ todo' ∧ (s'.finished = true ∧ todo' = [] ∨
        written ≠ [] ∧ ∃ later', Draws At input' s' later' todo' false ∧
          (s'.unread ++ later').length ≤ (s.unread ++ later).length)
  | 0, _, _, _, _, _, hfuel, _ => absurd hfuel (Nat.not_lt_zero _)
  | fuel + 1, input, s, later, fresh, hs, hfuel, hfresh => by
    obtain ⟨input', s', later', hrefill, hs', hrest, hunread, hnext⟩ := refill_draws hs
      "xar heap ended before the compressed blob"
    rw [readZlib, if_neg (by rw [hs.unfinished]; exact Bool.false_ne_true), hrefill]
    dsimp only
    have hasked : Asked At s'.state s'.unread later' todo fresh room := ⟨hs'.place, hroom⟩
    set finish := s'.compRemaining == 0 with hfinish
    have hlast : finish = true ↔ later' = [] := by
      rw [hfinish, beq_iff_eq, hs'.remaining, List.length_eq_zero_iff]
    have hwritten := h.written finish hasked
    have hends := h.ends finish hasked
    have hgoes := h.goesOn finish hasked
    have hplace := h.next finish hasked
    have hprogress := h.progress finish hasked
    have hconsumed := a.zlib.consumed_le s'.state s'.unread room finish
    have hwhole : later' = [] → (a.zlib.decode s'.state s'.unread room finish).written =
        todo.take room ∧ (todo.length ≤ room →
          (a.zlib.decode s'.state s'.unread room finish).consumed = s'.unread.length) := by
      intro hnil
      exact h.whole finish ⟨hnil ▸ hs'.place, hroom⟩
    obtain ⟨r, hr⟩ : ∃ r, a.zlib.decode s'.state s'.unread room finish = r := ⟨_, rfl⟩
    rw [hr] at hwritten hends hgoes hplace hprogress hconsumed hwhole
    rw [hr]
    obtain ⟨todo', hsplit⟩ := hwritten
    by_cases hstatus : r.status = .streamEnd
    · rw [hstatus]
      have hall := (hends.mp hstatus).2
      rw [hall] at hsplit
      refine ⟨r.written, input', _, todo', rfl, by rw [hall, hsplit], .inl ⟨rfl, ?_⟩⟩
      exact List.append_right_eq_self.mp hsplit
    · have hgoes := hgoes hstatus
      have hplace := hplace hstatus
      -- a first call with the whole stream would have ended it
      have hnotDead : ¬ (fresh = true ∧ finish = true ∧ r.status = .buf) := by
        rintro ⟨hf, hfin, -⟩
        have hnil := hlast.mp hfin
        obtain ⟨hwrittenAll, hconsumedAll⟩ := hwhole hnil
        obtain ⟨hempty, hshort | hfits⟩ := hfresh hf
        · have := hnext hempty
          rw [hnil, List.length_nil] at this
          omega
        · refine hstatus (hends.mpr ⟨?_, hwrittenAll.trans (List.take_of_length_le hfits)⟩)
          rw [hconsumedAll hfits, hnil, List.append_nil]
      rw [if_neg hnotDead, List.drop_append_of_le_length hconsumed, ← hsplit, List.drop_left] at hplace
      have hdraws : Draws At input' (s'.after r) later' todo' false :=
        ⟨hplace, hs'.remaining, hs'.ahead, hs'.inside, hs'.unfinished⟩
      have htail : ∃ written input'' s'' todo'',
          (if r.written ≠ [] then some (.ok (r.written, input', s'.after r))
            else if (s'.after r).unread = [] ∧ (s'.after r).compRemaining = 0 then
              some (.error (xarError .malformed "xar zlib blob ended without stream end"))
            else readZlib a room fuel input' (s'.after r)) = some (.ok (written, input'', s'')) ∧
          todo = written ++ todo'' ∧ (s''.finished = true ∧ todo'' = [] ∨
            written ≠ [] ∧ ∃ later'', Draws At input'' s'' later'' todo'' false ∧
              (s''.unread ++ later'').length ≤ (s.unread ++ later).length) := by
        have hshorter : ((s'.after r).unread ++ later').length ≤
            (s.unread ++ later).length - r.consumed := by
          have := congrArg List.length hrest
          simp only [List.length_append] at this
          simp only [Inflating.after, List.length_append, List.length_drop]
          omega
        by_cases hnone : r.written = []
        · -- without output there is more to read, and something was consumed
          have hmore : later' ≠ [] := by
            intro hnil
            obtain ⟨hwrittenAll, hconsumedAll⟩ := hwhole hnil
            rw [hnone] at hwrittenAll
            have htodo : todo = [] := by
              rcases List.take_eq_nil_iff.mp hwrittenAll.symm with h0 | h0
              · omega
              · exact h0
            refine hstatus (hends.mpr ⟨?_, hnone.trans htodo.symm⟩)
            rw [hconsumedAll (by rw [htodo]; exact Nat.zero_le _), hnil, List.append_nil]
          have hsome : r.consumed ≠ 0 := (hprogress (hunread hmore)).resolve_right (not_not.mpr hnone)
          have hpositive : (s'.after r).compRemaining ≠ 0 := by
            rw [show (s'.after r).compRemaining = later'.length from hs'.remaining]
            exact fun h0 => hmore (List.length_eq_zero_iff.mp h0)
          rw [if_neg (not_not.mpr hnone), if_neg fun hc => hpositive hc.2]
          rw [hnone, List.nil_append] at hsplit
          rw [hsplit] at hdraws
          have hless : ((s'.after r).unread ++ later').length < fuel := by
            have hpositive := List.length_pos_of_ne_nil (hunread hmore)
            have heq := congrArg List.length hrest
            rw [List.length_append] at heq
            omega
          obtain ⟨written, input'', s'', todo'', hread, htodo, hend⟩ := readZlib_ok h hroom hdraws
            hless (fun hf => absurd hf Bool.false_ne_true)
          refine ⟨written, input'', s'', todo'', hread, htodo, hend.imp_right ?_⟩
          rintro ⟨hwritten, later'', hdraws'', hle⟩
          exact ⟨hwritten, later'', hdraws'', hle.trans (hshorter.trans (Nat.sub_le _ _))⟩
        · rw [if_pos hnone]
          exact ⟨_, _, _, todo', rfl, hsplit.symm, .inr ⟨hnone, later', hdraws,
            hshorter.trans (Nat.sub_le _ _)⟩⟩
      have hcases : r.status = .buf ∨ r.status = .ok := by
        rw [hgoes]
        split_ifs
        · exact .inl rfl
        · exact .inr rfl
      rcases hcases with hbuf | hok
      · rw [hbuf]
        exact htail
      · rw [hok]
        exact htail

/-- A stream that has ended returns nothing more. -/
theorem drain_finished (hs : s.finished = true) (hfuel : 0 < fuel) (i calls : ℕ) :
    drain a fuel rooms (calls + 1) i input (some (.zlib s)) = some (.ok []) := by
  have hread : readPayload a fuel input (some (.zlib s)) (rooms i) =
      some (.ok ([], input, some (.zlib s))) := by
    obtain ⟨fuel, rfl⟩ := Nat.exists_eq_add_of_lt hfuel
    rw [readPayload]
    dsimp only
    split_ifs with hroom
    · rfl
    · rw [readZlib, if_pos hs]
      rfl
  rw [drain, hread]

/-- One call of `read_payload`. -/
theorem drain_zlib {i : ℕ} (hroom : 0 < rooms i) {written : List Byte} {input' : Input}
    {s' : Inflating a.zlib.State}
    (h : readZlib a (rooms i) fuel input s = some (.ok (written, input', s'))) :
    drain a fuel rooms (calls + 1) i input (some (.zlib s)) =
      if written = [] then some (.ok [])
      else (drain a fuel rooms calls (i + 1) input' (some (.zlib s'))).map
        fun r => r.map (written ++ ·) := by
  have hread : readPayload a fuel input (some (.zlib s)) (rooms i) =
      some (.ok (written, input', some (.zlib s'))) := by
    rw [readPayload]
    dsimp only
    rw [if_neg (by omega), h]
    rfl
  rw [drain, hread]
  cases written with
  | nil => rfl
  | cons b bytes => rfl

/-- **The payload comes out**, unless the first call has the whole stream and too little room. -/
theorem drain_ok (h : Resumable a.zlib At Dead) (hrooms : ∀ i, 0 < rooms i) :
    ∀ {calls i : ℕ} {input : Input} {s : Inflating a.zlib.State} {later todo : List Byte}
      {fresh : Bool}, Draws At input s later todo fresh → (s.unread ++ later).length < fuel →
    todo.length < calls → (fresh = true → s.unread = [] ∧
      (nextRead a input later.length < later.length ∨ todo.length ≤ rooms i)) →
    drain a fuel rooms calls i input (some (.zlib s)) = some (.ok todo)
  | 0, _, _, _, _, _, _, _, _, hcalls, _ => absurd hcalls (Nat.not_lt_zero _)
  | calls + 1, i, input, s, later, todo, fresh, hs, hfuel, hcalls, hfresh => by
    obtain ⟨written, input', s', todo', hread, rfl, hend⟩ :=
      readZlib_ok h (hrooms i) hs hfuel hfresh
    rw [drain_zlib (hrooms i) hread]
    rcases hend with ⟨hfinished, rfl⟩ | ⟨hwritten, later', hs', hle⟩
    · rw [List.append_nil] at hcalls ⊢
      split_ifs with hwritten
      · rw [hwritten]
      · obtain ⟨n, rfl⟩ : ∃ n, calls = n + 1 :=
          ⟨calls - 1, by have := List.length_pos_of_ne_nil hwritten; omega⟩
        rw [drain_finished hfinished (by omega)]
        simp [Except.map]
    · rw [if_neg hwritten, drain_ok h hrooms hs' (by omega) ?_
        (fun hf => absurd hf Bool.false_ne_true)]
      · rfl
      · have := List.length_pos_of_ne_nil hwritten
        rw [List.length_append] at hcalls
        omega

/-- A decoder that has had its only call fails. -/
theorem drain_dead (h : Resumable a.zlib At Dead) {i : ℕ} (hdead : Dead s.state)
    (hremaining : s.compRemaining = 0) (hs : s.finished = false) (hroom : 0 < rooms i) :
    drain a fuel rooms calls i input (some (.zlib s)) ≠ some (.ok todo) := by
  have hread : ∀ x, readZlib a (rooms i) fuel input s ≠ some (.ok x) := by
    intro x hx
    cases fuel with
    | zero => cases hx
    | succ fuel =>
      rw [readZlib, if_neg (by rw [hs]; exact Bool.false_ne_true), Archive.refill,
        if_neg (fun hc => by rw [hremaining] at hc; exact absurd hc.2 (lt_irrefl _))] at hx
      dsimp only at hx
      rw [h.dead _ _ _ hdead] at hx
      cases hx
  intro hdrain
  cases calls with
  | zero => cases hdrain
  | succ calls =>
    rw [drain, readPayload] at hdrain
    dsimp only at hdrain
    rw [if_neg (by omega)] at hdrain
    cases hr : readZlib a (rooms i) fuel input s with
    | none =>
      rw [hr] at hdrain
      cases hdrain
    | some r =>
      cases r with
      | error e =>
        rw [hr] at hdrain
        cases hdrain
      | ok x => exact hread x hr

/-- **The payload is lost** if the first call has the whole stream and too little room. -/
theorem drain_lost (h : Resumable a.zlib At Dead) (hrooms : ∀ i, 0 < rooms i) {i : ℕ}
    (hs : Draws At input s later todo true) (hunread : s.unread = [])
    (hall : later.length ≤ nextRead a input later.length) (hroom : rooms i < todo.length) :
    drain a fuel rooms calls i input (some (.zlib s)) ≠ some (.ok todo) := by
  obtain ⟨input', s', later', hrefill, hs', -, -, hnext⟩ := refill_draws hs
    "xar heap ended before the compressed blob"
  have hnil : later' = [] := by
    have := hnext hunread
    exact List.length_eq_zero_iff.mp (by omega)
  subst hnil
  have hasked : Asked At s'.state s'.unread [] todo true (rooms i) := ⟨hs'.place, hrooms i⟩
  have hremaining : s'.compRemaining = 0 := hs'.remaining
  have hfinish : (s'.compRemaining == 0) = true := by rw [hremaining]; rfl
  have hwritten := (h.whole true hasked).1
  have hends := h.ends true hasked
  have hgoes := h.goesOn true hasked
  have hnext := h.next true hasked
  obtain ⟨r, hr⟩ : ∃ r, a.zlib.decode s'.state s'.unread (rooms i) true = r := ⟨_, rfl⟩
  rw [hr] at hwritten hends hgoes hnext
  have hlength : r.written.length = rooms i := by rw [hwritten, List.length_take_of_le hroom.le]
  have hstatus : r.status ≠ .streamEnd := by
    intro he
    rw [(hends.mp he).2] at hlength
    omega
  have hbuf : r.status = .buf := by rw [hgoes hstatus, if_pos (.inl ⟨rfl, hlength⟩)]
  have hdead := hnext hstatus
  rw [if_pos ⟨rfl, rfl, hbuf⟩] at hdead
  have hpos := hrooms i
  have hsome : r.written ≠ [] := by
    intro h0
    rw [h0, List.length_nil] at hlength
    omega
  cases fuel with
  | zero =>
    intro hdrain
    cases calls with
    | zero => cases hdrain
    | succ calls =>
      rw [drain, readPayload] at hdrain
      dsimp only at hdrain
      rw [if_neg (by omega)] at hdrain
      cases hdrain
  | succ fuel =>
    have hread : readZlib a (rooms i) (fuel + 1) input s =
        some (.ok (r.written, input', s'.after r)) := by
      rw [readZlib, if_neg (by rw [hs.unfinished]; exact Bool.false_ne_true), hrefill]
      dsimp only
      rw [hfinish, hr, hbuf]
      dsimp only
      rw [if_pos hsome]
    intro hdrain
    cases calls with
    | zero => cases hdrain
    | succ calls =>
      rw [drain_zlib hpos hread, if_neg hsome] at hdrain
      obtain ⟨rest, hrest, hmap⟩ := Option.map_eq_some_iff.mp hdrain
      obtain ⟨more, rfl, -⟩ := map_eq_ok.mp hmap
      exact drain_dead (s := s'.after r) h hdead hremaining hs'.unfinished (hrooms (i + 1)) hrest

end payload

/-! ### Both -/

section both

variable {a : Archive} {At : a.zlib.State → List Byte → List Byte → Bool → Prop}
  {Dead : a.zlib.State → Prop} {z x : List Byte} {input : Input} {rooms : ℕ → ℕ}
  {rounds fuel calls : ℕ}

/-- `inflate_toc` over a whole stream. -/
theorem inflateToc_iff (h : Resumable a.zlib At Dead) (hz : At a.zlib.new z x true)
    (hblob : window a.image input.position (input.position + z.length) = z)
    (hinside : input.position + z.length ≤ a.image.length) (hrounds : z.length + x.length < rounds) :
    inflateToc a.zlib a.image input.position z.length x.length rounds = some (.ok x) ↔
      ∀ t, (Toc.start a.zlib input.position z.length).refill a.image = .ok t →
        Fits a.zlib a.image x t := by
  obtain ⟨t, later, hrefill, hrest, -, hfeeds⟩ := refill_feeds (c := a.zlib) (x := x)
    (t := Toc.start a.zlib input.position z.length) hz rfl hblob hinside rfl
  rw [inflateToc, hrefill]
  refine (tocLoop_iff h hfeeds (by rwa [hrest])).trans ⟨fun hfits t' ht' => ?_, fun hall => ?_⟩
  · cases ht'
    exact hfits
  · exact hall t rfl

/-- `read_payload` over a whole stream. -/
theorem drain_iff (h : Resumable a.zlib At Dead) (hz : At a.zlib.new z x true)
    (hblob : window a.image input.position (input.position + z.length) = z)
    (hinside : input.position + z.length ≤ a.image.length) (hrooms : ∀ i, 0 < rooms i)
    (hfuel : z.length < fuel) (hcalls : x.length < calls) :
    drain a fuel rooms calls 0 input (some (.zlib ⟨z.length, [], a.zlib.new, false⟩)) =
      some (.ok x) ↔ nextRead a input z.length < z.length ∨ x.length ≤ rooms 0 := by
  have hdraws : Draws At input ⟨z.length, [], a.zlib.new, false⟩ z x true :=
    ⟨hz, rfl, hblob, hinside, rfl⟩
  refine ⟨fun hrun => ?_, fun hfresh => drain_ok h hrooms hdraws hfuel hcalls fun _ => ⟨rfl, hfresh⟩⟩
  by_contra hboth
  rw [not_or, not_lt, not_le] at hboth
  exact drain_lost h hrooms hdraws rfl hboth.1 hboth.2 hrun

/-- **Zlib streams come out whole** exactly if, for the table of contents, what is left fits into the
buffer when the last piece of the stream has been read, and, for a payload, the first call does not have
the whole stream or has room for everything. -/
theorem inflated_iff (h : Resumable a.zlib At Dead) (hz : At a.zlib.new z x true)
    (hblob : window a.image input.position (input.position + z.length) = z)
    (hinside : input.position + z.length ≤ a.image.length) (hrooms : ∀ i, 0 < rooms i)
    (hrounds : z.length + x.length < rounds) (hfuel : z.length < fuel) (hcalls : x.length < calls) :
    (inflateToc a.zlib a.image input.position z.length x.length rounds = some (.ok x) ∧
        drain a fuel rooms calls 0 input (some (.zlib ⟨z.length, [], a.zlib.new, false⟩)) =
          some (.ok x)) ↔
      (∀ t, (Toc.start a.zlib input.position z.length).refill a.image = .ok t →
        Fits a.zlib a.image x t) ∧
      (nextRead a input z.length < z.length ∨ x.length ≤ rooms 0) :=
  and_congr (inflateToc_iff h hz hblob hinside hrounds)
    (drain_iff h hz hblob hinside hrooms hfuel hcalls)

end both

/-! ### A stream that is longer than the buffer -/

/-- A decoder of one stream: how much of it is missing, what it has to put out, whether it was never
called, and whether it is finished. -/
structure Script where
  rest : ℕ
  todo : List Byte
  fresh : Bool
  dead : Bool

/-- What is put out: all that fits, once the whole stream is there. -/
def Script.written (s : Script) (input : List Byte) (room : ℕ) : List Byte :=
  if s.rest ≤ input.length then s.todo.take room else []

/-- How a call ends. -/
def Script.status (s : Script) (input : List Byte) (room : ℕ) (finish : Bool) : Status :=
  if s.rest ≤ input.length ∧ s.todo.drop (s.written input room).length = [] then .streamEnd
  else if finish = true ∧ (s.written input room).length = room ∨
    min input.length s.rest = 0 ∧ s.written input room = [] then .buf
  else .ok

/-- The decoder of a stream `z` of `x`, which consumes all that it is given. -/
def scripted (z x : List Byte) : Codec where
  State := Script
  new := ⟨z.length, x, true, false⟩
  decode s input room finish :=
    if s.dead then ⟨0, [], .failed, s⟩
    else ⟨min input.length s.rest, s.written input room, s.status input room finish,
      ⟨s.rest - min input.length s.rest, s.todo.drop (s.written input room).length, false,
        s.fresh && finish && s.status input room finish == .buf⟩⟩
  consumed_le s input room finish := by
    split_ifs
    · exact Nat.zero_le _
    · exact min_le_left _ _
  written_le s input room finish := by
    split_ifs
    · exact Nat.zero_le _
    · unfold Script.written
      split_ifs
      · exact List.length_take_le _ _
      · exact Nat.zero_le _

/-- Where that decoder stands. -/
def Script.At (s : Script) (rest todo : List Byte) (fresh : Bool) : Prop :=
  s = ⟨rest.length, todo, fresh, false⟩

theorem resumable_scripted (z x : List Byte) :
    Resumable (scripted z x) Script.At fun s => s.dead = true := by
  have hcomplete : ∀ input later : List Byte,
      (input ++ later).length ≤ input.length ↔ later.length = 0 := by
    intro input later
    rw [List.length_append]
    omega
  have hprefix : ∀ (s : Script) input room, s.written input room <+: s.todo := by
    intro s input room
    unfold Script.written
    split_ifs
    · exact List.take_prefix _ _
    · exact List.nil_prefix
  have hall : ∀ (s : Script) input room,
      s.todo.drop (s.written input room).length = [] ↔ s.written input room = s.todo := by
    intro s input room
    obtain ⟨more, hmore⟩ := hprefix s input room
    rw [← hmore, List.drop_left]
    exact List.append_right_eq_self.symm.trans eq_comm
  refine ⟨?_, ?_, ?_, ?_, ?_, ?_, ?_⟩
  · rintro s input later todo fresh room finish ⟨rfl, -⟩
    exact hprefix ⟨(input ++ later).length, todo, fresh, false⟩ input room
  · rintro s input todo fresh room finish ⟨rfl, -⟩
    refine ⟨if_pos ((hcomplete input []).mpr rfl), fun _ => ?_⟩
    exact (congrArg (min input.length ·.length) (List.append_nil input)).trans (min_self _)
  · rintro s input later todo fresh room finish ⟨rfl, -⟩ hinput
    have hpos := List.length_pos_of_ne_nil hinput
    have hconsumed : min input.length (input ++ later).length ≠ 0 := by
      rw [List.length_append]
      omega
    exact .inl hconsumed
  · rintro s input later todo fresh room finish ⟨rfl, -⟩
    set s : Script := ⟨(input ++ later).length, todo, fresh, false⟩
    have hstatus : s.status input room finish = .streamEnd ↔
        min input.length s.rest = (input ++ later).length ∧ s.written input room = todo := by
      have hrest : s.rest ≤ input.length ↔ min input.length s.rest = (input ++ later).length := by
        rw [show s.rest = (input ++ later).length from rfl]
        omega
      refine Iff.trans ?_ (and_congr hrest (hall s input room))
      unfold Script.status
      split_ifs with h1 h2
      · exact iff_of_true rfl h1
      · exact iff_of_false nofun h1
      · exact iff_of_false nofun h1
    exact hstatus
  · rintro s input later todo fresh room finish ⟨rfl, -⟩ hstatus
    set s : Script := ⟨(input ++ later).length, todo, fresh, false⟩
    have hne : s.status input room finish ≠ .streamEnd := hstatus
    have hgoes : s.status input room finish =
        if finish = true ∧ (s.written input room).length = room ∨
          min input.length s.rest = 0 ∧ s.written input room = [] then .buf else .ok := by
      unfold Script.status at hne ⊢
      rw [if_neg (fun h => hne (if_pos h))]
    exact hgoes
  · rintro s input later todo fresh room finish ⟨rfl, -⟩ hstatus
    set s : Script := ⟨(input ++ later).length, todo, fresh, false⟩
    have hnext : if fresh = true ∧ finish = true ∧ s.status input room finish = .buf then
          (fresh && finish && s.status input room finish == .buf) = true
        else Script.At ⟨s.rest - min input.length s.rest, s.todo.drop (s.written input room).length,
            false, fresh && finish && s.status input room finish == .buf⟩
          ((input ++ later).drop (min input.length s.rest))
          (todo.drop (s.written input room).length) false := by
      split_ifs with h
      · rw [Bool.and_eq_true, Bool.and_eq_true, beq_iff_eq]
        exact ⟨⟨h.1, h.2.1⟩, h.2.2⟩
      · have hdead : (fresh && finish && s.status input room finish == .buf) = false := by
          rw [Bool.eq_false_iff]
          intro hc
          rw [Bool.and_eq_true, Bool.and_eq_true, beq_iff_eq] at hc
          exact h ⟨hc.1.1, hc.1.2, hc.2⟩
        rw [hdead, Script.At, List.length_drop]
    exact hnext
  · intro s input room finish hdead
    exact congrArg Outcome.status (if_pos hdead)

/-- An archive whose heap is a zlib stream `z` of `x`, read in one piece. -/
def zlibArchive (z x : List Byte) : Archive :=
  ⟨z, 0, [], .unlimited, scripted z x, scripted z x, fun _ => buffer⟩

/-- The zlib stream of one byte. -/
def shortStream : List Byte := [120, 156, 75, 4, 0, 0, 98, 0, 98]

/-- A table of contents and a payload of one byte. -/
theorem inflated_iff_short : (inflateToc (scripted shortStream [97]) shortStream 0 9 1 11 =
        some (.ok [97]) ∧
      drain (zlibArchive shortStream [97]) 10 (fun _ => buffer) 2 0 ⟨0, 0⟩
        (some (.zlib ⟨9, [], ⟨9, [97], true, false⟩, false⟩)) = some (.ok [97])) ↔
    (∀ t, (Toc.start (scripted shortStream [97]) 0 9).refill shortStream = .ok t →
      Fits (scripted shortStream [97]) shortStream [97] t) ∧
    (nextRead (zlibArchive shortStream [97]) ⟨0, 0⟩ 9 < 9 ∨ 1 ≤ buffer) :=
  @inflated_iff (zlibArchive shortStream [97]) _ _ shortStream [97] ⟨0, 0⟩ _ _ _ _
    (resumable_scripted shortStream [97]) rfl rfl (by decide) (fun _ => by decide) (by decide)
    (by decide) (by decide)

/-- The zlib stream of 65537 zeros. -/
def longStream : List Byte :=
  [120, 156, 237, 193, 1, 1, 0, 0, 0, 130, 32, 255, 175, 174, 33, 64, 1] ++ List.replicate 62 0 ++
    [192, 13, 0, 16, 0, 1]

/-- **A stream is not inflated**: neither the table of contents nor a payload comes out, whatever the
number of rounds. -/
theorem inflate_lost : let x : List Byte := List.replicate 65537 0
    Resumable (scripted longStream x) Script.At (fun s => s.dead = true) ∧
    Script.At (scripted longStream x).new longStream x true ∧
    inflateToc (scripted longStream x) longStream 0 longStream.length x.length
      (longStream.length + x.length + 1) ≠ some (.ok x) ∧
    drain (zlibArchive longStream x) (longStream.length + 1) (fun _ => buffer) (x.length + 1) 0 ⟨0, 0⟩
      (some (.zlib ⟨longStream.length, [], (scripted longStream x).new, false⟩)) ≠ some (.ok x) := by
  intro x
  have hlength : x.length = 65537 := List.length_replicate
  have hresumable := resumable_scripted longStream x
  have hblob : window longStream 0 (0 + longStream.length) = longStream := by
    rw [Nat.zero_add, window_all]
  refine ⟨hresumable, rfl, fun hrun => ?_, fun hrun => ?_⟩
  · have hall := (@inflateToc_iff (zlibArchive longStream x) _ _ _ _ ⟨0, 0⟩ _ hresumable rfl
    hblob (by decide) (Nat.lt_succ_self _)).mp hrun
    have := hall _ rfl _ .refl rfl
    rw [hlength] at this
    exact absurd this (by decide)
  · have hroom := (@drain_iff (zlibArchive longStream x) _ _ _ _ ⟨0, 0⟩ _ _ _ hresumable rfl
    hblob (by decide) (fun _ => by decide) (Nat.lt_succ_self _) (Nat.lt_succ_self _)).mp hrun
    rw [hlength] at hroom
    exact absurd hroom (by decide)

end LibarchiveOxide.Xar.Inflation
