import LibarchiveOxide.Core.Failure
import LibarchiveOxide.Lib.Nesting
import LibarchiveOxide.Lib.Radix
import LibarchiveOxide.Lib.Result
import LibarchiveOxide.Lib.Slice

/-! # The preflight of DER

`preflight_der` walks over the values of a CMS structure before its parser sees them. The constructed
values that are open are a stack of the offsets where they end, the innermost first. -/

namespace LibarchiveOxide.Package.Der

open Core.Failure Core.Budget Lib.Slice

def MAX_CMS_DER_NODES : ℕ := 16384
def MAX_CMS_NESTING : ℕ := 64

/-- `size_of::<usize>()`. -/
def usizeBytes : ℕ := 8

/-- `SignatureFailure`. -/
inductive SignatureFailure where
  | invalidMetadata (detail : String)
  | mismatch (detail : String)
  | unsupported (detail : String)
  | resourceLimit (detail : String)
deriving DecidableEq

/-- The loop of `parse_der_tag` over the octets of a tag number, of which so many may follow. -/
def tagOctets (data : List Byte) : ℕ → ℕ → Except SignatureFailure ℕ
  | 0, cursor =>
    match data[cursor]? with
    | none => .error (.invalidMetadata "CMS DER high-tag-number form is truncated")
    | some _ => .error (.resourceLimit "CMS DER tag number is excessively long")
  | left + 1, cursor =>
    match data[cursor]? with
    | none => .error (.invalidMetadata "CMS DER high-tag-number form is truncated")
    | some octet => if octet &&& 0x80 = 0 then .ok (cursor + 1) else tagOctets data left (cursor + 1)

/-- `parse_der_tag`: the tag, and the cursor behind it. -/
def parseDerTag (data : List Byte) (cursor : ℕ) : Except SignatureFailure (Byte × ℕ) := do
  let tag ← okOr data[cursor]? (.invalidMetadata "CMS DER tag is truncated")
  if tag &&& 0x1f ≠ 0x1f then return (tag, cursor + 1)
  else return (tag, ← tagOctets data usizeBytes (cursor + 1))

/-- One octet of a long length. -/
def lengthOctet (length : ℕ) (octet : Byte) : Except SignatureFailure ℕ :=
  okOr ((checkedMul length 256).bind fun value => checkedAdd value octet.toNat)
    (.resourceLimit "CMS DER content length overflow")

/-- The length in this number of octets. -/
def parseLongLength (data : List Byte) (cursor lengthOctets : ℕ) :
    Except SignatureFailure (ℕ × ℕ) := do
  if lengthOctets = 0 then
    throw (.unsupported "indefinite-length BER CMS is not accepted by the bounded verifier")
  if usizeBytes < lengthOctets then
    throw (.resourceLimit "CMS DER length does not fit in memory address space")
  let stop ← okOr (checkedAdd cursor lengthOctets)
    (.resourceLimit "CMS DER length offset overflow")
  if data.length < stop then
    throw (.invalidMetadata "CMS DER long-form length is truncated")
  let encoded := window data cursor stop
  if encoded.head? = some 0 then
    throw (.invalidMetadata "CMS DER length has a non-canonical leading zero")
  return (← encoded.foldlM lengthOctet 0, stop)

/-- `parse_der_length`: the length, and the cursor behind it. -/
def parseDerLength (data : List Byte) (cursor : ℕ) : Except SignatureFailure (ℕ × ℕ) := do
  let first ← okOr data[cursor]? (.invalidMetadata "CMS DER length is truncated")
  if first &&& 0x80 = 0 then return (first.toNat, cursor + 1)
  else parseLongLength data (cursor + 1) (first &&& 0x7f).toNat

/-- The values that end at the cursor are closed. -/
def popEnded (cursor : ℕ) : List ℕ → List ℕ
  | [] => []
  | e :: ends => if e = cursor then popEnded cursor ends else e :: ends

/-- One round of the loop of `preflight_der`. -/
def nextValue (data : List Byte) (maximumDepth cursor : ℕ) (constructedEnds : List ℕ) (nodes : ℕ) :
    Except SignatureFailure (ℕ × List ℕ × ℕ) := do
  let constructedEnds := popEnded cursor constructedEnds
  if constructedEnds.head?.any (fun containerEnd => decide (containerEnd < cursor)) then
    throw (.invalidMetadata "CMS DER child extends beyond its parent")
  let nodes := nodes + 1
  if MAX_CMS_DER_NODES < nodes then
    throw (.resourceLimit s!"CMS DER node count exceeds the fixed limit {MAX_CMS_DER_NODES}")
  let (tag, cursor) ← parseDerTag data cursor
  let (contentLength, cursor) ← parseDerLength data cursor
  let contentEnd ← okOr (checkedAdd cursor contentLength)
    (.resourceLimit "CMS DER content offset overflow")
  let parentEnd := constructedEnds.headD data.length
  if parentEnd < contentEnd ∨ data.length < contentEnd then
    throw (.invalidMetadata "CMS DER content extends past its enclosing value")
  if tag &&& 0x20 ≠ 0 ∧ contentLength ≠ 0 then
    if maximumDepth ≤ constructedEnds.length then
      throw (.resourceLimit s!"CMS DER nesting exceeds configured limit {maximumDepth}")
    return (cursor, contentEnd :: constructedEnds, nodes)
  else return (contentEnd, constructedEnds, nodes)

/-- The loop of `preflight_der`; `none` while it is still going on as the rounds run out. -/
def preflightLoop (data : List Byte) (maximumDepth : ℕ) :
    ℕ → ℕ → List ℕ → ℕ → Option (Except SignatureFailure (ℕ × List ℕ))
  | 0, cursor, constructedEnds, _ =>
    if cursor < data.length then none else some (.ok (cursor, constructedEnds))
  | rounds + 1, cursor, constructedEnds, nodes =>
    if cursor < data.length then
      match nextValue data maximumDepth cursor constructedEnds nodes with
      | .error e => some (.error e)
      | .ok (cursor, constructedEnds, nodes) =>
        preflightLoop data maximumDepth rounds cursor constructedEnds nodes
    else some (.ok (cursor, constructedEnds))

/-- What is done after the loop. -/
def closeAll (cursor : ℕ) (constructedEnds : List ℕ) : Except SignatureFailure Unit :=
  if popEnded cursor constructedEnds ≠ [] then
    .error (.invalidMetadata "CMS DER constructed value ended prematurely")
  else .ok ()

/-- The most constructed values that may be open at once. -/
def maximumDepth (limits : Limits) : ℕ := min (limits.nesting.getD MAX_CMS_NESTING) MAX_CMS_NESTING

/-- `preflight_der`, with a round of the loop for each byte. -/
def preflightDer (data : List Byte) (limits : Limits) : Option (Except SignatureFailure Unit) :=
  if data = [] then some (.error (.invalidMetadata "CMS signature block is empty"))
  else
    (preflightLoop data (maximumDepth limits) data.length 0 [] 0).map fun r =>
      r.bind fun x => closeAll x.1 x.2

end LibarchiveOxide.Package.Der

/-! # What the preflight of DER accepts

The headers of DER with definite lengths (`Header`), and the proof that the walk with a stack of ends
accepts the sequences of nested values that keep the bounds, and no others (`preflight_accepts`). -/

namespace LibarchiveOxide.Package.DerNesting

open Core.Failure Core.Budget Lib.Result Lib.Slice Lib.Radix Lib.Nesting Package.Der

/-! ### Headers -/

/-- The octets of a tag: one, or the number behind it in at most eight, of which the last is marked. -/
inductive Tag : List Byte → Byte → Prop where
  | low (t : Byte) : t &&& 0x1f ≠ 0x1f → Tag [t] t
  | high (t : Byte) (os : List Byte) (last : Byte) : t &&& 0x1f = 0x1f → os.length < usizeBytes →
      (∀ o ∈ os, o &&& 0x80 ≠ 0) → last &&& 0x80 = 0 → Tag (t :: (os ++ [last])) t

/-- The value of a number with the most significant octet first. -/
def beValue (os : List Byte) : ℕ := horner 256 0 (os.map UInt8.toNat)

/-- The octets of a definite length: one, or how many and at most eight, the first of them not zero. -/
inductive Length : List Byte → ℕ → Prop where
  | short (first : Byte) : first &&& 0x80 = 0 → Length [first] first.toNat
  | long (first : Byte) (os : List Byte) : first &&& 0x80 ≠ 0 →
      (first &&& 0x7f).toNat = os.length → 0 < os.length → os.length ≤ usizeBytes →
      os.head? ≠ some 0 → Length (first :: os) (beValue os)

/-- A header: a tag and a length; it opens a sequence if the tag is constructed. -/
def Header : Headers Byte := fun h len opens =>
  ∃ a t b, Tag a t ∧ Length b len ∧ h = a ++ b ∧ opens = decide (t &&& 0x20 ≠ 0)

variable {data a rest : List Byte} {p q len : ℕ}

theorem getElem?_of_drop {b : Byte} (h : data.drop p = b :: rest) :
    data[p]? = some b ∧ data.drop (p + 1) = rest := by
  constructor
  · rw [← Nat.add_zero p, ← List.getElem?_drop, h]
    rfl
  · rw [← List.drop_drop, h]
    rfl

theorem drop_of_getElem? {b : Byte} (h : data[p]? = some b) : data.drop p = b :: data.drop (p + 1) := by
  obtain ⟨hp, rfl⟩ := List.getElem?_eq_some_iff.mp h
  exact List.drop_eq_getElem_cons hp

theorem le_of_drop (h : data.drop p = a ++ data.drop (p + a.length)) (ha : a ≠ []) :
    p + a.length ≤ data.length := by
  have := congrArg List.length h
  have hpos := List.length_pos_of_ne_nil ha
  rw [List.length_append, List.length_drop, List.length_drop] at this
  omega

/-- The octets of a tag number are read to the marked one. -/
theorem tagOctets_ok : ∀ {left p q : ℕ}, tagOctets data left p = .ok q →
    ∃ os last, os.length < left ∧ (∀ o ∈ os, o &&& 0x80 ≠ 0) ∧ last &&& 0x80 = 0 ∧
      data.drop p = os ++ [last] ++ data.drop q ∧ q = p + (os ++ [last]).length
  | 0, p, q, h => by
    rw [tagOctets] at h
    split at h <;> cases h
  | left + 1, p, q, h => by
    rw [tagOctets] at h
    split at h
    · cases h
    · next octet hoctet =>
      have hdrop := drop_of_getElem? hoctet
      split_ifs at h with hlast
      · cases h
        exact ⟨[], octet, Nat.succ_pos _, by simp, hlast, hdrop, rfl⟩
      · obtain ⟨os, last, hlen, hos, hl, hd, rfl⟩ := tagOctets_ok h
        refine ⟨octet :: os, last, Nat.succ_lt_succ hlen, ?_, hl, ?_, ?_⟩
        · intro o ho
          rcases List.mem_cons.mp ho with rfl | ho
          · exact hlast
          · exact hos o ho
        · rw [hdrop, hd]
          rfl
        · simp only [List.length_append, List.length_cons]
          omega

theorem tagOctets_complete {last : Byte} (hlast : last &&& 0x80 = 0) : ∀ {os : List Byte} {left p : ℕ},
    os.length < left → (∀ o ∈ os, o &&& 0x80 ≠ 0) → data.drop p = os ++ last :: rest →
    tagOctets data left p = .ok (p + (os ++ [last]).length)
  | _, 0, _, h, _, _ => absurd h (Nat.not_lt_zero _)
  | [], left + 1, p, _, _, h => by
    rw [tagOctets, (getElem?_of_drop h).1]
    exact if_pos hlast
  | o :: os, left + 1, p, hlen, hos, h => by
    obtain ⟨ho, hdrop⟩ := getElem?_of_drop h
    obtain ⟨hmark, hos⟩ := List.forall_mem_cons.mp hos
    rw [tagOctets, ho]
    dsimp only
    rw [if_neg hmark, tagOctets_complete hlast (Nat.lt_of_succ_lt_succ hlen) hos hdrop]
    simp only [List.length_append, List.length_cons]
    congr 1
    omega

/-- **`parse_der_tag`** reads the octets of a tag. -/
theorem parseDerTag_ok {t : Byte} (h : parseDerTag data p = .ok (t, q)) :
    ∃ a, Tag a t ∧ data.drop p = a ++ data.drop q ∧ q = p + a.length := by
  obtain ⟨tag, htag, h⟩ := bind_eq_ok.mp h
  have hdrop := drop_of_getElem? (okOr_eq_ok.mp htag)
  split_ifs at h with hlow
  · cases h
    exact ⟨[t], .low t hlow, hdrop, rfl⟩
  · obtain ⟨q', hq, h⟩ := bind_eq_ok.mp h
    cases h
    obtain ⟨os, last, hlen, hos, hlast, hd, rfl⟩ := tagOctets_ok hq
    refine ⟨t :: (os ++ [last]), .high t os last (not_not.mp hlow) hlen hos hlast, ?_, ?_⟩
    · rw [hdrop, hd]
      rfl
    · rw [List.length_cons]
      omega

theorem parseDerTag_complete {t : Byte} (ha : Tag a t) (h : data.drop p = a ++ rest) :
    parseDerTag data p = .ok (t, p + a.length) := by
  cases ha with
  | low t ht =>
    rw [parseDerTag, (getElem?_of_drop h).1, okOr_some, ok_bind, if_pos ht]
    rfl
  | high t os last ht hlen hos hlast =>
    rw [List.cons_append, List.append_assoc] at h
    obtain ⟨htag, hdrop⟩ := getElem?_of_drop h
    rw [parseDerTag, htag, okOr_some, ok_bind, if_neg (not_not.mpr ht),
      tagOctets_complete hlast hlen hos hdrop, List.length_cons]
    simp only [ok_bind, pure_eq_ok]
    congr 2
    omega

/-- Up to eight octets have a value that fits. -/
theorem foldlM_lengthOctet : ∀ {os : List Byte} {acc k : ℕ}, acc < 256 ^ k →
    k + os.length ≤ usizeBytes →
    os.foldlM lengthOctet acc = .ok (horner 256 acc (os.map UInt8.toNat))
  | [], acc, k, _, _ => rfl
  | o :: os, acc, k, hacc, hlen => by
    rw [List.length_cons] at hlen
    have ho := o.toNat_lt
    have hnext : acc * 256 + o.toNat < 256 ^ (k + 1) := by
      rw [pow_succ]
      omega
    have hpow : 256 ^ (k + 1) ≤ 256 ^ usizeBytes := Nat.pow_le_pow_right (by decide) (by omega)
    have hmax : 256 ^ usizeBytes = u64Max + 1 := by decide
    rw [List.foldlM_cons, lengthOctet, checkedMul_of_le (by omega), Option.bind_some,
      checkedAdd_of_le (by omega), okOr_some, ok_bind, foldlM_lengthOctet hnext (by omega)]
    rfl

/-- **`parse_der_length`** reads the octets of a length. -/
theorem parseDerLength_ok (h : parseDerLength data p = .ok (len, q)) :
    ∃ a, Length a len ∧ data.drop p = a ++ data.drop q ∧ q = p + a.length := by
  obtain ⟨first, hfirst, h⟩ := bind_eq_ok.mp h
  have hdrop := drop_of_getElem? (okOr_eq_ok.mp hfirst)
  split_ifs at h with hshort
  · cases h
    exact ⟨[first], .short first hshort, hdrop, rfl⟩
  · obtain ⟨hne, h⟩ := guard_eq_ok.mp h
    obtain ⟨hle, h⟩ := guard_eq_ok.mp h
    obtain ⟨stop, hstop, h⟩ := bind_eq_ok.mp h
    obtain ⟨rfl, -⟩ := checkedAdd_eq_some.mp (okOr_eq_ok.mp hstop)
    obtain ⟨hin, h⟩ := guard_eq_ok.mp h
    obtain ⟨hzero, h⟩ := guard_eq_ok.mp h
    obtain ⟨value, hvalue, h⟩ := bind_eq_ok.mp h
    cases h
    rw [not_lt] at hle hin
    have hlen := length_window_of_le (a := p + 1) hin
    rw [Nat.add_sub_cancel_left] at hlen
    rw [foldlM_lengthOctet (k := 0) (by decide) (by omega)] at hvalue
    cases hvalue
    refine ⟨first :: window data (p + 1) (p + 1 + (first &&& 0x7f).toNat),
      .long first _ hshort hlen.symm (by omega) (by omega) hzero, ?_, ?_⟩
    · rw [hdrop, List.cons_append, window, Nat.add_sub_cancel_left, ← List.drop_drop (j := p + 1),
        List.take_append_drop]
    · rw [List.length_cons, hlen]
      omega

theorem parseDerLength_complete (hsum : p + a.length ≤ u64Max) (ha : Length a len)
    (h : data.drop p = a ++ rest) : parseDerLength data p = .ok (len, p + a.length) := by
  cases ha with
  | short first hshort =>
    rw [parseDerLength, (getElem?_of_drop h).1, okOr_some, ok_bind, if_pos hshort]
    rfl
  | long first os hlong hcount hpos hle hzero =>
    rw [List.cons_append] at h
    rw [List.length_cons] at hsum
    obtain ⟨hfirst, hdrop⟩ := getElem?_of_drop h
    have hlen := congrArg List.length hdrop
    rw [List.length_drop, List.length_append] at hlen
    have hin : p + 1 + os.length ≤ data.length := by omega
    have hwindow : window data (p + 1) (p + 1 + os.length) = os := by
      rw [window, hdrop, Nat.add_sub_cancel_left, List.take_left]
    have hlong' : parseLongLength data (p + 1) os.length = .ok (beValue os, p + 1 + os.length) := by
      rw [parseLongLength, if_neg (by omega), if_neg (by omega), checkedAdd_of_le (by omega), okOr_some,
        ok_bind, if_neg (by omega), hwindow]
      dsimp only
      rw [if_neg hzero, foldlM_lengthOctet (k := 0) (by decide) (by omega)]
      rfl
    rw [parseDerLength, hfirst, okOr_some, ok_bind, if_neg hlong, hcount, hlong', List.length_cons]
    congr 2
    omega

/-- What the two parsers read is a header. -/
theorem headerAt_of_parse {t : Byte} {r : ℕ} (ht : parseDerTag data p = .ok (t, q))
    (hl : parseDerLength data q = .ok (len, r)) :
    HeaderAt Header data p r len (decide (t &&& 0x20 ≠ 0)) ∧ p < r ∧ r ≤ data.length := by
  obtain ⟨a, ha, hda, rfl⟩ := parseDerTag_ok ht
  obtain ⟨b, hb, hdb, rfl⟩ := parseDerLength_ok hl
  have hne : b ≠ [] := by
    cases hb <;> exact List.cons_ne_nil _ _
  have hpos := List.length_pos_of_ne_nil hne
  have hle := le_of_drop hdb hne
  have hwindow : window data p (p + a.length + b.length) = a ++ b := by
    rw [window, hda, hdb, ← List.append_assoc]
    have : p + a.length + b.length - p = (a ++ b).length := by
      rw [List.length_append]
      omega
    rw [this, List.take_left]
  exact ⟨⟨hwindow ▸ ⟨a, t, b, ha, hb, rfl, rfl⟩, by omega⟩, by omega, hle⟩

/-- The two parsers read every header. -/
theorem parse_of_headerAt {opens : Bool} (h : HeaderAt Header data p q len opens)
    (hq : q ≤ data.length) (hsum : q ≤ u64Max) :
    ∃ t r, parseDerTag data p = .ok (t, r) ∧ parseDerLength data r = .ok (len, q) ∧
      opens = decide (t &&& 0x20 ≠ 0) := by
  obtain ⟨⟨a, t, b, ha, hb, hwindow, hopens⟩, hle⟩ := h
  have hlen := congrArg List.length hwindow
  rw [length_window_of_le hq, List.length_append] at hlen
  have hend : p + a.length + b.length = q := by omega
  have hdrop : data.drop p = a ++ (b ++ data.drop q) := by
    have hq : data.drop q = (data.drop p).drop (q - p) := by
      rw [List.drop_drop, Nat.add_sub_cancel' hle]
    rw [← List.append_assoc, ← hwindow, window, hq, List.take_append_drop]
  have hdrop' : data.drop (p + a.length) = b ++ data.drop q := by
    rw [← List.drop_drop, hdrop, List.drop_left]
  refine ⟨t, p + a.length, parseDerTag_complete ha hdrop, ?_, hopens⟩
  rw [parseDerLength_complete (by omega) hb hdrop', hend]

theorem length_le_of_header {h : List Byte} {opens : Bool} (hh : Header h len opens) :
    h ≠ [] ∧ h.length ≤ u64Max := by
  obtain ⟨a, t, b, ha, hb, rfl, -⟩ := hh
  have hbig : 2 * (usizeBytes + 1) ≤ u64Max := by decide
  have ha' : a ≠ [] ∧ a.length ≤ usizeBytes + 1 := by
    cases ha with
    | low => exact ⟨List.cons_ne_nil _ _, (by decide : 1 ≤ usizeBytes + 1)⟩
    | high t os last ht hlen hos hlast =>
      refine ⟨List.cons_ne_nil _ _, ?_⟩
      rw [List.length_cons, List.length_append, List.length_singleton]
      omega
  have hb' : b.length ≤ usizeBytes + 1 := by
    cases hb with
    | short => exact (by decide : 1 ≤ usizeBytes + 1)
    | long => rw [List.length_cons]; omega
  refine ⟨fun hnil => ha'.1 (List.append_eq_nil_iff.mp hnil).1, ?_⟩
  rw [List.length_append]
  omega

/-- Two headers of which one is read before the other are the same. -/
theorem header_unique {h h' t : List Byte} {len' : ℕ} {opens opens' : Bool} (hh : Header h len opens)
    (hh' : Header h' len' opens') (heq : h' = h ++ t) : h = h' ∧ len = len' ∧ opens = opens' := by
  have hat : HeaderAt Header h' 0 h.length len opens := by
    refine ⟨?_, Nat.zero_le _⟩
    rw [window, List.drop_zero, Nat.sub_zero, heq, List.take_left]
    exact hh
  have hat' : HeaderAt Header h' 0 h'.length len' opens' :=
    ⟨by rw [window_all]; exact hh', Nat.zero_le _⟩
  have hle : h.length ≤ h'.length := by rw [heq, List.length_append]; omega
  have hmax := (length_le_of_header hh').2
  obtain ⟨b, r, hb, hlen, rfl⟩ := parse_of_headerAt hat hle (hle.trans hmax)
  obtain ⟨b', r', hb', hlen', rfl⟩ := parse_of_headerAt hat' le_rfl hmax
  obtain ⟨rfl, rfl⟩ := Prod.mk.inj (Except.ok.inj (hb.symm.trans hb'))
  obtain ⟨rfl, hlength⟩ := Prod.mk.inj (Except.ok.inj (hlen.symm.trans hlen'))
  refine ⟨?_, rfl, rfl⟩
  have ht : t = [] := by
    rw [heq, List.length_append] at hlength
    exact List.length_eq_zero_iff.mp (by omega)
  rw [heq, ht, List.append_nil]

theorem prefixed_header : Prefixed Header where
  ne_nil hh := (length_le_of_header hh).1
  unique := by
    intro h h' t t' len len' opens opens' hh hh' heq
    rcases List.append_eq_append_iff.mp heq with ⟨s, hs, -⟩ | ⟨s, hs, -⟩
    · exact header_unique hh hh' hs
    · obtain ⟨h1, h2, h3⟩ := header_unique hh' hh hs
      exact ⟨h1.symm, h2.symm, h3.symm⟩

/-! ### The walk -/

variable {limits : Limits} {depth nodes : ℕ} {ends : List ℕ}

/-- Where the walk may be: the ends of the open values are in order, and not behind the data. -/
structure Walks (data : List Byte) (depth cursor : ℕ) (ends : List ℕ) : Prop where
  inside : cursor ≤ innermost data ends
  ordered : ends.IsChain (· ≤ ·)
  le : ∀ e ∈ ends, e ≤ data.length
  shallow : ends.length ≤ depth

theorem Walks.innermost_le (h : Walks data depth p ends) : innermost data ends ≤ data.length := by
  cases ends with
  | nil => exact le_rfl
  | cons e es => exact h.le e List.mem_cons_self

/-- **Closing** the values that end here. -/
theorem popEnded_walks : ∀ {ends : List ℕ}, Walks data depth p ends →
    Walks data depth p (popEnded p ends) ∧
      (popEnded p ends ≠ [] → p < innermost data (popEnded p ends)) ∧
      ∀ n, Spans Header data depth p ends n ↔ Spans Header data depth p (popEnded p ends) n
  | [], h => ⟨h, fun hne => absurd rfl hne, fun _ => Iff.rfl⟩
  | e :: ends, h => by
    rw [popEnded]
    have hin : p ≤ e := h.inside
    split_ifs with he
    · rw [he] at h ⊢
      have hnext : Walks data depth p ends := by
        refine ⟨?_, h.ordered.tail, fun x hx => h.le x (List.mem_cons_of_mem _ hx), ?_⟩
        · cases ends with
          | nil => exact h.le p List.mem_cons_self
          | cons e' es => exact (List.isChain_cons_cons.mp h.ordered).1
        · have := h.shallow
          rw [List.length_cons] at this
          omega
      obtain ⟨hw, hlt, hs⟩ := popEnded_walks hnext
      exact ⟨hw, hlt, fun n => (spans_pop prefixed_header).trans (hs n)⟩
    · exact ⟨h, fun _ => lt_of_le_of_ne hin (Ne.symm he), fun _ => Iff.rfl⟩

theorem Walks.le_length (h : Walks data depth p ends) : p ≤ data.length :=
  h.inside.trans h.innermost_le

/-- Before the end of the data there is a value to come. -/
theorem Walks.lt_innermost (h : Walks data depth p ends) (hp : p < data.length) :
    p < innermost data (popEnded p ends) := by
  by_cases hnil : popEnded p ends = []
  · rw [hnil]
    exact hp
  · exact (popEnded_walks h).2.1 hnil

/-- **One round** passes or enters the next value, or there are no values that keep the bounds. -/
theorem nextValue_spans (nodes : ℕ) (hdata : data.length ≤ u64Max) (h : Walks data depth p ends)
    (hp : p < data.length) :
    (∃ q ends', nextValue data depth p ends nodes = .ok (q, ends', nodes + 1) ∧
      Walks data depth q ends' ∧ p < q ∧ nodes + 1 ≤ MAX_CMS_DER_NODES ∧
      ∀ n, Spans Header data depth p ends n ↔ ∃ k, n = k + 1 ∧ Spans Header data depth q ends' k) ∨
    ∃ e, nextValue data depth p ends nodes = .error e ∧
      ∀ n, Spans Header data depth p ends n → MAX_CMS_DER_NODES < nodes + n := by
  have hlt := h.lt_innermost hp
  obtain ⟨hw, -, hspans⟩ := popEnded_walks h
  unfold nextValue
  generalize popEnded p ends = open' at hlt hw hspans
  have hstop := hw.innermost_le
  simp only [hspans]
  have hchild : ¬ (open'.head?.any fun e => decide (e < p)) = true := by
    cases open' with
    | nil => nofun
    | cons e es =>
      have : p < e := hlt
      simp only [List.head?_cons, Option.any_some, decide_eq_true_eq]
      omega
  rw [if_neg hchild]
  -- every sequence that begins here has a first value, with a header that the parsers read
  have hfirst : ∀ {n}, Spans Header data depth p open' n → ∃ t r len q,
      parseDerTag data p = .ok (t, r) ∧ parseDerLength data r = .ok (len, q) ∧
        q + len ≤ innermost data open' := fun {n} hs => by
    obtain ⟨q, len, opens, hat, hin⟩ := hs.header hlt hstop
    obtain ⟨t, r, ht, hl, -⟩ := parse_of_headerAt hat (by omega) (by omega)
    exact ⟨t, r, len, q, ht, hl, hin⟩
  by_cases hcount : MAX_CMS_DER_NODES < nodes + 1
  · rw [if_pos hcount]
    refine .inr ⟨_, rfl, fun n hs => ?_⟩
    have hpos : n ≠ 0 := by
      rintro rfl
      obtain ⟨m, k, hmk, hv, -⟩ := spans_iff.mp hs
      obtain ⟨rfl, rfl⟩ : m = 0 ∧ k = 0 := by omega
      have := congrArg List.length (hv.eq_nil rfl)
      rw [length_window_of_le hstop, List.length_nil] at this
      omega
    omega
  · rw [if_neg hcount]
    cases ht : parseDerTag data p with
    | error e =>
      refine .inr ⟨e, rfl, fun n hs => ?_⟩
      obtain ⟨t, r, len, q, ht', -⟩ := hfirst hs
      rw [ht] at ht'
      cases ht'
    | ok x =>
      obtain ⟨t, r⟩ := x
      simp only [ok_bind]
      cases hl : parseDerLength data r with
      | error e =>
        refine .inr ⟨e, rfl, fun n hs => ?_⟩
        obtain ⟨t', r', len, q, ht', hl', -⟩ := hfirst hs
        rw [ht] at ht'
        cases ht'
        rw [hl] at hl'
        cases hl'
      | ok y =>
        obtain ⟨len, q⟩ := y
        obtain ⟨hat, hpq, hq⟩ := headerAt_of_parse ht hl
        have hbeyond : innermost data open' < q + len → ∀ n, ¬ Spans Header data depth p open' n := by
          intro hgt n hs
          obtain ⟨t', r', len', q', ht', hl', hin⟩ := hfirst hs
          rw [ht] at ht'
          cases ht'
          rw [hl] at hl'
          cases hl'
          omega
        simp only [ok_bind]
        by_cases hsum : q + len ≤ u64Max
        · rw [checkedAdd_of_le hsum, okOr_some, ok_bind]
          by_cases hin : innermost data open' < q + len ∨ data.length < q + len
          · have hin' : open'.headD data.length < q + len ∨ data.length < q + len := hin
            rw [if_pos hin']
            exact .inr ⟨_, rfl, fun n hs => absurd hs (hbeyond (by omega) n)⟩
          · have hin' : ¬ (open'.headD data.length < q + len ∨ data.length < q + len) := hin
            rw [if_neg hin']
            push Not at hin
            obtain ⟨hin, hle⟩ := hin
            by_cases hopens : t &&& 0x20 ≠ 0 ∧ len ≠ 0
            · rw [if_pos hopens]
              rw [decide_eq_true hopens.1] at hat
              have hnode := fun n => spans_node (d := depth) (n := n) prefixed_header hat hopens.2 hin hle
              by_cases hdeep : depth ≤ open'.length
              · rw [if_pos hdeep]
                refine .inr ⟨_, rfl, fun n hs => ?_⟩
                have := ((hnode n).mp hs).1
                omega
              · rw [if_neg hdeep]
                refine .inl ⟨q, (q + len) :: open', rfl, ⟨Nat.le_add_right _ _, ?_, ?_, ?_⟩, hpq,
                  by omega, fun n => ?_⟩
                · cases open' with
                  | nil => exact List.isChain_singleton _
                  | cons e es => exact List.isChain_cons_cons.mpr ⟨hin, hw.ordered⟩
                · intro e he
                  rcases List.mem_cons.mp he with rfl | he
                  · exact hle
                  · exact hw.le e he
                · rw [List.length_cons]
                  omega
                · rw [hnode]
                  exact ⟨fun h => h.2, fun h => ⟨by omega, h⟩⟩
            · rw [if_neg hopens]
              have hleaf : decide (t &&& 0x20 ≠ 0) = false ∨ len = 0 := by
                rw [decide_eq_false_iff_not]
                tauto
              exact .inl ⟨q + len, open', rfl, ⟨hin, hw.ordered, hw.le, hw.shallow⟩, by omega,
                by omega, fun n => spans_leaf prefixed_header hat hleaf hin hle⟩
        · have hnone : checkedAdd q len = none := if_neg hsum
          rw [hnone]
          exact .inr ⟨_, rfl, fun n hs => absurd hs (hbeyond (by omega) n)⟩

/-- At the end of the data all values are closed. -/
theorem popEnded_end (h : Walks data depth data.length ends) : popEnded data.length ends = [] := by
  obtain ⟨hw, hlt, -⟩ := popEnded_walks h
  by_contra hne
  have h1 := hlt hne
  have h2 := hw.innermost_le
  omega

/-- **The loop** comes to an end, and to a good one if and only if values are there that keep the
bounds. -/
theorem preflightLoop_spans (hdata : data.length ≤ u64Max) : ∀ {rounds p nodes : ℕ} {ends : List ℕ},
    Walks data depth p ends → data.length - p ≤ rounds → nodes ≤ MAX_CMS_DER_NODES →
    ∃ r, preflightLoop data depth rounds p ends nodes = some r ∧
      ((r.bind fun x => closeAll x.1 x.2) = .ok () ↔
        ∃ n, nodes + n ≤ MAX_CMS_DER_NODES ∧ Spans Header data depth p ends n) := by
  intro rounds
  have hend : ∀ {p nodes : ℕ} {ends : List ℕ}, Walks data depth p ends → ¬ p < data.length →
      nodes ≤ MAX_CMS_DER_NODES →
      (closeAll p ends = .ok () ↔
        ∃ n, nodes + n ≤ MAX_CMS_DER_NODES ∧ Spans Header data depth p ends n) := by
    intro p nodes ends hw hp hnodes
    have hle := hw.le_length
    obtain rfl : p = data.length := by omega
    have hspans := (popEnded_walks hw).2.2
    rw [popEnded_end hw] at hspans
    refine ⟨fun _ => ⟨0, hnodes, (hspans 0).mpr ((spans_end prefixed_header).mpr rfl)⟩, fun _ => ?_⟩
    exact if_neg (not_not.mpr (popEnded_end hw))
  induction rounds with
  | zero =>
    intro p nodes ends hw hle hnodes
    have hp : ¬ p < data.length := by omega
    exact ⟨_, if_neg hp, hend hw hp hnodes⟩
  | succ rounds ih =>
    intro p nodes ends hw hle hnodes
    rw [preflightLoop]
    by_cases hp : p < data.length
    · rw [if_pos hp]
      rcases nextValue_spans nodes hdata hw hp with
        ⟨q, ends', hnext, hw', hpq, hcount, hspans⟩ | ⟨e, hnext, hno⟩
      · rw [hnext]
        obtain ⟨r, hr, hiff⟩ := ih hw' (by omega) hcount
        refine ⟨r, hr, hiff.trans ?_⟩
        constructor
        · rintro ⟨n, hn, hs⟩
          exact ⟨n + 1, by omega, (hspans _).mpr ⟨n, rfl, hs⟩⟩
        · rintro ⟨n, hn, hs⟩
          obtain ⟨k, rfl, hk⟩ := (hspans n).mp hs
          exact ⟨k, by omega, hk⟩
      · rw [hnext]
        refine ⟨_, rfl, nofun, ?_⟩
        rintro ⟨n, hn, hs⟩
        have := hno n hs
        omega
    · rw [if_neg hp]
      exact ⟨_, rfl, hend hw hp hnodes⟩

/-- **The preflight accepts the bounded nesting of definite lengths**, and nothing else. -/
theorem preflight_accepts (hne : data ≠ []) (hdata : data.length ≤ u64Max) (limits : Limits) :
    ∃ r, preflightDer data limits = some r ∧
      (r = .ok () ↔ ∃ n ≤ MAX_CMS_DER_NODES, Values Header (maximumDepth limits) n data) := by
  have hw : Walks data (maximumDepth limits) 0 [] :=
    ⟨Nat.zero_le _, List.isChain_nil, nofun, Nat.zero_le _⟩
  obtain ⟨r, hr, hiff⟩ := preflightLoop_spans hdata hw (Nat.sub_le _ _) (Nat.zero_le _)
  refine ⟨r.bind fun x => closeAll x.1 x.2, ?_, hiff.trans ?_⟩
  · rw [preflightDer, if_neg hne, hr]
    rfl
  · simp only [Nat.zero_add, Spans, window_all]

/-- A sequence of an integer and an empty sequence. -/
theorem preflight_accepts_sequence :
    ∃ r, preflightDer [0x30, 0x05, 0x02, 0x01, 0x07, 0x30, 0x00] .safe = some r ∧
      (r = .ok () ↔ ∃ n ≤ MAX_CMS_DER_NODES, Values Header (maximumDepth .safe) n
        [0x30, 0x05, 0x02, 0x01, 0x07, 0x30, 0x00]) :=
  preflight_accepts (by decide) (by decide) .safe

end LibarchiveOxide.Package.DerNesting
