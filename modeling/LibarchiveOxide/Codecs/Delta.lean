import LibarchiveOxide.Codecs.Calls
import Mathlib.Data.List.GetD

/-! # The delta decoder

A byte of the output is the coded byte and the byte that came out some distance before it. The decoder
keeps the last 256 bytes of the output in a ring that its position walks down (`Holds`). -/

namespace LibarchiveOxide.Codecs.Delta

open Core.Failure Core.Protocol Lib Lib.Driving Codecs.Calls

/-- `MAX_DISTANCE`. -/
def MAX_DISTANCE : ℕ := 256

/-- `DeltaDecoder`. -/
structure DeltaDecoder where
  distance : ℕ
  history : Vector Byte MAX_DISTANCE
  pos : UInt8

namespace DeltaDecoder

/-- `DeltaDecoder::new`. -/
def new (distance : ℕ) : DeltaDecoder where
  distance := max 1 (min distance MAX_DISTANCE)
  history := Vector.replicate MAX_DISTANCE 0
  pos := 0

/-- The byte of the ring that an index is folded to. -/
def remembered (c : DeltaDecoder) (i : ℕ) : Byte :=
  c.history.get ⟨i % MAX_DISTANCE, Nat.mod_lt _ (by decide)⟩

/-- A coded byte: the byte that comes out, and the decoder after it. -/
def decodeByte (c : DeltaDecoder) (coded : Byte) : Byte × DeltaDecoder :=
  let value := coded + c.remembered (c.distance + c.pos.toNat)
  (value, { c with
    history := c.history.set c.pos.toNat value c.pos.toNat_lt
    pos := c.pos - 1 })

/-- The loop of `process`. -/
def decodeLoop : DeltaDecoder → List Byte → List Byte × DeltaDecoder
  | c, [] => ([], c)
  | c, coded :: rest =>
    let (value, c) := c.decodeByte coded
    let (values, c) := c.decodeLoop rest
    (value :: values, c)

/-- `DeltaDecoder::process`. -/
def process (c : DeltaDecoder) (input : List Byte) (outputLen : ℕ) (eoi : EndOfInput) :
    Except ArchiveError (CodecStep × DeltaDecoder) :=
  let count := min input.length outputLen
  if 0 < count then
    let (values, c) := c.decodeLoop (input.take count)
    .ok (⟨count, values, .needInput⟩, c)
  else
    .ok (⟨0, [], match eoi with | .end => .done | .more => .needInput⟩, c)

end DeltaDecoder

open DeltaDecoder

/-! ### The recurrence -/

/-- The byte some distance before the end of the output, zero before its beginning. -/
def back (out : List Byte) (d : ℕ) : Byte := if d ≤ out.length then out.getD (out.length - d) 0 else 0

/-- **What a delta filter of a distance decodes**: each byte is the coded one and the one that came out
the distance before it. -/
structure Decodes (d : ℕ) (x y : List Byte) : Prop where
  length_eq : y.length = x.length
  byte : ∀ n < x.length, y.getD n 0 = x.getD n 0 + if d ≤ n then y.getD (n - d) 0 else 0

variable {d : ℕ} {x y : List Byte}

theorem decodes_nil : Decodes d [] [] := ⟨rfl, fun _ h => nomatch h⟩

/-- One more byte. -/
theorem Decodes.snoc (h : Decodes d x y) (hd : 0 < d) (coded : Byte) :
    Decodes d (x ++ [coded]) (y ++ [coded + back y d]) := by
  have hlen := h.length_eq
  have hold : ∀ n < x.length, (y ++ [coded + back y d]).getD n 0 = y.getD n 0 := fun n hn =>
    List.getD_append _ _ _ _ (by omega)
  constructor
  · rw [List.length_append, List.length_append, hlen]
    rfl
  · intro n hn
    rw [List.length_append, List.length_singleton] at hn
    rcases Nat.lt_succ_iff_lt_or_eq.mp hn with hn | rfl
    · rw [hold n hn, h.byte n hn, List.getD_append _ _ _ _ hn]
      by_cases hdn : d ≤ n
      · rw [if_pos hdn, if_pos hdn, hold _ (by omega)]
      · rw [if_neg hdn, if_neg hdn]
    · have hlast : (y ++ [coded + back y d]).getD x.length 0 = coded + back y d := by
        rw [← hlen]
        simp
      have hcoded : (x ++ [coded]).getD x.length 0 = coded := by simp
      rw [hlast, hcoded]
      unfold back
      rw [hlen]
      by_cases hdn : d ≤ x.length
      · rw [if_pos hdn, if_pos hdn]
        have hbefore := hold (x.length - d) (by omega)
        unfold back at hbefore
        rw [hlen, if_pos hdn] at hbefore
        rw [hbefore]
      · rw [if_neg hdn, if_neg hdn]

/-! ### The ring -/

/-- The ring holds the end of the output, the last byte behind the position. -/
def Holds (c : DeltaDecoder) (out : List Byte) : Prop :=
  ∀ j, 0 < j → j ≤ MAX_DISTANCE → c.remembered (j + c.pos.toNat) = back out j

variable {c c' : DeltaDecoder} {out : List Byte}

theorem holds_new (d : ℕ) : Holds (new d) [] := by
  intro j hj _
  unfold back
  rw [if_neg (by rw [List.length_nil]; omega)]
  unfold remembered new
  exact Vector.getElem_replicate _

/-- **A byte that comes out** is the coded one and the one the distance before it, and the ring has it. -/
theorem Holds.decodeByte (h : Holds c out) (hd : 0 < c.distance) (hmax : c.distance ≤ MAX_DISTANCE)
    (coded : Byte) :
    (c.decodeByte coded).1 = coded + back out c.distance ∧
      Holds (c.decodeByte coded).2 (out ++ [coded + back out c.distance]) := by
  have hvalue : (c.decodeByte coded).1 = coded + back out c.distance := by
    rw [← h c.distance hd hmax]
    rfl
  refine ⟨hvalue, fun j hj hjmax => ?_⟩
  have hpos := c.pos.toNat_lt
  have hnext : (c.pos - 1).toNat = (c.pos.toNat + 255) % 256 := by
    rw [UInt8.toNat_sub]
    have hone : (1 : UInt8).toNat = 1 := rfl
    rw [hone]
    omega
  have hset : (c.decodeByte coded).2.remembered (j + (c.pos - 1).toNat) =
      if j = 1 then coded + back out c.distance else c.remembered (j - 1 + c.pos.toNat) := by
    have hindex : (j + (c.pos - 1).toNat) % MAX_DISTANCE = (j - 1 + c.pos.toNat) % MAX_DISTANCE := by
      rw [hnext]
      unfold MAX_DISTANCE
      omega
    have hsame : c.pos.toNat = (j - 1 + c.pos.toNat) % MAX_DISTANCE ↔ j = 1 := by
      unfold MAX_DISTANCE at hjmax ⊢
      omega
    unfold remembered DeltaDecoder.decodeByte
    simp only [hindex]
    rw [h c.distance hd hmax]
    exact (Vector.getElem_set _ _).trans (if_congr hsame rfl rfl)
  change (c.decodeByte coded).2.remembered (j + (c.pos - 1).toNat) = _
  rw [hset]
  unfold back
  by_cases hfirst : j = 1
  · rw [if_pos hfirst, hfirst]
    simp
  · rw [if_neg hfirst, h (j - 1) (by omega) (by omega), List.length_append, List.length_singleton]
    unfold back
    by_cases hj' : j ≤ out.length + 1
    · rw [if_pos (by omega), if_pos hj', List.getD_append _ _ _ _ (by omega)]
      congr 1
      omega
    · rw [if_neg (by omega), if_neg hj']

/-- **The loop decodes**, whatever has come out before. -/
theorem decodes_loop : ∀ {c : DeltaDecoder} {seen out : List Byte} (rest : List Byte),
    0 < c.distance → c.distance ≤ MAX_DISTANCE → Holds c out → Decodes c.distance seen out →
    Decodes c.distance (seen ++ rest) (out ++ (c.decodeLoop rest).1)
  | c, seen, out, [], _, _, _, h => by
    rw [decodeLoop, List.append_nil, List.append_nil]
    exact h
  | c, seen, out, coded :: rest, hd, hmax, hholds, h => by
    obtain ⟨hvalue, hnext⟩ := hholds.decodeByte hd hmax coded
    have ih := decodes_loop (c := (c.decodeByte coded).2) rest hd hmax hnext (h.snoc hd coded)
    rw [decodeLoop]
    dsimp only
    rw [hvalue, List.append_cons out, List.append_cons seen]
    exact ih

/-! ### Pieces -/

theorem decodeLoop_append : ∀ (c : DeltaDecoder) (xs ys : List Byte), c.decodeLoop (xs ++ ys) =
    ((c.decodeLoop xs).1 ++ ((c.decodeLoop xs).2.decodeLoop ys).1,
      ((c.decodeLoop xs).2.decodeLoop ys).2)
  | _, [], _ => rfl
  | c, x :: xs, ys => by
    rw [List.cons_append, decodeLoop, decodeLoop]
    dsimp only
    rw [decodeLoop_append]
    rfl

theorem length_decodeLoop : ∀ (c : DeltaDecoder) (xs : List Byte), (c.decodeLoop xs).1.length = xs.length
  | _, [] => rfl
  | c, x :: xs => by
    rw [decodeLoop]
    dsimp only
    rw [List.length_cons, length_decodeLoop, List.length_cons]

/-- What is still to come out. -/
def future (c : DeltaDecoder) (rest : List Byte) : List Byte × Option ArchiveError :=
  ((c.decodeLoop rest).1, none)

/-- `process`, which is never called without room. -/
def processRoom : Process DeltaDecoder := fun c input room eoi =>
  if room = 0 then .ok (⟨0, [], .needInput⟩, c) else c.process input room eoi

/-- **A step decodes** what it takes. -/
theorem process_steps {piece behind : List Byte} {last : EndOfInput} (room : ℕ)
    (hlast : last = .end → behind = []) : ∃ s c', processRoom c piece room last = .ok (s, c') ∧
      Steps (fun _ _ => True) future c piece behind room last s c' := by
  unfold processRoom
  by_cases hroom : room = 0
  · rw [if_pos hroom]
    exact ⟨_, _, rfl, ⟨Nat.zero_le _, Nat.zero_le _⟩, trivial, rfl, nofun, fun hpos => by omega⟩
  · rw [if_neg hroom]
    unfold process
    by_cases hcount : 0 < min piece.length room
    · dsimp only
      rw [if_pos hcount]
      refine ⟨_, _, rfl, ⟨Nat.min_le_left _ _, ?_⟩, trivial, ?_, nofun, fun _ _ hc => ?_⟩
      · rw [length_decodeLoop, List.length_take]
        omega
      · unfold future
        conv_lhs => rw [← List.take_append_drop (min piece.length room) piece, List.append_assoc]
        rw [decodeLoop_append]
      · dsimp only at hc
        omega
    · dsimp only
      rw [if_neg hcount]
      have hpiece : piece = [] := List.length_eq_zero_iff.mp (by omega)
      subst hpiece
      refine ⟨_, _, rfl, ⟨Nat.zero_le _, Nat.zero_le _⟩, trivial, rfl, fun hdone => ?_,
        fun _ hno _ _ => ⟨rfl, ?_⟩⟩
      · cases last with
        | more => cases hdone
        | «end» => exact ⟨hlast rfl, rfl⟩
      · cases last with
        | more => rfl
        | «end» => exact absurd rfl hno

theorem keeps_future : Keeps (call processRoom) (fun _ _ => True) future :=
  keeps_of_steps fun room _ hlast => .inl (process_steps room hlast)

/-! ### Runs -/

/-- Where a run stands that comes to an output. -/
def Towards (y : List Byte) : Run DeltaDecoder Byte Byte ArchiveError → Prop
  | .running _ _ out => out <+: y
  | .done rest out => rest = [] ∧ out = y
  | .failed _ _ => False

/-- **The decoder computes its recurrence**: for every distance from 1 to 256, every input and all
calls with some room, no call fails, a run that is done has the output, and a fair run gets there. -/
theorem delta_decodes (d : ℕ) (h1 : 1 ≤ d) (hmax : d ≤ 256) (x : List Byte) (calls : ℕ → Call)
    (hroom : ∀ n, 0 < (calls n).room) : ∃ y, Decodes d x y ∧
      (∀ n, Towards y (drive (call DeltaDecoder.process) calls (new d) x n)) ∧
      (Fair calls → ∃ n, drive (call DeltaDecoder.process) calls (new d) x n = .done [] y) := by
  have hdistance : (new d).distance = d := by
    unfold new MAX_DISTANCE
    dsimp only
    omega
  have hcalls : ∀ n (c : DeltaDecoder) piece last, call DeltaDecoder.process c piece (calls n).room last =
      call processRoom c piece (calls n).room last := by
    intro n c piece last
    unfold call processRoom
    rw [if_neg (Nat.pos_iff_ne_zero.mp (hroom n))]
  refine ⟨((new d).decodeLoop x).1, ?_, fun n => ?_, fun hfair => ?_⟩
  · have hloop := decodes_loop x (by rw [hdistance]; exact h1) (by rw [hdistance]; exact hmax)
      (holds_new d) (@decodes_nil (new d).distance)
    rwa [hdistance, List.nil_append, List.nil_append] at hloop
  · rw [drive_congr _ hcalls]
    have hacc : Accounted (fun _ _ => True) future (future (new d) x)
        (drive (call processRoom) calls (new d) x n) := keeps_future.drive trivial calls n
    cases hrun : drive (call processRoom) calls (new d) x n with
    | running c rest out =>
      rw [hrun] at hacc
      exact ⟨_, (congrArg Prod.fst hacc.2).symm⟩
    | done rest out =>
      rw [hrun] at hacc
      exact ⟨hacc.1, (congrArg Prod.fst hacc.2).symm⟩
    | failed e out =>
      rw [hrun] at hacc
      cases hacc.1
  · have houtcome : ∃ n,
        (∃ out, drive (call processRoom) calls (new d) x n = .done [] out ∧
          future (new d) x = (out, none)) ∨
        ∃ e out, drive (call processRoom) calls (new d) x n = .failed e out ∧
          (future (new d) x).2 = some e ∧ out <+: (future (new d) x).1 :=
      keeps_future.outcome hfair trivial
    obtain ⟨n, ⟨out, hrun, hout⟩ | ⟨e, out, -, he, -⟩⟩ := houtcome
    · refine ⟨n, ?_⟩
      rw [drive_congr _ hcalls, hrun]
      exact congrArg (Run.done []) (congrArg Prod.fst hout).symm
    · cases he

/-- Three bytes at the distance one, all offered at once. -/
theorem delta_decodes_three : ∃ y, Decodes 1 [1, 2, 250] y ∧
    (∀ n, Towards y (drive (call DeltaDecoder.process) (fun _ => ⟨8, 8, true⟩) (new 1) [1, 2, 250] n)) ∧
    (Fair (fun _ => ⟨8, 8, true⟩) →
      ∃ n, drive (call DeltaDecoder.process) (fun _ => ⟨8, 8, true⟩) (new 1) [1, 2, 250] n = .done [] y) :=
  delta_decodes 1 le_rfl (by decide) [1, 2, 250] (fun _ => ⟨8, 8, true⟩) fun _ => by decide

end LibarchiveOxide.Codecs.Delta
