import LibarchiveOxide.Codecs.Calls
import LibarchiveOxide.Lib.Chunks

/-! # The AES decoder of 7z

`AesDecoder` undoes cipher block chaining with one partial block on either side. The block cipher is
any permutation of the blocks. -/

namespace LibarchiveOxide.Codecs.Aes

open Core.Failure Core.Protocol Codecs.Calls

/-- `BLOCK`. -/
def BLOCK : ℕ := 16

/-- A block. -/
abbrev Block := { b : List Byte // b.length = BLOCK }

/-- `AesDecoder::malformed`. -/
def malformed (context : String) : ArchiveError := .inFormat "7z" .malformed context

/-- `AesDecoder::integrity`. -/
def integrity (context : String) : ArchiveError := .inFormat "7z" .integrity context

/-- The bytes of two blocks, added bit by bit. -/
def xorBytes (a b : List Byte) : List Byte := List.zipWith (· ^^^ ·) a b

/-- `AesDecoder`: the chained block and the two block buffers, each as far as it is filled. -/
structure AesDecoder where
  chain : List Byte
  inBlock : List Byte := []
  outBlock : List Byte := []
  outPos : ℕ := 0
  remaining : ℕ
  finished : Bool := false
deriving DecidableEq

namespace AesDecoder

/-- `new`, with the key at hand. -/
def new (iv : Block) (outSize : ℕ) : AesDecoder := { chain := iv.1, remaining := outSize }

variable (D : Equiv.Perm Block)

/-- `decrypt_block`. -/
def decryptBlock (d : AesDecoder) : Except ArchiveError AesDecoder :=
  if h : d.inBlock.length = BLOCK then
    let block := xorBytes (D ⟨d.inBlock, h⟩).1 d.chain
    let plainLen := min d.remaining BLOCK
    if (block.drop plainLen).any (· != 0) then
      .error (integrity "wrong password or corrupt AES zero padding")
    else .ok { d with
      chain := d.inBlock
      outBlock := block.take plainLen
      inBlock := []
      outPos := 0
      remaining := d.remaining - plainLen }
  else .error (malformed "AES block framing is invalid")

/-- `finish_at_end`. -/
def finishAtEnd (d : AesDecoder) (consumed : ℕ) (produced : List Byte) :
    Except ArchiveError (CodecStep × AesDecoder) :=
  if d.inBlock ≠ [] then .error (malformed "AES ciphertext ends in a partial block")
  else if d.remaining ≠ 0 then
    .error (malformed "AES ciphertext is shorter than its declared output size")
  else .ok (⟨consumed, produced, .done⟩, { d with finished := true })

/-- The loop of `process`: what is consumed, what is produced, and whether the end was found in it.
Every round that goes on consumes or produces something. -/
def processLoop (last : EndOfInput) :
    ℕ → AesDecoder → List Byte → ℕ → Except ArchiveError (ℕ × List Byte × Bool × AesDecoder)
  | 0, d, _, _ => .ok (0, [], false, d)
  | rounds + 1, d, input, room =>
    if d.outPos < d.outBlock.length then
      let bytes := (d.outBlock.drop d.outPos).take room
      if bytes = [] then .ok (0, [], false, d)
      else do
        let (consumed, produced, ended, d) ← processLoop last rounds
          { d with outPos := d.outPos + bytes.length } input (room - bytes.length)
        return (consumed, bytes ++ produced, ended, d)
    else if d.remaining = 0 then
      if input ≠ [] then .error (malformed "AES ciphertext exceeds its declared output size")
      else .ok (0, [], last = .end, d)
    else
      let bytes := input.take (BLOCK - d.inBlock.length)
      let d := { d with inBlock := d.inBlock ++ bytes }
      if d.inBlock.length = BLOCK then do
        let d ← d.decryptBlock D
        let (consumed, produced, ended, d) ← processLoop last rounds d (input.drop bytes.length) room
        return (bytes.length + consumed, produced, ended, d)
      else .ok (bytes.length, [], false, d)

/-- `Codec::process`. -/
def process : Process AesDecoder := fun d input room last =>
  if d.finished then .ok (⟨0, [], .done⟩, d)
  else do
    let (consumed, produced, ended, d) ← processLoop D last (room + input.length + 1) d input room
    let outputPending := d.outPos < d.outBlock.length
    if ended ∨ last = .end ∧ ¬ outputPending ∧ consumed = input.length then
      d.finishAtEnd consumed produced
    else return (⟨consumed, produced, if outputPending then .needOutput else .needInput⟩, d)

end AesDecoder

end LibarchiveOxide.Codecs.Aes

/-! # What the AES decoder decrypts

`plan` follows the blocks of a ciphertext: what comes out and the failure at which it ends, if any.
A decoder keeps to the plan of its input (`keeps_future`), and the plan is read off the decryption as
a whole (`plan_blocks`). -/

namespace LibarchiveOxide.Codecs.Decryption

open Core.Failure Core.Protocol Lib Lib.Blocks Lib.Driving Lib.Result Codecs.Calls Codecs.Aes

variable (D : Equiv.Perm Block)

/-! ### The decryption -/

variable {b : List Byte}

/-- The blocks behind `previous`, decrypted. -/
def cbc : List Byte → List (List Byte) → List Byte
  | _, [] => []
  | previous, b :: bs =>
    if h : b.length = BLOCK then xorBytes (D ⟨b, h⟩).1 previous ++ cbc b bs else []

/-- **The decryption** of a ciphertext, as far as its blocks are complete. -/
def decryption (iv : Block) (c : List Byte) : List Byte := cbc D iv.1 (blocks BLOCK c)

/-- What comes out of some blocks if `remaining` bytes are declared, and how that ends. -/
def plan : List Byte → ℕ → List (List Byte) → List Byte × Option ArchiveError
  | _, 0, [] => ([], none)
  | _, 0, _ :: _ => ([], some (malformed "AES ciphertext exceeds its declared output size"))
  | _, _ + 1, [] =>
    ([], some (malformed "AES ciphertext is shorter than its declared output size"))
  | previous, n + 1, b :: bs =>
    if h : b.length = BLOCK then
      let block := xorBytes (D ⟨b, h⟩).1 previous
      let plainLen := min (n + 1) BLOCK
      if (block.drop plainLen).any (· != 0) then
        ([], some (integrity "wrong password or corrupt AES zero padding"))
      else
        let rest := plan b (n + 1 - plainLen) bs
        (block.take plainLen ++ rest.1, rest.2)
    else ([], some (malformed "AES ciphertext ends in a partial block"))

/-- The bytes are zero. -/
def Zero (l : List Byte) : Prop := ∀ b ∈ l, b = 0

/-- The ciphertext is the one of `n` bytes: as long as they need it, with zeros behind them. -/
def Declared (previous : List Byte) (n : ℕ) (c : List Byte) : Prop :=
  c.length = BLOCK * ((n + 15) / 16) ∧ Zero ((cbc D previous (blocks BLOCK c)).drop n)

variable {D}

theorem zero_append {a : List Byte} : Zero (a ++ b) ↔ Zero a ∧ Zero b := by
  simp only [Zero, List.mem_append]
  exact ⟨fun h => ⟨fun x hx => h x (.inl hx), fun x hx => h x (.inr hx)⟩,
    fun h x hx => hx.elim (h.1 x) (h.2 x)⟩

theorem any_ne_zero {l : List Byte} : l.any (· != 0) = false ↔ Zero l := by
  simp [Zero]

theorem length_xorBytes {a : List Byte} (ha : a.length = BLOCK) (hb : b.length = BLOCK) :
    (xorBytes a b).length = BLOCK := by
  rw [xorBytes, List.length_zipWith, ha, hb, min_self]

theorem blocks_cons (hb : b.length = BLOCK) (c : List Byte) :
    blocks BLOCK (b ++ c) = b :: blocks BLOCK c :=
  blocks_append (by decide) hb c

theorem plan_cons (hb : b.length = BLOCK) (previous : List Byte) (n : ℕ) (bs : List (List Byte)) :
    plan D previous (n + 1) (b :: bs) =
      if ((xorBytes (D ⟨b, hb⟩).1 previous).drop (min (n + 1) BLOCK)).any (· != 0) then
        ([], some (integrity "wrong password or corrupt AES zero padding"))
      else
        ((xorBytes (D ⟨b, hb⟩).1 previous).take (min (n + 1) BLOCK) ++
          (plan D b (n + 1 - min (n + 1) BLOCK) bs).1,
          (plan D b (n + 1 - min (n + 1) BLOCK) bs).2) := by
  rw [plan, dif_pos hb]

/-- **The plan of a ciphertext**: all declared bytes if it is theirs, and otherwise a failure after a
part of them. -/
theorem plan_blocks (c : List Byte) : ∀ (previous : List Byte) (n : ℕ), previous.length = BLOCK →
    ((plan D previous n (blocks BLOCK c)).2 = none ↔ Declared D previous n c) ∧
      (Declared D previous n c →
        (plan D previous n (blocks BLOCK c)).1 = (cbc D previous (blocks BLOCK c)).take n) ∧
      (plan D previous n (blocks BLOCK c)).1 <+: (cbc D previous (blocks BLOCK c)).take n := by
  induction c using blocks_induction (n := BLOCK) (by decide) with
  | nil =>
    intro previous n _
    rw [blocks_nil (by decide)]
    cases n with
    | zero => simp [plan, Declared, cbc, Zero, blocks_nil (show 0 < BLOCK by decide)]
    | succ n =>
      have hno : ¬ Declared D previous (n + 1) [] := fun h => by
        have := h.1
        rw [List.length_nil, BLOCK] at this
        omega
      exact ⟨⟨nofun, fun h => absurd h hno⟩, fun h => absurd h hno, List.nil_prefix⟩
  | short c hne hlt =>
    intro previous n _
    rw [blocks_of_short hne hlt]
    have hpos := List.length_pos_of_ne_nil hne
    have hno : ¬ Declared D previous n c := fun h => by
      have := h.1
      rw [BLOCK] at this hlt
      omega
    cases n with
    | zero => exact ⟨⟨nofun, fun h => absurd h hno⟩, fun h => absurd h hno, List.nil_prefix⟩
    | succ n =>
      rw [plan, dif_neg hlt.ne]
      exact ⟨⟨nofun, fun h => absurd h hno⟩, fun h => absurd h hno, List.nil_prefix⟩
  | step b c hb ih =>
    intro previous n hprevious
    have hblock := length_xorBytes (D ⟨b, hb⟩).2 hprevious
    have hcbc : cbc D previous (blocks BLOCK (b ++ c)) =
        xorBytes (D ⟨b, hb⟩).1 previous ++ cbc D b (blocks BLOCK c) := by
      rw [blocks_cons hb, cbc, dif_pos hb]
    cases n with
    | zero =>
      have hno : ¬ Declared D previous 0 (b ++ c) := fun h => by
        have := h.1
        rw [List.length_append, hb, BLOCK] at this
        omega
      rw [blocks_cons hb]
      exact ⟨⟨nofun, fun h => absurd h hno⟩, fun h => absurd h hno, List.nil_prefix⟩
    | succ n =>
      rw [Declared, hcbc, blocks_cons hb, plan_cons hb]
      generalize xorBytes (D ⟨b, hb⟩).1 previous = block at hblock ⊢
      have hlen : (b ++ c).length = BLOCK + c.length := by rw [List.length_append, hb]
      have hdrop : (block ++ cbc D b (blocks BLOCK c)).drop (n + 1) = _ := List.drop_append
      have htake : (block ++ cbc D b (blocks BLOCK c)).take (n + 1) = _ := List.take_append
      rw [hblock] at hdrop htake
      have hmin : block.drop (min (n + 1) BLOCK) = block.drop (n + 1) := by
        rw [← hblock, ← List.drop_eq_drop_min]
      have hmin' : block.take (min (n + 1) BLOCK) = block.take (n + 1) := by
        rw [← hblock, ← List.take_eq_take_min]
      have hrest : n + 1 - min (n + 1) BLOCK = n + 1 - BLOCK := by omega
      rw [hmin, hmin', hrest, hdrop, htake, zero_append]
      by_cases hz : (block.drop (n + 1)).any (· != 0) = true
      · rw [if_pos hz]
        have hno : ¬ Zero (block.drop (n + 1)) := fun h => by
          rw [any_ne_zero.mpr h] at hz
          cases hz
        exact ⟨⟨nofun, fun h => absurd h.2.1 hno⟩, fun h => absurd h.2.1 hno, List.nil_prefix⟩
      · rw [if_neg hz]
        have hzero := any_ne_zero.mp (by simpa using hz)
        obtain ⟨hnone, hall, hpart⟩ := ih b (n + 1 - BLOCK) hb
        have hcount : (b ++ c).length = BLOCK * ((n + 1 + 15) / 16) ↔
            c.length = BLOCK * ((n + 1 - BLOCK + 15) / 16) := by
          rw [hlen, BLOCK]
          omega
        have hiff : (b ++ c).length = BLOCK * ((n + 1 + 15) / 16) ∧
            Zero (block.drop (n + 1)) ∧ Zero ((cbc D b (blocks BLOCK c)).drop (n + 1 - BLOCK)) ↔
            Declared D b (n + 1 - BLOCK) c := by
          rw [hcount, Declared]
          exact ⟨fun h => ⟨h.1, h.2.2⟩, fun h => ⟨h.1, hzero, h.2⟩⟩
        rw [hiff]
        exact ⟨hnone, fun h => congrArg _ (hall h), (List.prefix_append_right_inj _).mpr hpart⟩

/-! ### The decoder -/

/-- What is still to come out of a decoder, and how it ends. -/
def future (D : Equiv.Perm Block) (d : AesDecoder) (rest : List Byte) :
    List Byte × Option ArchiveError :=
  if d.finished then ([], none)
  else
    let p := plan D d.chain d.remaining (blocks BLOCK (d.inBlock ++ rest))
    (d.outBlock.drop d.outPos ++ p.1, p.2)

/-- The invariant of a decoder before the rest of its input. -/
structure Inv (d : AesDecoder) (rest : List Byte) : Prop where
  partialBlock : d.inBlock.length < BLOCK
  complete : d.remaining = 0 → d.inBlock = []
  atEnd : d.finished = true → rest = []

/-- Decrypted bytes are waiting. -/
def Waiting (d : AesDecoder) : Prop := d.outPos < d.outBlock.length

variable {d d' : AesDecoder} {input behind : List Byte} {room rounds : ℕ} {last : EndOfInput}

theorem future_of_not_waiting (hfin : d.finished = false) (hw : ¬ Waiting d) (rest : List Byte) :
    future D d rest = plan D d.chain d.remaining (blocks BLOCK (d.inBlock ++ rest)) := by
  unfold Waiting at hw
  rw [future, hfin, List.drop_eq_nil_of_le (by omega)]
  rfl

/-- What comes out first is part of the future. -/
theorem future_drain (hfin : d.finished = false) (room : ℕ) (rest : List Byte) :
    future D d rest =
      ((d.outBlock.drop d.outPos).take room ++
        (future D { d with outPos := d.outPos + ((d.outBlock.drop d.outPos).take room).length }
          rest).1,
      (future D { d with outPos := d.outPos + ((d.outBlock.drop d.outPos).take room).length }
        rest).2) := by
  have hsplit : d.outBlock.drop d.outPos = (d.outBlock.drop d.outPos).take room ++
      d.outBlock.drop (d.outPos + ((d.outBlock.drop d.outPos).take room).length) := by
    rw [← List.drop_drop, List.length_take]
    conv_lhs => rw [← List.take_append_drop room (d.outBlock.drop d.outPos)]
    congr 1
    exact List.drop_eq_drop_min
  simp only [future, hfin, Bool.false_eq_true, if_false]
  rw [← List.append_assoc, ← hsplit]

/-- **A block that is complete** is decrypted as planned. -/
theorem decryptBlock_plan (hb : d.inBlock.length = BLOCK) (hfin : d.finished = false)
    (hremaining : d.remaining ≠ 0) (rest : List Byte) :
    (∃ d', d.decryptBlock D = .ok d' ∧ Inv d' rest ∧ d'.finished = false ∧
      plan D d.chain d.remaining (blocks BLOCK (d.inBlock ++ rest)) = future D d' rest) ∨
    ∃ e, d.decryptBlock D = .error e ∧
      plan D d.chain d.remaining (blocks BLOCK (d.inBlock ++ rest)) = ([], some e) := by
  obtain ⟨n, hn⟩ : ∃ n, d.remaining = n + 1 := ⟨d.remaining - 1, by omega⟩
  rw [blocks_cons hb, hn, plan_cons hb, AesDecoder.decryptBlock, dif_pos hb, hn]
  dsimp only
  by_cases hz : ((xorBytes (D ⟨d.inBlock, hb⟩).1 d.chain).drop (min (n + 1) BLOCK)).any (· != 0) = true
  · rw [if_pos hz, if_pos hz]
    exact .inr ⟨_, rfl, rfl⟩
  · rw [if_neg hz, if_neg hz]
    refine .inl ⟨_, rfl, ⟨Nat.succ_pos _, fun _ => rfl, fun h => ?_⟩, hfin, ?_⟩
    · rw [hfin] at h
      cases h
    · simp only [future, hfin, Bool.false_eq_true, if_false, List.drop_zero, List.nil_append]

/-- What the loop of `process` has done when it stops. -/
structure Loops (D : Equiv.Perm Block) (d : AesDecoder) (input behind : List Byte) (room : ℕ)
    (last : EndOfInput) (consumed : ℕ) (produced : List Byte) (ended : Bool) (d' : AesDecoder) :
    Prop where
  bounds : consumed ≤ input.length ∧ produced.length ≤ room
  inv : Inv d' (input.drop consumed ++ behind)
  going : d'.finished = false
  future_eq : future D d (input ++ behind) =
    (produced ++ (future D d' (input.drop consumed ++ behind)).1,
      (future D d' (input.drop consumed ++ behind)).2)
  ended_only : ended = true → last = .end ∧ ¬ Waiting d'
  full : Waiting d' → produced.length = room
  starved : ¬ Waiting d' → consumed = input.length

theorem loops_of_drain {bytes : List Byte} (hfin : d.finished = false)
    (hbytes : bytes = (d.outBlock.drop d.outPos).take room) {consumed : ℕ} {produced : List Byte}
    {ended : Bool}
    (h : Loops D { d with outPos := d.outPos + bytes.length } input behind (room - bytes.length) last
      consumed produced ended d') :
    Loops D d input behind room last consumed (bytes ++ produced) ended d' := by
  have hle : bytes.length ≤ room := by rw [hbytes, List.length_take]; omega
  obtain ⟨hc, hp⟩ := h.bounds
  refine ⟨⟨hc, ?_⟩, h.inv, h.going, ?_, h.ended_only, fun hw => ?_, h.starved⟩
  · rw [List.length_append]
    omega
  · rw [future_drain hfin room, ← hbytes, h.future_eq, List.append_assoc]
  · have := h.full hw
    rw [List.length_append]
    omega

/-- **The loop of `process`** stops for want of input or of room, or with the failure of the plan. -/
theorem processLoop_loops : ∀ (rounds : ℕ) {d : AesDecoder} {input : List Byte} (room : ℕ),
    room + input.length < rounds → Inv d (input ++ behind) → d.finished = false →
    (last = .end → behind = []) →
    (∃ c p ended d', d.processLoop D last rounds input room = .ok (c, p, ended, d') ∧
      Loops D d input behind room last c p ended d') ∨
    ∃ e, d.processLoop D last rounds input room = .error e ∧
      (future D d (input ++ behind)).2 = some e
  | 0, d, input, room, hlt, _, _, _ => absurd hlt (Nat.not_lt_zero _)
  | rounds + 1, d, input, room, hlt, h, hfin, hlast => by
    rw [AesDecoder.processLoop]
    by_cases hw : d.outPos < d.outBlock.length
    · -- decrypted bytes go out first
      rw [if_pos hw]
      dsimp only
      obtain ⟨bytes, hbytes⟩ : ∃ bytes, bytes = (d.outBlock.drop d.outPos).take room := ⟨_, rfl⟩
      rw [← hbytes]
      by_cases hnil : bytes = []
      · rw [if_pos hnil]
        refine .inl ⟨0, [], false, d, rfl, ⟨Nat.zero_le _, Nat.zero_le _⟩, h, hfin, rfl, nofun,
          fun _ => ?_, fun hno => absurd hw hno⟩
        rw [hbytes, List.take_eq_nil_iff, List.drop_eq_nil_iff] at hnil
        rw [List.length_nil]
        omega
      · rw [if_neg hnil]
        have hpos := List.length_pos_of_ne_nil hnil
        have hle : bytes.length ≤ room := by rw [hbytes, List.length_take]; omega
        have hinv : Inv { d with outPos := d.outPos + bytes.length } (input ++ behind) :=
          ⟨h.partialBlock, h.complete, h.atEnd⟩
        rcases processLoop_loops rounds (room - bytes.length) (by omega) hinv hfin
          hlast with ⟨c, p, ended, d', hrun, hloops⟩ | ⟨e, hrun, he⟩
        · exact .inl ⟨c, bytes ++ p, ended, d', by rw [hrun]; rfl, loops_of_drain hfin hbytes hloops⟩
        · refine .inr ⟨e, by rw [hrun]; rfl, ?_⟩
          rw [future_drain hfin room, ← hbytes]
          exact he
    · rw [if_neg hw]
      have hfuture := future_of_not_waiting (D := D) hfin hw (input ++ behind)
      by_cases hremaining : d.remaining = 0
      · -- everything that was declared has come out
        rw [if_pos hremaining]
        by_cases hinput : input = []
        · rw [if_neg (not_not.mpr hinput)]
          refine .inl ⟨0, [], _, d, rfl, ⟨Nat.zero_le _, Nat.zero_le _⟩, h, hfin, rfl,
            fun he => ⟨of_decide_eq_true he, hw⟩, fun hw' => absurd hw' hw, fun _ => ?_⟩
          rw [hinput, List.length_nil]
        · rw [if_pos hinput]
          refine .inr ⟨_, rfl, ?_⟩
          rw [hfuture, hremaining, h.complete hremaining, List.nil_append]
          cases hb : blocks BLOCK (input ++ behind) with
          | nil =>
            exact absurd hb (blocks_ne_nil (by decide) (by simp [hinput]))
          | cons b bs => rfl
      · rw [if_neg hremaining]
        dsimp only
        obtain ⟨bytes, hbytes⟩ : ∃ bytes, bytes = input.take (BLOCK - d.inBlock.length) := ⟨_, rfl⟩
        rw [← hbytes]
        have hpartial := h.partialBlock
        have hlen : bytes.length = min (BLOCK - d.inBlock.length) input.length := by
          rw [hbytes, List.length_take]
        have hsplit : d.inBlock ++ (input ++ behind) =
            (d.inBlock ++ bytes) ++ (input.drop bytes.length ++ behind) := by
          rw [List.append_assoc, ← List.append_assoc bytes]
          congr 2
          rw [hlen, ← List.drop_eq_drop_min, hbytes, List.take_append_drop]
        rw [hsplit] at hfuture
        by_cases hfull : (d.inBlock ++ bytes).length = BLOCK
        · -- a block is complete
          rw [if_pos hfull]
          rw [List.length_append] at hfull
          rcases decryptBlock_plan (D := D) (d := { d with inBlock := d.inBlock ++ bytes })
            (by rw [List.length_append]; exact hfull) hfin hremaining (input.drop bytes.length ++ behind)
            with ⟨d₁, hdec, hinv, hfin₁, hplan⟩ | ⟨e, hdec, hplan⟩
          · have hle : room + (input.drop bytes.length).length < rounds := by
              rw [List.length_drop]
              omega
            rw [hdec, ok_bind]
            rcases processLoop_loops rounds room hle hinv hfin₁ hlast
              with ⟨c, p, ended, d', hrun, hl⟩ | ⟨e, hrun, he⟩
            · obtain ⟨hc, hp⟩ := hl.bounds
              have hinv' := hl.inv
              have hfut := hl.future_eq
              have hstarved := hl.starved
              rw [List.drop_drop] at hinv' hfut
              rw [List.length_drop] at hc hstarved
              refine .inl ⟨bytes.length + c, p, ended, d', by rw [hrun]; rfl, ⟨by omega, hp⟩, hinv',
                hl.going, ?_, hl.ended_only, hl.full, fun hno => ?_⟩
              · rw [hfuture, hplan]
                exact hfut
              · have := hstarved hno
                omega
            · refine .inr ⟨e, by rw [hrun]; rfl, ?_⟩
              rw [hfuture, hplan]
              exact he
          · refine .inr ⟨e, by rw [hdec]; rfl, ?_⟩
            rw [hfuture, hplan]
        · -- the input ends in the block
          rw [if_neg hfull]
          rw [List.length_append] at hfull
          have hw' : ¬ Waiting { d with inBlock := d.inBlock ++ bytes } := hw
          have hall : bytes.length = input.length := by omega
          refine .inl ⟨bytes.length, [], false, _, rfl, ⟨hall.le, Nat.zero_le _⟩, ⟨?_, fun hr => ?_,
            fun hf => ?_⟩, hfin, ?_, nofun, fun hw'' => absurd hw'' hw', fun _ => hall⟩
          · rw [List.length_append]
            omega
          · exact absurd hr hremaining
          · rw [hfin] at hf
            cases hf
          · rw [hfuture, future_of_not_waiting (d := { d with inBlock := d.inBlock ++ bytes }) hfin hw',
              List.nil_append]

/-- At the end of the input the decoder is done, or fails as planned. -/
theorem finishAtEnd_future (h : Inv d []) (hfin : d.finished = false) (hw : ¬ Waiting d)
    (consumed : ℕ) (produced : List Byte) :
    (∃ d', d.finishAtEnd consumed produced = .ok (⟨consumed, produced, .done⟩, d') ∧ Inv d' [] ∧
      future D d' [] = ([], none) ∧ future D d [] = ([], none)) ∨
    ∃ e, d.finishAtEnd consumed produced = .error e ∧ (future D d []).2 = some e := by
  rw [future_of_not_waiting hfin hw, List.append_nil, AesDecoder.finishAtEnd]
  by_cases hin : d.inBlock = []
  · rw [if_neg (not_not.mpr hin), hin, blocks_nil (by decide)]
    cases hr : d.remaining with
    | zero => exact .inl ⟨_, rfl, ⟨Nat.succ_pos _, fun _ => rfl, fun _ => rfl⟩, rfl, rfl⟩
    | succ n => exact .inr ⟨_, rfl, rfl⟩
  · rw [if_pos hin, blocks_of_short hin h.partialBlock]
    cases hr : d.remaining with
    | zero => exact absurd (h.complete hr) hin
    | succ n =>
      rw [plan, dif_neg h.partialBlock.ne]
      exact .inr ⟨_, rfl, rfl⟩

/-- **A step** goes on with the plan, or fails as planned. -/
theorem process_steps {piece : List Byte} (room : ℕ) (h : Inv d (piece ++ behind))
    (hlast : last = .end → behind = []) :
    (∃ s d', AesDecoder.process D d piece room last = .ok (s, d') ∧
      Steps Inv (future D) d piece behind room last s d') ∨
    ∃ e, AesDecoder.process D d piece room last = .error e ∧
      (future D d (piece ++ behind)).2 = some e := by
  unfold AesDecoder.process
  by_cases hfin : d.finished = true
  · rw [if_pos hfin]
    have hnil := h.atEnd hfin
    have hdone : ∀ rest, future D d rest = ([], none) := fun rest => if_pos hfin
    refine .inl ⟨⟨0, [], .done⟩, d, rfl, ⟨⟨Nat.zero_le _, Nat.zero_le _⟩, h, ?_,
      fun _ => ⟨hnil, hdone _⟩, fun _ hno => absurd rfl hno⟩⟩
    rw [hdone, hdone, List.append_nil]
  · rw [if_neg hfin]
    rcases processLoop_loops (D := D) (room + piece.length + 1) room
      (Nat.lt_succ_self _) h (by simpa using hfin) hlast with ⟨c, p, ended, d₁, hrun, hl⟩ | ⟨e, hrun, he⟩
    · simp only [hrun, ok_bind]
      obtain ⟨hc, hp⟩ := hl.bounds
      by_cases hend : ended = true ∨ last = .end ∧ ¬ d₁.outPos < d₁.outBlock.length ∧ c = piece.length
      · rw [if_pos hend]
        have hw : ¬ Waiting d₁ := hend.elim (fun he => (hl.ended_only he).2) (fun he => he.2.1)
        have hnil : behind = [] := hlast (hend.elim (fun he => (hl.ended_only he).1) (fun he => he.1))
        have hrest : piece.drop c ++ behind = [] := by
          rw [hl.starved hw, List.drop_length, hnil]
          rfl
        have hinv := hl.inv
        have hfuture := hl.future_eq
        rw [hrest] at hinv hfuture
        rcases finishAtEnd_future (D := D) hinv hl.going hw c p with ⟨d', hfinish, hinv', hd', hd⟩ |
          ⟨e, hfinish, he⟩
        · refine .inl ⟨⟨c, p, .done⟩, d', hfinish, ⟨hl.bounds, ?_, ?_, fun _ => ⟨hrest, hd'⟩,
            fun _ hno => absurd rfl hno⟩⟩
          · rw [hrest]
            exact hinv'
          · rw [hrest, hfuture, hd, hd']
        · exact .inr ⟨e, hfinish, by rw [hfuture]; exact he⟩
      · rw [if_neg hend]
        push Not at hend
        have hnot : ∀ {a : Prop} [Decidable a], (if a then CodecStatus.needOutput else .needInput) ≠
            .done := by
          intro a _
          split_ifs <;> nofun
        refine .inl ⟨_, d₁, rfl, ⟨hl.bounds, hl.inv, hl.future_eq, fun hs => absurd hs hnot,
          fun hpos _ hc0 hp0 => ?_⟩⟩
        dsimp only at hc0 hp0
        have hw : ¬ Waiting d₁ := fun hw => by
          have := hl.full hw
          rw [hp0, List.length_nil] at this
          omega
        have hall := hl.starved hw
        refine ⟨List.length_eq_zero_iff.mp (hall.symm.trans hc0), ?_⟩
        cases last with
        | more => rfl
        | «end» => exact absurd hall (hend.2 rfl (not_lt.mp hw))
    · exact .inr ⟨e, by rw [hrun]; rfl, he⟩

/-- **The decoder keeps to its plan.** -/
theorem keeps_future : Keeps (call (AesDecoder.process D)) Inv (future D) :=
  keeps_of_steps process_steps

/-- The ciphertext is the one of `n` bytes. -/
def DeclaredBy (D : Equiv.Perm Block) (iv : Block) (n : ℕ) (c : List Byte) : Prop :=
  c.length = BLOCK * ((n + 15) / 16) ∧ Zero ((decryption D iv c).drop n)

/-- A run is done with the plaintext, or has failed after a part of it. -/
def Ends (plain : List Byte) (r : Run AesDecoder Byte Byte ArchiveError) :
    Option ArchiveError → Prop
  | none => r = .done [] plain
  | some e => ∃ out, out <+: plain ∧ r = .failed e out

/-- **The decoder gives the declared plaintext of its ciphertext**, however it is driven: it is done
with the first `n` bytes of the decryption if and only if the ciphertext is that of `n` bytes, and
otherwise it fails after a part of them, with a failure that does not depend on the calls. -/
theorem decrypts (D : Equiv.Perm Block) (iv : Block) (n : ℕ) (c : List Byte) :
    ∃ failure, (failure = none ↔ DeclaredBy D iv n c) ∧
      ∀ calls, Fair calls → ∃ k, Ends ((decryption D iv c).take n)
        (drive (call (AesDecoder.process D)) calls (.new iv n) c k) failure := by
  have hinv : Inv (.new iv n) c := ⟨Nat.succ_pos _, fun _ => rfl, nofun⟩
  have hfuture : future D (.new iv n) c = plan D iv.1 n (blocks BLOCK c) := rfl
  obtain ⟨hnone, hall, hpart⟩ := plan_blocks (D := D) c iv.1 n iv.2
  refine ⟨(plan D iv.1 n (blocks BLOCK c)).2, hnone, fun calls hfair => ?_⟩
  obtain ⟨k, ⟨out, hd, hout⟩ | ⟨e, out, hd, he, hprefix⟩⟩ := keeps_future.outcome hfair hinv
  · rw [hfuture] at hout
    have hsnd : (plan D iv.1 n (blocks BLOCK c)).2 = none := by rw [hout]
    have hfst : (plan D iv.1 n (blocks BLOCK c)).1 = out := by rw [hout]
    refine ⟨k, ?_⟩
    rw [hd, hsnd, ← hfst, hall (hnone.mp hsnd)]
    rfl
  · rw [hfuture] at he hprefix
    refine ⟨k, ?_⟩
    rw [he]
    exact ⟨out, hprefix.trans hpart, hd⟩

/-- Three bytes and their padding, under the cipher that changes nothing. -/
theorem decrypts_padded : ∃ k, drive (call (AesDecoder.process (Equiv.refl Block)))
    (fun _ => ⟨5, 2, true⟩) (.new ⟨List.replicate 16 1, rfl⟩ 3)
    ([8, 9, 10] ++ List.replicate 13 1) k = .done [] [9, 8, 11] := by
  obtain ⟨failure, hiff, hruns⟩ := decrypts (Equiv.refl Block) ⟨List.replicate 16 1, rfl⟩ 3
    ([8, 9, 10] ++ List.replicate 13 1)
  have hdeclared : DeclaredBy (Equiv.refl Block) ⟨List.replicate 16 1, rfl⟩ 3
      ([8, 9, 10] ++ List.replicate 13 1) := by
    refine ⟨by decide, ?_⟩
    unfold Zero
    decide +kernel
  obtain rfl := hiff.mpr hdeclared
  exact hruns _ (fair_constant (by decide) (by decide) rfl)

end LibarchiveOxide.Codecs.Decryption
