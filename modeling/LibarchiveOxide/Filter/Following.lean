import LibarchiveOxide.Filter.Worker
import LibarchiveOxide.Filter.Xz
import LibarchiveOxide.Lib.Result

/-! # How the validator follows a well-formed file

One lemma for each section of the envelope says where the validator stands behind it. A limit may make
it refuse a section (`Passes`); without a limit it never does. -/

namespace LibarchiveOxide.Filter.Following

open Core.Failure Lib.Result Filter.Xz Filter.XzFormat
open LibarchiveOxide.Filter.Xz.XzValidator (chunkSize)

variable {usage : ℕ → ℕ} {memory : Option ℕ} {check : ℕ} {v : XzValidator}

/-- Pushes a slice; `usage` is the estimate of the LZMA package. -/
def pushAll (usage : ℕ → ℕ) : XzValidator → List Byte → Except ArchiveError (XzValidator × List Byte)
  | v, [] => .ok (v, [])
  | v, byte :: bytes => do
    let (v, out) ← v.push usage byte
    let (v, more) ← pushAll usage v bytes
    .ok (v, out ++ more)

theorem pushAll_cons (byte : Byte) (bytes : List Byte) :
    pushAll usage v (byte :: bytes) = (v.push usage byte >>= fun r =>
      pushAll usage r.1 bytes >>= fun r' => .ok (r'.1, r.2 ++ r'.2)) := rfl

theorem pushAll_append : ∀ (v : XzValidator) (first second : List Byte),
    pushAll usage v (first ++ second) = (pushAll usage v first >>= fun r =>
      pushAll usage r.1 second >>= fun r' => .ok (r'.1, r.2 ++ r'.2))
  | v, [], second => by
    rw [List.nil_append, pushAll, ok_bind]
    cases pushAll usage v second with
    | ok r => rfl
    | error _ => rfl
  | v, byte :: first, second => by
    rw [List.cons_append, pushAll_cons, pushAll_cons]
    cases v.push usage byte with
    | error _ => rfl
    | ok r =>
      rw [ok_bind, ok_bind, pushAll_append r.1 first second]
      cases pushAll usage r.1 first with
      | error _ => rfl
      | ok r₁ =>
        rw [ok_bind, ok_bind, ok_bind]
        dsimp only
        cases pushAll usage r₁.1 second with
        | error _ => rfl
        | ok r₂ => rw [ok_bind, ok_bind, ok_bind, List.append_assoc]

/-- **The validator appends the bytes and then stands at `P`**, or it has a limit and refuses. -/
def Passes (usage : ℕ → ℕ) (v : XzValidator) (bytes : List Byte) (P : XzValidator → Prop) : Prop :=
  (∃ v', pushAll usage v bytes = .ok (v', bytes) ∧ v'.codecMemory = v.codecMemory ∧ P v') ∨
    v.codecMemory ≠ none ∧ ∃ error, pushAll usage v bytes = .error error

section Passes

variable {P Q : XzValidator → Prop} {first second : List Byte}

theorem passes_nil (h : P v) : Passes usage v [] P := .inl ⟨v, rfl, rfl, h⟩

theorem Passes.trans (h : Passes usage v first P)
    (hrest : ∀ v', P v' → Passes usage v' second Q) : Passes usage v (first ++ second) Q := by
  have happend := @pushAll_append usage v first second
  obtain ⟨v', hfirst, hmemory, hp⟩ | ⟨hlimit, error, hfirst⟩ := h
  · rw [hfirst, ok_bind] at happend
    obtain ⟨v'', hsecond, hmemory', hq⟩ | ⟨hlimit, error, hsecond⟩ := hrest v' hp
    · rw [hsecond, ok_bind] at happend
      exact .inl ⟨v'', happend, hmemory'.trans hmemory, hq⟩
    · rw [hsecond, error_bind] at happend
      exact .inr ⟨hmemory ▸ hlimit, error, happend⟩
  · rw [hfirst, error_bind] at happend
    exact .inr ⟨hlimit, error, happend⟩

theorem Passes.imp (h : Passes usage v first P) (hpq : ∀ v', P v' → Q v') :
    Passes usage v first Q := by
  obtain ⟨v', hpush, hmemory, hp⟩ | hrefused := h
  · exact .inl ⟨v', hpush, hmemory, hpq v' hp⟩
  · exact .inr hrefused

/-- The limit stays what it is. -/
theorem Passes.andMemory (h : Passes usage v first P) :
    Passes usage v first fun v' => P v' ∧ v'.codecMemory = v.codecMemory := by
  obtain ⟨v', hpush, hmemory, hp⟩ | hrefused := h
  · exact .inl ⟨v', hpush, hmemory, hp, hmemory⟩
  · exact .inr hrefused

/-- A byte passes through. -/
theorem passes_one {v' : XzValidator} {byte : Byte} (hpush : v.push usage byte = .ok (v', [byte]))
    (hmemory : v'.codecMemory = v.codecMemory) (h : P v') : Passes usage v [byte] P := by
  refine .inl ⟨v', ?_, hmemory, h⟩
  rw [pushAll_cons, hpush]
  rfl

/-- A state that counts down. -/
theorem passes_count {I : ℕ → XzValidator → Prop}
    (hstep : ∀ n v byte, I (n + 1) v →
      ∃ v', v.push usage byte = .ok (v', [byte]) ∧ v'.codecMemory = v.codecMemory ∧ I n v') :
    ∀ (bytes : List Byte) (v : XzValidator), I bytes.length v → Passes usage v bytes (I 0)
  | [], _, h => passes_nil h
  | byte :: bytes, v, h => by
    obtain ⟨v', hpush, hmemory, hnext⟩ := hstep bytes.length v byte h
    rw [← List.singleton_append]
    exact (passes_one hpush hmemory hnext).trans fun v'' h => passes_count hstep bytes v'' h

end Passes

/-- Where the validator stands; nothing is held. -/
structure At (check : ℕ) (state : ValidationState) (v : XzValidator) : Prop where
  state : v.state = state
  held : v.held = []
  checkSize : v.checkSize = check

/-- States that count down to another state. -/
theorem passes_down {state : ℕ → ValidationState} {behind : ValidationState}
    (hstep : ∀ (k : ℕ) (v : XzValidator) (byte : Byte), At check (state (k + 1)) v →
      v.push usage byte = .ok ({ v with state := if k = 0 then behind else state k }, [byte]))
    (bytes : List Byte) (h : At check (if bytes.length = 0 then behind else state bytes.length) v) :
    Passes usage v bytes (At check behind) :=
  @passes_count usage (fun k v' => At check (if k = 0 then behind else state k) v')
    (fun k v byte h => by
      rw [if_neg (Nat.succ_ne_zero k)] at h
      exact ⟨_, hstep k v byte h, rfl, rfl, h.held, h.checkSize⟩) bytes v h

/-! ### Multibyte integers -/

variable {more : ℕ}

/-- So far `more + 1` bytes may follow. -/
structure Seen (more : ℕ) (vli : Vli) : Prop where
  bytes : vli.bytes + more = 8
  shift : vli.shift = 7 * vli.bytes
  value : vli.value < 2 ^ vli.shift

theorem seen_new : Seen 8 {} := ⟨rfl, rfl, Nat.one_pos⟩

/-- The integer with a group more. -/
def taking (vli : Vli) (group : ℕ) : Vli where
  value := vli.value + group * 2 ^ vli.shift
  shift := vli.shift + 7
  bytes := vli.bytes + 1

theorem seen_taking {group : ℕ} {vli : Vli} (h : Seen (more + 1) vli) (hgroup : group < 128) :
    Seen more (taking vli group) where
  bytes := by
    have := h.bytes
    change vli.bytes + 1 + more = 8
    omega
  shift := by
    have := h.shift
    change vli.shift + 7 = 7 * (vli.bytes + 1)
    omega
  value := by
    change vli.value + group * 2 ^ vli.shift < 2 ^ (vli.shift + 7)
    have hvalue := h.value
    have : (group + 1) * 2 ^ vli.shift ≤ 128 * 2 ^ vli.shift := Nat.mul_le_mul_right _ hgroup
    rw [pow_add]
    linarith

/-- A byte that is pushed to an integer. -/
theorem Seen.push {vli : Vli} (h : Seen more vli) (byte : Byte) : vli.push byte =
    if byte.toNat < 128 then
      .ok (taking vli (byte.toNat % 128), some (taking vli (byte.toNat % 128)).value)
    else if more = 0 then .error (malformed "XZ multibyte integer is too long")
    else .ok (taking vli (byte.toNat % 128), none) := by
  have hbytes := h.bytes
  have hshift := h.shift
  have hor : vli.value ||| (byte.toNat % 128) <<< vli.shift =
      vli.value + byte.toNat % 128 * 2 ^ vli.shift := by
    rw [Nat.or_comm, ← Nat.shiftLeft_add_eq_or_of_lt h.value, Nat.shiftLeft_eq, Nat.add_comm]
  unfold Vli.push
  rw [if_neg (by omega)]
  dsimp only
  rw [hor]
  by_cases hlast : byte.toNat < 128
  · rw [if_pos hlast, if_pos hlast]
    rfl
  · rw [if_neg hlast, if_neg hlast]
    by_cases hmore : more = 0
    · rw [if_pos hmore, if_pos (by omega)]
    · rw [if_neg hmore, if_neg (by omega)]
      rfl

theorem toNat_ofNat {n : ℕ} (h : n < 256) : (UInt8.ofNat n).toNat = n := UInt8.toNat_ofNat_of_lt' h

/-- The last group of an integer. -/
theorem Seen.push_last {n : ℕ} {vli : Vli} (h : Seen more vli) (hn : n < 128) :
    vli.push (UInt8.ofNat n) = .ok (taking vli n, some (taking vli n).value) := by
  rw [h.push, toNat_ofNat (by omega), if_pos hn, Nat.mod_eq_of_lt hn]

/-- A group that others follow. -/
theorem Seen.push_more {vli : Vli} (h : Seen (more + 1) vli) (n : ℕ) :
    vli.push (UInt8.ofNat (n % 128 + 128)) = .ok (taking vli (n % 128), none) := by
  have hn := Nat.mod_lt n (show 128 > 0 by decide)
  rw [h.push, toNat_ofNat (by omega), if_neg (by omega), if_neg (Nat.succ_ne_zero _)]
  rw [show (n % 128 + 128) % 128 = n % 128 by omega]

/-- What is left of a number behind its lowest group. -/
theorem value_taking (vli : Vli) (n : ℕ) :
    (taking vli (n % 128)).value + n / 128 * 2 ^ (taking vli (n % 128)).shift =
      vli.value + n * 2 ^ vli.shift := by
  change vli.value + n % 128 * 2 ^ vli.shift + n / 128 * 2 ^ (vli.shift + 7) = _
  calc vli.value + n % 128 * 2 ^ vli.shift + n / 128 * 2 ^ (vli.shift + 7)
      = vli.value + (n % 128 + 128 * (n / 128)) * 2 ^ vli.shift := by ring
    _ = vli.value + n * 2 ^ vli.shift := by rw [Nat.mod_add_div]

/-- **An integer is read back**, whatever follows it. -/
theorem parseVli_groups : ∀ {more n : ℕ} {vli : Vli}, Seen more vli → n < 128 ^ (more + 1) →
    ∀ (rest : List Byte) (offset : ℕ), parseVli (groups more n ++ rest) vli offset =
      .ok (vli.value + n * 2 ^ vli.shift, offset + (groups more n).length)
  | 0, n, vli, h, hn, rest, offset => by
    change (vli.push (UInt8.ofNat n) >>= _) = _
    rw [h.push_last (by simpa using hn), ok_bind]
    rfl
  | more + 1, n, vli, h, hn, rest, offset => by
    unfold groups
    by_cases hlast : n < 128
    · rw [if_pos hlast]
      change (vli.push (UInt8.ofNat n) >>= _) = _
      rw [h.push_last hlast, ok_bind]
      rfl
    · rw [if_neg hlast, List.cons_append, parseVli, h.push_more, ok_bind]
      dsimp only
      rw [parseVli_groups (seen_taking h (Nat.mod_lt _ (by decide))) (Nat.div_lt_of_lt_mul (by
        rwa [← pow_succ'])), value_taking, List.length_cons]
      congr 2
      omega

theorem parseVli_multibyte (n : Multibyte) (rest : List Byte) (offset : ℕ) :
    parseVli (multibyte n ++ rest) {} offset = .ok (n.1, offset + (multibyte n).length) := by
  have h := @parseVli_groups 8 n {} seen_new n.2 rest offset
  rwa [Nat.zero_add, pow_zero, Nat.mul_one] at h

/-! ### The data of a block -/

/-- Where the validator stands in the data of a block. -/
structure InBlock (check n : ℕ) (state : ValidationState) (v : XzValidator) : Prop
    extends At check state v where
  dataBytes : v.blockDataBytes = n

section Block

variable {n : ℕ} {state : ValidationState}

theorem InBlock.count (h : InBlock check n state v) (hn : n < 2 ^ 63) :
    v.countBlock = .ok { v with blockDataBytes := n + 1 } := by
  unfold XzValidator.countBlock
  rw [h.dataBytes, checkedAdd_of_le (by unfold u64Max; omega)]
  rfl

/-- A byte of the data that leads to another state. -/
theorem InBlock.passes {state' : ValidationState} {byte : Byte} (h : InBlock check n state v)
    (hn : n < 2 ^ 63) (hpush : v.push usage byte =
      (v.countBlock >>= fun v => .ok ({ v with state := state' }, [byte]))) :
    Passes usage v [byte] (InBlock check (n + 1) state') := by
  rw [h.count hn] at hpush
  exact passes_one hpush rfl ⟨⟨rfl, h.held, h.checkSize⟩, rfl⟩

/-- The data of a chunk. -/
theorem passes_payload {total : ℕ} (htotal : total < 2 ^ 63) (bytes : List Byte)
    (hpos : 0 < bytes.length) (hle : bytes.length ≤ total)
    (h : InBlock check (total - bytes.length) (.lzmaPayload bytes.length) v) :
    Passes usage v bytes (InBlock check total .lzmaControl) := by
  have hcount := @passes_count usage
    (fun k v' => InBlock check (total - k) (if k = 0 then .lzmaControl else .lzmaPayload k) v' ∧
      k ≤ total) ?_ bytes v
  · refine (hcount ⟨?_, hle⟩).imp fun v' h' => h'.1
    rwa [if_neg (Nat.pos_iff_ne_zero.mp hpos)]
  · rintro k v byte ⟨h, hk⟩
    rw [if_neg (Nat.succ_ne_zero k)] at h
    have hpush : v.push usage byte = .ok (
        { v with
          blockDataBytes := total - (k + 1) + 1
          state := if k = 0 then .lzmaControl else .lzmaPayload k }, [byte]) := by
      unfold XzValidator.push
      rw [h.state]
      dsimp only
      rw [h.count (by omega)]
      rfl
    refine ⟨_, hpush, rfl, ⟨⟨rfl, h.held, h.checkSize⟩, ?_⟩, by omega⟩
    change total - (k + 1) + 1 = total - k
    omega

theorem chunkSize_sizeBytes {size : ℕ} (hpos : 0 < size) (hle : size ≤ 2 ^ 16) :
    chunkSize (UInt8.ofNat ((size - 1) / 256)) (UInt8.ofNat ((size - 1) % 256)) = size := by
  unfold chunkSize
  rw [toNat_ofNat (by omega), toNat_ofNat (by omega)]
  omega

/-- A chunk that is stored. -/
theorem passes_stored {reset : Bool} {data : List Byte} (hpos : 0 < data.length)
    (hle : data.length ≤ 2 ^ 16) (h : InBlock check n .lzmaControl v)
    (hn : n + (3 + data.length) < 2 ^ 63) :
    Passes usage v ((if reset then 1 else 2) :: (sizeBytes data.length ++ data))
      (InBlock check (n + (3 + data.length)) .lzmaControl) := by
  have hcontrol : Passes usage v [if reset then 1 else 2]
      (InBlock check (n + 1) (.lzmaUncompressedSize [])) := by
    refine h.passes (by omega) ?_
    unfold XzValidator.push
    rw [h.state]
    cases reset <;> rfl
  refine hcontrol.trans fun v₁ h₁ => ?_
  have hhigh : Passes usage v₁ [UInt8.ofNat ((data.length - 1) / 256)] (InBlock check (n + 1 + 1)
      (.lzmaUncompressedSize [UInt8.ofNat ((data.length - 1) / 256)])) := by
    refine h₁.passes (by omega) ?_
    unfold XzValidator.push
    rw [h₁.state]
    rfl
  refine hhigh.trans fun v₂ h₂ => ?_
  have hlow : Passes usage v₂ [UInt8.ofNat ((data.length - 1) % 256)]
      (InBlock check (n + 1 + 1 + 1) (.lzmaPayload (chunkSize
        (UInt8.ofNat ((data.length - 1) / 256)) (UInt8.ofNat ((data.length - 1) % 256))))) := by
    refine h₂.passes (by omega) ?_
    unfold XzValidator.push
    rw [h₂.state]
    rfl
  rw [chunkSize_sizeBytes hpos hle] at hlow
  refine hlow.trans fun v₃ h₃ => ?_
  refine passes_payload hn data hpos (by omega) ?_
  rwa [show n + (3 + data.length) - data.length = n + 1 + 1 + 1 by omega]

/-- The number of bytes between the control byte of a packed chunk and its data. -/
def needed (control : Byte) : ℕ := 4 + if 0xc0 ≤ control.toNat then 1 else 0

/-- The rest of the header of a packed chunk. -/
theorem passes_header {control : Byte} : ∀ {n : ℕ} {v : XzValidator} (filled bytes : List Byte)
    (byte : Byte), filled.length + (bytes.length + 1) = needed control →
    InBlock check n (.lzmaCompressedHeader control filled) v → n + bytes.length < 2 ^ 63 →
    Passes usage v (byte :: bytes) (InBlock check (n + (bytes.length + 1)) (.lzmaPayload (chunkSize
      ((filled ++ byte :: bytes).getD 2 0) ((filled ++ byte :: bytes).getD 3 0))))
  | n, v, filled, bytes, byte, hlength, h, hn => by
    have hfirst : Passes usage v [byte] (InBlock check (n + 1)
        (if (filled ++ [byte]).length = needed control then
          .lzmaPayload (chunkSize ((filled ++ [byte]).getD 2 0) ((filled ++ [byte]).getD 3 0))
        else .lzmaCompressedHeader control (filled ++ [byte]))) := by
      refine h.passes (by omega) ?_
      unfold XzValidator.push
      rw [h.state]
      rfl
    have hsize : (filled ++ [byte]).length = filled.length + 1 := List.length_append
    cases bytes with
    | nil =>
      rwa [if_pos (hsize.trans hlength)] at hfirst
    | cons next bytes =>
      rw [List.length_cons] at hlength hn
      rw [if_neg (by omega)] at hfirst
      refine hfirst.trans fun v' h' => ?_
      have hrest : Passes usage v' (next :: bytes) _ :=
        passes_header (filled ++ [byte]) bytes next (by omega) h' (by omega)
      rw [List.append_assoc] at hrest
      rw [List.length_cons, show n + (bytes.length + 1 + 1) = n + 1 + (bytes.length + 1) by omega]
      exact hrest

/-- A chunk that is packed. -/
theorem passes_packed {control sizeHigh sizeLow properties : Byte} {data : List Byte}
    (hcontrol : 0x80 ≤ control.toNat) (hpos : 0 < data.length) (hle : data.length ≤ 2 ^ 16)
    (h : InBlock check n .lzmaControl v) (hn : n + (1 + needed control + data.length) < 2 ^ 63) :
    Passes usage v (control :: sizeHigh :: sizeLow :: (sizeBytes data.length ++
        ((if 0xc0 ≤ control.toNat then [properties] else []) ++ data)))
      (InBlock check (n + (1 + needed control + data.length)) .lzmaControl) := by
  have hfirst : Passes usage v [control]
      (InBlock check (n + 1) (.lzmaCompressedHeader control [])) := by
    refine h.passes (by omega) ?_
    unfold XzValidator.push
    rw [h.state]
    dsimp only
    congr 1
    funext v'
    unfold XzValidator.afterControl
    rw [if_neg (by rintro rfl; exact absurd hcontrol (by decide)),
      if_neg (by rintro (rfl | rfl) <;> exact absurd hcontrol (by decide)), if_neg (by omega)]
  refine hfirst.trans fun v₁ h₁ => ?_
  have hneeded : (sizeLow :: (sizeBytes data.length ++
      if 0xc0 ≤ control.toNat then [properties] else [])).length + 1 = needed control := by
    unfold needed sizeBytes
    by_cases hproperties : 0xc0 ≤ control.toNat
    · rw [if_pos hproperties, if_pos hproperties]
      rfl
    · rw [if_neg hproperties, if_neg hproperties]
      rfl
  have hheader : Passes usage v₁ (sizeHigh :: _) _ :=
    passes_header [] _ sizeHigh ((Nat.zero_add _).trans hneeded) h₁ (by omega)
  rw [hneeded] at hheader
  have hsize : chunkSize
      (([] ++ sizeHigh :: sizeLow :: (sizeBytes data.length ++
        if 0xc0 ≤ control.toNat then [properties] else [])).getD 2 0)
      (([] ++ sizeHigh :: sizeLow :: (sizeBytes data.length ++
        if 0xc0 ≤ control.toNat then [properties] else [])).getD 3 0) = data.length :=
    chunkSize_sizeBytes hpos hle
  rw [hsize] at hheader
  rw [← List.append_assoc]
  refine hheader.trans fun v₂ h₂ => ?_
  refine passes_payload hn data hpos (by omega) ?_
  rwa [show n + (1 + needed control + data.length) - data.length = n + 1 + needed control by omega]

theorem passes_chunk (c : Chunk) (h : InBlock check n .lzmaControl v)
    (hn : n + c.bytes.length < 2 ^ 63) :
    Passes usage v c.bytes (InBlock check (n + c.bytes.length) .lzmaControl) := by
  obtain ⟨coding, data, hpos, hle⟩ := c
  cases coding with
  | stored reset =>
    have hlength : (Chunk.bytes ⟨.stored reset, data, hpos, hle⟩).length = 3 + data.length := by
      change (sizeBytes data.length ++ data).length + 1 = _
      rw [List.length_append]
      change 2 + data.length + 1 = _
      omega
    rw [hlength] at hn ⊢
    exact passes_stored hpos hle h hn
  | packed control high sizeHigh sizeLow properties =>
    have hlength : (Chunk.bytes ⟨.packed control high sizeHigh sizeLow properties, data, hpos,
        hle⟩).length = 1 + needed control + data.length := by
      change (sizeBytes data.length ++ ((if 0xc0 ≤ control.toNat then [properties] else []) ++
        data)).length + 1 + 1 + 1 = _
      rw [List.length_append, List.length_append]
      unfold needed
      change 2 + (_ + data.length) + 1 + 1 + 1 = _
      split_ifs
      · change 2 + (1 + data.length) + 1 + 1 + 1 = _
        omega
      · change 2 + (0 + data.length) + 1 + 1 + 1 = _
        omega
    rw [hlength] at hn ⊢
    exact passes_packed high hpos hle h hn

/-- All chunks of a block. -/
theorem passes_chunks : ∀ {n : ℕ} {v : XzValidator} (chunks : List Chunk),
    InBlock check n .lzmaControl v → n + (chunks.flatMap Chunk.bytes).length < 2 ^ 63 →
    Passes usage v (chunks.flatMap Chunk.bytes)
      (InBlock check (n + (chunks.flatMap Chunk.bytes).length) .lzmaControl)
  | _, _, [], h, _ => passes_nil h
  | n, v, c :: chunks, h, hn => by
    rw [List.flatMap_cons, List.length_append] at hn ⊢
    refine (passes_chunk c h (by omega)).trans fun v' h' => ?_
    rw [← Nat.add_assoc]
    exact passes_chunks chunks h' (by omega)

/-- Where the validator stands behind the padding of a block. -/
def tail (check : ℕ) : ValidationState := if check = 0 then .blockHeaderSize else .blockChecksum check

theorem skipEmptyBlockTail_checksum (hstate : v.state = .blockChecksum check) :
    v.skipEmptyBlockTail = { v with state := tail check } := by
  unfold XzValidator.skipEmptyBlockTail tail
  rw [hstate]
  cases check with
  | zero => rfl
  | succ size =>
    rw [if_neg (by simp), if_neg (Nat.succ_ne_zero size), ← hstate]

theorem passes_blockPadding (size : ℕ) (h : At check
      (if size = 0 then tail check else .blockPadding size) v) :
    Passes usage v (List.replicate size 0) (At check (tail check)) := by
  refine passes_down (fun k v byte h => ?_) _ (by rwa [List.length_replicate])
  unfold XzValidator.push
  rw [h.state]
  dsimp only
  rw [Nat.add_sub_cancel, h.checkSize, skipEmptyBlockTail_checksum rfl]
  split_ifs <;> rfl

theorem passes_checksum (checksum : List Byte) (hlength : checksum.length = check)
    (h : At check (tail check) v) :
    Passes usage v checksum (At check .blockHeaderSize) := by
  refine @passes_down usage check v .blockChecksum _ (fun k v byte h => ?_) _ (by rwa [hlength])
  unfold XzValidator.push
  rw [h.state]
  rfl

/-- The end marker of the chunks. -/
theorem passes_marker (h : InBlock check n .lzmaControl v) (hn : n < 2 ^ 63) :
    Passes usage v [0] (At check (if (4 - (n + 1) % 4) % 4 = 0 then tail check
      else .blockPadding ((4 - (n + 1) % 4) % 4))) := by
  have hpush : v.push usage 0 = .ok ({ v with
      blockDataBytes := n + 1
      state := if (4 - (n + 1) % 4) % 4 = 0 then tail check
        else .blockPadding ((4 - (n + 1) % 4) % 4) }, [0]) := by
    unfold XzValidator.push
    rw [h.state]
    dsimp only
    rw [h.count hn, ok_bind]
    unfold XzValidator.afterControl
    rw [if_pos rfl]
    dsimp only
    rw [h.checkSize]
    by_cases haligned : (4 - (n + 1) % 4) % 4 = 0
    · rw [if_pos haligned, if_pos haligned, skipEmptyBlockTail_checksum rfl]
    · rw [if_neg haligned, if_neg haligned]
      rfl
  exact passes_one hpush rfl ⟨rfl, h.held, h.checkSize⟩

/-- A block behind its header. -/
theorem passes_blockRest (b : Block) (hchecksum : b.checksum.length = check)
    (h : InBlock check 0 .lzmaControl v) :
    Passes usage v (b.data ++ alignment b.data.length ++ b.checksum) (At check .blockHeaderSize) := by
  have hshort := b.short
  have hlength : b.data.length = (b.chunks.flatMap Chunk.bytes).length + 1 := List.length_append
  have hchunks : Passes usage v (b.chunks.flatMap Chunk.bytes) _ := passes_chunks b.chunks h (by omega)
  rw [Nat.zero_add] at hchunks
  have hdata : Passes usage v b.data _ :=
    hchunks.trans fun v' h' => passes_marker h' (by omega)
  rw [← hlength] at hdata
  have hpadding : Passes usage v (b.data ++ alignment b.data.length) _ :=
    hdata.trans fun v' h' => passes_blockPadding _ h'
  exact hpadding.trans fun v' h' => passes_checksum b.checksum hchecksum h'

end Block

/-! ### What is held back -/

/-- Bytes that are held. -/
theorem pushAll_holding {state : ValidationState} {total : ℕ}
    (hstep : ∀ (v : XzValidator) (byte : Byte), v.state = state → v.held.length + 1 < total →
      v.push usage byte = .ok ({ v with held := v.held ++ [byte] }, [])) :
    ∀ (bytes : List Byte) (v : XzValidator), v.state = state →
      v.held.length + bytes.length < total →
      pushAll usage v bytes = .ok ({ v with held := v.held ++ bytes }, [])
  | [], v, _, _ => by
    rw [List.append_nil]
    rfl
  | byte :: bytes, v, hstate, hlength => by
    rw [List.length_cons] at hlength
    have hrest := pushAll_holding hstep bytes { v with held := v.held ++ [byte] } hstate (by
      rw [List.length_append, List.length_singleton]
      omega)
    rw [pushAll_cons, hstep v byte hstate (by omega), ok_bind, hrest, List.append_assoc]
    rfl

theorem push_blockHeader {total : ℕ} (hstate : v.state = .blockHeader total) (byte : Byte) :
    v.push usage byte =
      if (v.held ++ [byte]).length = total then
        validateBlockMemory usage (v.held ++ [byte]) v.codecMemory >>= fun _ =>
          .ok ({ v with held := [], blockDataBytes := 0, state := .lzmaControl }, v.held ++ [byte])
      else .ok ({ v with held := v.held ++ [byte] }, []) := by
  unfold XzValidator.push
  rw [hstate]
  dsimp only
  split_ifs with hfull
  · rfl
  · rw [← hstate]

/-- A block header up to its last byte. -/
theorem pushAll_headerStart (h : At check .blockHeaderSize v) (header : BlockHeader)
    {start : List Byte} {last : Byte} (hsplit : header.bytes = start ++ [last]) :
    pushAll usage v start =
      .ok ({ v with held := start, state := .blockHeader header.bytes.length }, []) := by
  have hpos := header.pos
  have hsmall := header.small
  have hlength := header.length_bytes
  have hstart : start.length + 1 = header.bytes.length := by
    rw [hsplit, List.length_append, List.length_singleton]
  cases start with
  | nil =>
    rw [List.length_nil] at hstart
    omega
  | cons size rest =>
    rw [List.length_cons] at hstart
    have hsize : size = UInt8.ofNat header.words := (List.cons.inj hsplit).1.symm
    have hvalue : size.toNat = header.words := by rw [hsize, toNat_ofNat hsmall]
    have hfirst : v.push usage size =
        .ok ({ v with held := [size], state := .blockHeader header.bytes.length }, []) := by
      unfold XzValidator.push
      rw [h.state]
      unfold XzValidator.pushBlockHeaderSize
      dsimp only
      rw [if_neg (by rintro rfl; exact absurd hvalue hpos.ne), h.held, hvalue, hlength]
      rfl
    have hrest := @pushAll_holding usage (.blockHeader header.bytes.length) header.bytes.length
      (fun v' byte hstate hheld => by
        rw [push_blockHeader hstate, if_neg]
        rw [List.length_append, List.length_singleton]
        omega) rest { v with held := [size], state := .blockHeader header.bytes.length } rfl (by
      rw [List.length_singleton]
      omega)
    rw [pushAll_cons, hfirst, ok_bind, hrest]
    rfl

theorem bytes_eq_append (header : BlockHeader) : ∃ start last, header.bytes = start ++ [last] := by
  rcases List.eq_nil_or_concat header.bytes with hnil | ⟨start, last, h⟩
  · have hlength := header.length_bytes
    rw [hnil, List.length_nil] at hlength
    omega
  · exact ⟨start, last, by rw [h, List.concat_eq_append]⟩

/-- **A block header goes to the decoder if its memory is within the limit.** -/
theorem pushAll_header (h : At check .blockHeaderSize v) (header : BlockHeader) :
    pushAll usage v header.bytes =
      (validateBlockMemory usage header.bytes v.codecMemory >>= fun _ =>
        .ok ({ v with held := [], blockDataBytes := 0, state := .lzmaControl }, header.bytes)) := by
  obtain ⟨start, last, hsplit⟩ := bytes_eq_append header
  have hstart : pushAll usage v start = _ := pushAll_headerStart h header hsplit
  rw [hsplit] at hstart ⊢
  rw [pushAll_append, hstart, ok_bind, pushAll_cons, push_blockHeader rfl, if_pos rfl]
  cases validateBlockMemory usage (start ++ [last]) v.codecMemory with
  | error _ => rfl
  | ok _ => 
    change Except.ok (_, [] ++ (start ++ [last] ++ [])) = _
    rw [List.append_nil]
    rfl

theorem passes_blockHeader (h : At check .blockHeaderSize v) (header : BlockHeader) :
    Passes usage v header.bytes (InBlock check 0 .lzmaControl) := by
  have hpush : pushAll usage v header.bytes = _ := pushAll_header h header
  cases hmemory : validateBlockMemory usage header.bytes v.codecMemory with
  | ok _ =>
    rw [hmemory] at hpush
    exact .inl ⟨_, hpush, rfl, ⟨rfl, rfl, h.checkSize⟩, rfl⟩
  | error error =>
    rw [hmemory] at hpush
    refine .inr ⟨fun hnone => ?_, error, hpush⟩
    rw [hnone] at hmemory
    cases hmemory

theorem passes_block (b : Block) (hchecksum : b.checksum.length = check)
    (h : At check .blockHeaderSize v) : Passes usage v b.bytes (At check .blockHeaderSize) := by
  unfold Block.bytes
  rw [List.append_assoc, List.append_assoc, ← List.append_assoc b.data]
  exact (passes_blockHeader h b.header).trans fun v' h' => passes_blockRest b hchecksum h'

theorem passes_blocks : ∀ {v : XzValidator} (blocks : List Block),
    (∀ b ∈ blocks, b.checksum.length = check) → At check .blockHeaderSize v →
    Passes usage v (blocks.flatMap Block.bytes) (At check .blockHeaderSize)
  | _, [], _, h => passes_nil h
  | _, b :: blocks, hchecks, h => by
    rw [List.flatMap_cons]
    exact (passes_block b (hchecks b List.mem_cons_self) h).trans fun v' h' =>
      passes_blocks blocks (fun b' hb' => hchecks b' (List.mem_cons_of_mem b hb')) h'

end LibarchiveOxide.Filter.Following
