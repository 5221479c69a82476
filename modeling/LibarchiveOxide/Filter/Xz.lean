import LibarchiveOxide.Filter.Worker
import LibarchiveOxide.Lib.Radix
import LibarchiveOxide.Lib.Result

/-! # The validator of the XZ owner

`XzValidator` follows the envelope of an XZ stream byte by byte. It holds back what may make the
decoder allocate memory (stream headers, block headers and the record count of the index) until it
has passed the limit. -/

namespace LibarchiveOxide.Filter.Xz

open Core.Failure Lib.Result

/-- `malformed`. -/
def malformed (context : String) : ArchiveError := .inFormat "xz" .malformed context

/-- A refusal because of the memory limit. -/
def overLimit (context : String) : ArchiveError := .inFormat "xz" .limit context

/-- `MAX_HEADER`. -/
def maxHeader : ℕ := 1024

/-- `XZ_MAGIC`. -/
def xzMagic : List Byte := [0xfd, 0x37, 0x7a, 0x58, 0x5a, 0x00]

/-- `INDEX_RECORD_BYTES`. -/
def indexRecordBytes : ℕ := 16

/-! ### Multibyte integers -/

/-- `Vli`. -/
structure Vli where
  value : ℕ := 0
  shift : ℕ := 0
  bytes : ℕ := 0
deriving DecidableEq

/-- `Vli::push`. -/
def Vli.push (v : Vli) (byte : Byte) : Except ArchiveError (Vli × Option ℕ) :=
  if v.bytes = 9 ∨ 63 ≤ v.shift then .error (malformed "XZ multibyte integer is too large")
  else
    let v : Vli := {
      value := v.value ||| ((byte.toNat % 0x80) <<< v.shift)
      shift := v.shift + 7
      bytes := v.bytes + 1 }
    if byte.toNat < 0x80 then .ok (v, some v.value)
    else if v.bytes = 9 then .error (malformed "XZ multibyte integer is too long")
    else .ok (v, none)

/-- `parse_vli` on the bytes from the offset to the end; the offset behind the integer is the second
result. -/
def parseVli : List Byte → Vli → ℕ → Except ArchiveError (ℕ × ℕ)
  | [], _, _ => .error (malformed "incomplete XZ multibyte integer")
  | byte :: bytes, v, offset => do
    let (v, value) ← v.push byte
    match value with
    | some value => .ok (value, offset + 1)
    | none => parseVli bytes v (offset + 1)

/-! ### Memory -/

/-- `decode_dictionary`. -/
def decodeDictionary (property : Byte) : Except ArchiveError ℕ :=
  let property := property.toNat
  if 40 < property then .error (malformed "invalid LZMA2 dictionary size")
  else if property = 40 then .ok (2 ^ 32 - 1)
  else .ok ((2 ||| property % 2) <<< (property / 2 + 11))

/-- The loop over the filters of a block header. `memoryUsage` is the estimate of the LZMA package, in
kibibytes. -/
def validateFilters (memoryUsage : ℕ → ℕ) (header : List Byte) (limit dataEnd : ℕ) :
    ℕ → ℕ → Except ArchiveError Unit
  | 0, _ => .ok ()
  | filters + 1, offset => do
    let (filter, offset) ← parseVli ((header.take dataEnd).drop offset) {} offset
    let (properties, offset) ← parseVli ((header.take dataEnd).drop offset) {} offset
    if dataEnd < offset + properties then throw (malformed "truncated XZ filter properties")
    if filter = 0x21 then
      if properties ≠ 1 then throw (malformed "invalid LZMA2 properties size")
      let dictionary ← decodeDictionary (header.getD offset 0)
      let required := memoryUsage dictionary * 1024
      if limit < required then throw (overLimit
        s!"LZMA2 workspace requires {required} bytes, limit is {limit}")
    validateFilters memoryUsage header limit dataEnd filters (offset + properties)

/-- `validate_block_memory`. -/
def validateBlockMemory (memoryUsage : ℕ → ℕ) (header : List Byte) (codecMemory : Option ℕ) :
    Except ArchiveError Unit :=
  match codecMemory with
  | none => .ok ()
  | some limit => do
    if header.length < 8 ∨ maxHeader < header.length then
      throw (malformed "invalid XZ block header size")
    let flags := (header.getD 1 0).toNat
    let dataEnd := header.length - 4
    let offset ← if flags / 0x40 % 2 = 1 then
      (parseVli ((header.take dataEnd).drop 2) {} 2).map Prod.snd else .ok 2
    let offset ← if flags / 0x80 % 2 = 1 then
      (parseVli ((header.take dataEnd).drop offset) {} offset).map Prod.snd else .ok offset
    validateFilters memoryUsage header limit dataEnd (flags % 4 + 1) offset

/-- `validate_index_memory`. -/
def validateIndexMemory (records : ℕ) (codecMemory : Option ℕ) : Except ArchiveError Unit := do
  let required ← okOr (checkedMul records indexRecordBytes)
    (overLimit "XZ index allocation size overflow")
  if codecMemory.any fun limit => decide (limit < required) then throw (overLimit
    s!"XZ index requires {required} bytes, codec workspace limit was exceeded")

/-! ### The states -/

/-- `ValidationState`. The arrays of bytes have the bytes filled so far. -/
inductive ValidationState where
  | streamHeader
  | blockHeaderSize
  | blockHeader (total : ℕ)
  | lzmaControl
  | lzmaUncompressedSize (bytes : List Byte)
  | lzmaCompressedHeader (control : Byte) (bytes : List Byte)
  | lzmaPayload (remaining : ℕ)
  | blockPadding (remaining : ℕ)
  | blockChecksum (remaining : ℕ)
  | indexCount (vli : Vli)
  | indexRecord (remaining : ℕ) (field : Bool) (vli : Vli)
  | indexPadding (remaining : ℕ)
  | indexCrc (remaining : ℕ)
  | footer (remaining : ℕ)
  | streamPadding
  | opaqueMalformed
deriving DecidableEq

/-- `XzValidator`. -/
structure XzValidator where
  state : ValidationState := .streamHeader
  held : List Byte := []
  codecMemory : Option ℕ
  checkSize : ℕ := 0
  blockDataBytes : ℕ := 0
  indexBytes : ℕ := 0
  streamPadding : ℕ := 0
deriving DecidableEq

namespace XzValidator

/-- What is released, and the validator without it. -/
def release (v : XzValidator) : XzValidator × List Byte := ({ v with held := [] }, v.held)

/-- `finish`. -/
def finish (v : XzValidator) : Except ArchiveError (XzValidator × List Byte) :=
  if v.state = .streamPadding ∧ v.streamPadding % 4 ≠ 0 then
    .error (malformed "XZ stream padding is not a multiple of four bytes")
  else .ok v.release

/-- `skip_empty_block_tail`. -/
def skipEmptyBlockTail (v : XzValidator) : XzValidator :=
  if v.state = .blockChecksum 0 then { v with state := .blockHeaderSize } else v

/-- `begin_index_padding`. -/
def beginIndexPadding (v : XzValidator) : XzValidator :=
  let remaining := (4 - v.indexBytes % 4) % 4
  { v with state := if remaining = 0 then .indexCrc 4 else .indexPadding remaining }

/-- The byte counts for the length of the block. -/
def countBlock (v : XzValidator) : Except ArchiveError XzValidator := do
  let bytes ← okOr (checkedAdd v.blockDataBytes 1) (malformed "XZ block length overflow")
  .ok { v with blockDataBytes := bytes }

/-- The byte counts for the length of the index. -/
def countIndex (v : XzValidator) : Except ArchiveError XzValidator := do
  let bytes ← okOr (checkedAdd v.indexBytes 1) (malformed "XZ index length overflow")
  .ok { v with indexBytes := bytes }

/-- The number of bytes of the stream's check. -/
def checkSizeOf (flag : Byte) : Except ArchiveError ℕ :=
  if flag = 0x00 then .ok 0
  else if flag = 0x01 then .ok 4
  else if flag = 0x04 then .ok 8
  else if flag = 0x0a then .ok 32
  else .error (malformed "unsupported XZ check type")

/-- A byte of a stream header. -/
def pushStreamHeader (v : XzValidator) (byte : Byte) :
    Except ArchiveError (XzValidator × List Byte) :=
  let v := { v with held := v.held ++ [byte] }
  if v.held.length = 12 then
    if v.held.take 6 ≠ xzMagic then .error (malformed "invalid XZ stream magic")
    else if v.held.getD 6 0 ≠ 0 then .error (malformed "invalid XZ stream flags")
    else do
      let checkSize ← checkSizeOf (v.held.getD 7 0)
      .ok { v with checkSize := checkSize, state := .blockHeaderSize }.release
  else .ok (v, [])

/-- The first byte of a block header or of the index. -/
def pushBlockHeaderSize (v : XzValidator) (byte : Byte) : XzValidator × List Byte :=
  let v := { v with held := v.held ++ [byte] }
  if byte = 0 then { v with indexBytes := 1, state := .indexCount {} }.release
  else ({ v with state := .blockHeader ((byte.toNat + 1) * 4) }, [])

/-- The control byte of an LZMA2 chunk. -/
def afterControl (v : XzValidator) (byte : Byte) : XzValidator :=
  if byte = 0 then
    let remaining := (4 - v.blockDataBytes % 4) % 4
    skipEmptyBlockTail { v with state :=
      if remaining = 0 then .blockChecksum v.checkSize else .blockPadding remaining }
  else if byte = 1 ∨ byte = 2 then { v with state := .lzmaUncompressedSize [] }
  else if byte.toNat ≤ 0x7f then { v with state := .opaqueMalformed }
  else { v with state := .lzmaCompressedHeader byte [] }

/-- Two bytes, the first one being the higher, and one more. -/
def chunkSize (high low : Byte) : ℕ := high.toNat * 256 + low.toNat + 1

/-- A byte of the record count of the index. -/
def pushIndexCount (v : XzValidator) (vli : Vli) (byte : Byte) :
    Except ArchiveError (XzValidator × List Byte) := do
  let v ← countIndex { v with held := v.held ++ [byte] }
  let (vli, records) ← vli.push byte
  match records with
  | none => .ok ({ v with state := .indexCount vli }, [])
  | some records => do
    validateIndexMemory records v.codecMemory
    let (v, released) := v.release
    .ok (if records = 0 then v.beginIndexPadding else { v with state := .indexRecord records false {} },
      released)

/-- The state behind a byte of an index record. -/
def afterRecord (v : XzValidator) (remaining : ℕ) (field : Bool) : XzValidator :=
  if !field then { v with state := .indexRecord remaining true {} }
  else if remaining - 1 = 0 then v.beginIndexPadding
  else { v with state := .indexRecord (remaining - 1) false {} }

/-- `push`. The result has what is appended to the pending input. -/
def push (memoryUsage : ℕ → ℕ) (v : XzValidator) (byte : Byte) :
    Except ArchiveError (XzValidator × List Byte) :=
  match v.state with
  | .streamHeader => v.pushStreamHeader byte
  | .blockHeaderSize => .ok (v.pushBlockHeaderSize byte)
  | .blockHeader total => do
    let v := { v with held := v.held ++ [byte] }
    if v.held.length = total then
      validateBlockMemory memoryUsage v.held v.codecMemory
      .ok { v with blockDataBytes := 0, state := .lzmaControl }.release
    else .ok (v, [])
  | .lzmaControl => do
    let v ← v.countBlock
    .ok (v.afterControl byte, [byte])
  | .lzmaUncompressedSize bytes => do
    let v ← v.countBlock
    .ok ({ v with state := match bytes ++ [byte] with
      | [high, low] => .lzmaPayload (chunkSize high low)
      | filled => .lzmaUncompressedSize filled }, [byte])
  | .lzmaCompressedHeader control bytes => do
    let v ← v.countBlock
    let filled := bytes ++ [byte]
    let needed := 4 + if 0xc0 ≤ control.toNat then 1 else 0
    .ok ({ v with state :=
      if filled.length = needed then .lzmaPayload (chunkSize (filled.getD 2 0) (filled.getD 3 0))
      else .lzmaCompressedHeader control filled }, [byte])
  | .lzmaPayload remaining => do
    let v ← v.countBlock
    .ok ({ v with state := if remaining - 1 = 0 then .lzmaControl else .lzmaPayload (remaining - 1) },
      [byte])
  | .blockPadding remaining =>
    .ok (if remaining - 1 = 0 then skipEmptyBlockTail { v with state := .blockChecksum v.checkSize }
      else { v with state := .blockPadding (remaining - 1) }, [byte])
  | .blockChecksum remaining =>
    .ok ({ v with state :=
      if remaining - 1 = 0 then .blockHeaderSize else .blockChecksum (remaining - 1) }, [byte])
  | .indexCount vli => v.pushIndexCount vli byte
  | .indexRecord remaining field vli => do
    let v ← v.countIndex
    let (vli, value) ← vli.push byte
    .ok (match value with
      | some _ => v.afterRecord remaining field
      | none => { v with state := .indexRecord remaining field vli }, [byte])
  | .indexPadding remaining =>
    .ok ({ v with state := if remaining - 1 = 0 then .indexCrc 4 else .indexPadding (remaining - 1) },
      [byte])
  | .indexCrc remaining =>
    .ok ({ v with state := if remaining - 1 = 0 then .footer 12 else .indexCrc (remaining - 1) },
      [byte])
  | .footer remaining =>
    .ok (if remaining - 1 = 0 then { v with streamPadding := 0, state := .streamPadding }
      else { v with state := .footer (remaining - 1) }, [byte])
  | .streamPadding =>
    if byte = 0 then do
      let padding ← okOr (checkedAdd v.streamPadding 1)
        (malformed "XZ stream padding length overflow")
      .ok ({ v with streamPadding := padding }, [byte])
    else if v.streamPadding % 4 ≠ 0 then
      .error (malformed "XZ stream padding is not a multiple of four bytes")
    else .ok ({ v with held := v.held ++ [byte], state := .streamHeader }, [])
  | .opaqueMalformed => .ok (v, [byte])

/-! ### What is held back -/

variable {v v' : XzValidator} {byte : Byte} {r : XzValidator × List Byte}

/-- How many bytes may be held in a state. -/
def capacity : ValidationState → ℕ
  | .streamHeader => 11
  | .blockHeader total => total - 1
  | .indexCount vli => vli.bytes
  | _ => 0

/-- The numbers of a state are in range. -/
def Bounded : ValidationState → Prop
  | .blockHeader total => 0 < total ∧ total ≤ maxHeader
  | .indexCount vli => vli.bytes ≤ 9
  | _ => True

/-- The bytes that are held belong to the state. -/
structure Fits (v : XzValidator) : Prop where
  held : v.held.length ≤ capacity v.state
  bounded : Bounded v.state

/-- The bytes of a state pass through. -/
def Plain (s : ValidationState) : Prop := capacity s = 0 ∧ Bounded s

theorem fits_of_plain (hheld : v.held = []) (h : Plain v.state) : Fits v where
  held := by rw [hheld, h.1]; rfl
  bounded := h.2

theorem Fits.nil (h : Fits v) (hplain : capacity v.state = 0) : v.held = [] := by
  have := h.held
  rw [hplain] at this
  exact List.length_eq_zero_iff.mp (Nat.le_zero.mp this)

theorem plain_ite {p : Prop} [Decidable p] {s s' : ValidationState} (h : Plain s) (h' : Plain s') :
    Plain (if p then s else s') := by
  by_cases hp : p
  · rwa [if_pos hp]
  · rwa [if_neg hp]

theorem skipEmptyBlockTail_held (v : XzValidator) : v.skipEmptyBlockTail.held = v.held := by
  unfold skipEmptyBlockTail
  split_ifs <;> rfl

theorem skipEmptyBlockTail_plain (h : Plain v.state) : Plain v.skipEmptyBlockTail.state := by
  unfold skipEmptyBlockTail
  split_ifs
  · exact ⟨rfl, trivial⟩
  · exact h

theorem beginIndexPadding_plain (v : XzValidator) : Plain v.beginIndexPadding.state :=
  plain_ite ⟨rfl, trivial⟩ ⟨rfl, trivial⟩

theorem countBlock_eq_ok (h : v.countBlock = .ok v') : v'.held = v.held ∧ v'.state = v.state := by
  obtain ⟨_, -, h⟩ := bind_eq_ok.mp h
  cases h
  exact ⟨rfl, rfl⟩

theorem countIndex_eq_ok (h : v.countIndex = .ok v') : v'.held = v.held ∧ v'.state = v.state := by
  obtain ⟨_, -, h⟩ := bind_eq_ok.mp h
  cases h
  exact ⟨rfl, rfl⟩

theorem afterControl_spec (v : XzValidator) (byte : Byte) :
    (v.afterControl byte).held = v.held ∧ Plain (v.afterControl byte).state := by
  unfold afterControl
  split_ifs
  · exact ⟨skipEmptyBlockTail_held _,
      skipEmptyBlockTail_plain (plain_ite ⟨rfl, trivial⟩ ⟨rfl, trivial⟩)⟩
  · exact ⟨rfl, rfl, trivial⟩
  · exact ⟨rfl, rfl, trivial⟩
  · exact ⟨rfl, rfl, trivial⟩

theorem afterRecord_spec (v : XzValidator) (remaining : ℕ) (field : Bool) :
    (v.afterRecord remaining field).held = v.held ∧ Plain (v.afterRecord remaining field).state := by
  unfold afterRecord
  split_ifs
  · exact ⟨rfl, rfl, trivial⟩
  · exact ⟨rfl, beginIndexPadding_plain v⟩
  · exact ⟨rfl, rfl, trivial⟩

theorem Vli.bytes_of_push {vli vli' : Vli} {value : Option ℕ}
    (h : vli.push byte = .ok (vli', value)) : vli.bytes ≠ 9 ∧ vli'.bytes = vli.bytes + 1 := by
  unfold Vli.push at h
  by_cases hbytes : vli.bytes = 9 ∨ 63 ≤ vli.shift
  · rw [if_pos hbytes] at h
    cases h
  · rw [if_neg hbytes] at h
    refine ⟨fun heq => hbytes (.inl heq), ?_⟩
    dsimp only at h
    split_ifs at h
    · cases h
      rfl
    · cases h
      rfl

/-- What `push` does to the bytes that are held. -/
def Keeps (v : XzValidator) (byte : Byte) (r : XzValidator × List Byte) : Prop :=
  r.2 ++ r.1.held = v.held ++ [byte] ∧ Fits r.1

/-- A byte passes through. -/
theorem keeps_of_plain (hnil : v.held = []) (hheld : v'.held = v.held) (h : Plain v'.state) :
    Keeps v byte (v', [byte]) := by
  rw [hnil] at hheld
  refine ⟨?_, fits_of_plain hheld h⟩
  rw [hheld, hnil]
  rfl

/-- Everything is released. -/
theorem keeps_release (hheld : v'.held = v.held ++ [byte]) (h : Plain v'.state) :
    Keeps v byte v'.release := by
  refine ⟨?_, fits_of_plain rfl h⟩
  rw [← hheld]
  exact List.append_nil _

/-- The byte is held. -/
theorem keeps_held (hheld : v'.held = v.held ++ [byte]) (h : Fits v') :
    Keeps v byte (v', []) := ⟨hheld, h⟩

theorem length_held (h : Fits v) (byte : Byte) :
    (v.held ++ [byte]).length ≤ capacity v.state + 1 := by
  rw [List.length_append]
  exact Nat.add_le_add_right h.held 1

theorem keeps_pushStreamHeader (hfits : Fits v) (hstate : v.state = .streamHeader)
    (h : v.pushStreamHeader byte = .ok r) : Keeps v byte r := by
  unfold pushStreamHeader at h
  dsimp only at h
  split_ifs at h with hfull hmagic hflags
  · obtain ⟨_, -, h⟩ := bind_eq_ok.mp h
    cases h
    exact keeps_release rfl ⟨rfl, trivial⟩
  · cases h
    have := length_held hfits byte
    rw [hstate] at this
    refine keeps_held rfl ⟨?_, by rw [hstate]; trivial⟩
    rw [hstate]
    exact Nat.le_of_lt_succ (lt_of_le_of_ne this hfull)

theorem keeps_pushBlockHeaderSize (hnil : v.held = []) :
    Keeps v byte (v.pushBlockHeaderSize byte) := by
  unfold pushBlockHeaderSize
  dsimp only
  split_ifs with hzero
  · exact keeps_release rfl ⟨rfl, Nat.zero_le _⟩
  · have hbyte := byte.toNat_lt
    have hmax : maxHeader = 1024 := rfl
    refine keeps_held rfl ⟨?_, by omega, by omega⟩
    rw [hnil]
    change 1 ≤ (byte.toNat + 1) * 4 - 1
    omega

theorem keeps_pushIndexCount {vli : Vli} (hfits : Fits v) (hstate : v.state = .indexCount vli)
    (h : v.pushIndexCount vli byte = .ok r) : Keeps v byte r := by
  obtain ⟨v₁, hcount, h⟩ := bind_eq_ok.mp h
  obtain ⟨⟨vli', records⟩, hvli, h⟩ := bind_eq_ok.mp h
  obtain ⟨hheld, -⟩ := countIndex_eq_ok hcount
  obtain ⟨hne, hbytes⟩ := Vli.bytes_of_push hvli
  have hbounded := hfits.bounded
  have hlength := length_held hfits byte
  rw [hstate] at hbounded hlength
  change vli.bytes ≤ 9 at hbounded
  cases records with
  | none =>
    cases h
    refine keeps_held hheld ⟨?_, ?_⟩
    · change v₁.held.length ≤ vli'.bytes
      rw [hheld, hbytes]
      exact hlength
    · change vli'.bytes ≤ 9
      omega
  | some records =>
    obtain ⟨_, -, h⟩ := bind_eq_ok.mp h
    cases h
    by_cases hzero : records = 0
    · rw [if_pos hzero]
      exact @keeps_release v v₁.beginIndexPadding byte hheld (beginIndexPadding_plain v₁)
    · rw [if_neg hzero]
      exact @keeps_release v { v₁ with state := .indexRecord records false {} } byte hheld
        ⟨rfl, trivial⟩

/-- **A byte is released or held, in order.** -/
theorem keeps_push {memoryUsage : ℕ → ℕ} (hfits : Fits v) (h : v.push memoryUsage byte = .ok r) :
    Keeps v byte r := by
  unfold push at h
  cases hstate : v.state with
  | streamHeader =>
    rw [hstate] at h
    exact keeps_pushStreamHeader hfits hstate h
  | blockHeaderSize =>
    rw [hstate] at h
    cases h
    exact keeps_pushBlockHeaderSize (hfits.nil (by rw [hstate]; rfl))
  | blockHeader total =>
    rw [hstate] at h
    have hbounded := hfits.bounded
    have hlength := length_held hfits byte
    rw [hstate] at hbounded hlength
    obtain ⟨hpos, hmax⟩ := hbounded
    change _ ≤ total - 1 + 1 at hlength
    dsimp only at h
    by_cases hfull : (v.held ++ [byte]).length = total
    · rw [if_pos hfull] at h
      obtain ⟨_, -, h⟩ := bind_eq_ok.mp h
      cases h
      exact keeps_release rfl ⟨rfl, trivial⟩
    · rw [if_neg hfull] at h
      cases h
      refine keeps_held rfl ⟨?_, hpos, hmax⟩
      change (v.held ++ [byte]).length ≤ total - 1
      omega
  | lzmaControl =>
    rw [hstate] at h
    have hnil := hfits.nil (by rw [hstate]; rfl)
    obtain ⟨v₁, hcount, h⟩ := bind_eq_ok.mp h
    cases h
    obtain ⟨hheld, hplain⟩ := afterControl_spec v₁ byte
    exact keeps_of_plain hnil (hheld.trans (countBlock_eq_ok hcount).1) hplain
  | lzmaUncompressedSize bytes =>
    rw [hstate] at h
    have hnil := hfits.nil (by rw [hstate]; rfl)
    obtain ⟨v₁, hcount, h⟩ := bind_eq_ok.mp h
    cases h
    refine keeps_of_plain hnil (countBlock_eq_ok hcount).1 ?_
    dsimp only
    split <;> exact ⟨rfl, trivial⟩
  | lzmaCompressedHeader control bytes =>
    rw [hstate] at h
    have hnil := hfits.nil (by rw [hstate]; rfl)
    obtain ⟨v₁, hcount, h⟩ := bind_eq_ok.mp h
    cases h
    exact keeps_of_plain hnil (countBlock_eq_ok hcount).1
      (plain_ite ⟨rfl, trivial⟩ ⟨rfl, trivial⟩)
  | lzmaPayload remaining =>
    rw [hstate] at h
    have hnil := hfits.nil (by rw [hstate]; rfl)
    obtain ⟨v₁, hcount, h⟩ := bind_eq_ok.mp h
    cases h
    exact keeps_of_plain hnil (countBlock_eq_ok hcount).1
      (plain_ite ⟨rfl, trivial⟩ ⟨rfl, trivial⟩)
  | blockPadding remaining =>
    rw [hstate] at h
    have hnil := hfits.nil (by rw [hstate]; rfl)
    cases h
    by_cases hlast : remaining - 1 = 0
    · rw [if_pos hlast]
      exact keeps_of_plain hnil (skipEmptyBlockTail_held _)
        (skipEmptyBlockTail_plain ⟨rfl, trivial⟩)
    · rw [if_neg hlast]
      exact keeps_of_plain hnil rfl ⟨rfl, trivial⟩
  | blockChecksum remaining =>
    rw [hstate] at h
    have hnil := hfits.nil (by rw [hstate]; rfl)
    cases h
    exact keeps_of_plain hnil rfl (plain_ite ⟨rfl, trivial⟩ ⟨rfl, trivial⟩)
  | indexCount vli =>
    rw [hstate] at h
    exact keeps_pushIndexCount hfits hstate h
  | indexRecord remaining field vli =>
    rw [hstate] at h
    have hnil := hfits.nil (by rw [hstate]; rfl)
    obtain ⟨v₁, hcount, h⟩ := bind_eq_ok.mp h
    obtain ⟨⟨vli', value⟩, -, h⟩ := bind_eq_ok.mp h
    cases h
    have hheld := (countIndex_eq_ok hcount).1
    cases value with
    | none => exact keeps_of_plain hnil hheld ⟨rfl, trivial⟩
    | some value =>
      obtain ⟨hheld', hplain⟩ := afterRecord_spec v₁ remaining field
      exact keeps_of_plain hnil (hheld'.trans hheld) hplain
  | indexPadding remaining =>
    rw [hstate] at h
    have hnil := hfits.nil (by rw [hstate]; rfl)
    cases h
    exact keeps_of_plain hnil rfl (plain_ite ⟨rfl, trivial⟩ ⟨rfl, trivial⟩)
  | indexCrc remaining =>
    rw [hstate] at h
    have hnil := hfits.nil (by rw [hstate]; rfl)
    cases h
    exact keeps_of_plain hnil rfl (plain_ite ⟨rfl, trivial⟩ ⟨rfl, trivial⟩)
  | footer remaining =>
    rw [hstate] at h
    have hnil := hfits.nil (by rw [hstate]; rfl)
    cases h
    by_cases hlast : remaining - 1 = 0
    · rw [if_pos hlast]
      exact keeps_of_plain hnil rfl ⟨rfl, trivial⟩
    · rw [if_neg hlast]
      exact keeps_of_plain hnil rfl ⟨rfl, trivial⟩
  | streamPadding =>
    rw [hstate] at h
    have hnil := hfits.nil (by rw [hstate]; rfl)
    dsimp only at h
    split_ifs at h with hzero hpadding
    · obtain ⟨_, -, h⟩ := bind_eq_ok.mp h
      cases h
      exact keeps_of_plain hnil rfl ⟨rfl, trivial⟩
    · cases h
      refine keeps_held rfl ⟨?_, trivial⟩
      rw [hnil]
      change 1 ≤ 11
      omega
  | opaqueMalformed =>
    rw [hstate] at h
    have hnil := hfits.nil (by rw [hstate]; rfl)
    cases h
    exact keeps_of_plain hnil rfl (by rw [hstate]; exact ⟨rfl, trivial⟩)

end XzValidator

end LibarchiveOxide.Filter.Xz

/-! # The envelope of XZ

What a well-formed XZ file is: streams of blocks of LZMA2 chunks, an index, and padding between the
streams. Checksums and compressed data are arbitrary bytes, and the records of the index need not agree
with the blocks: the validator reads neither. -/

namespace LibarchiveOxide.Filter.XzFormat

open Core.Failure Lib.LittleEndian Filter.Xz

/-! ### Multibyte integers -/

/-- The groups of seven bits of a number, the lowest first; `more` bytes may follow the first. -/
def groups : ℕ → ℕ → List Byte
  | 0, n => [UInt8.ofNat n]
  | more + 1, n =>
    if n < 128 then [UInt8.ofNat n] else UInt8.ofNat (n % 128 + 128) :: groups more (n / 128)

/-- The multibyte integer of a number below 2^63. -/
def multibyte (n : ℕ) : List Byte := groups 8 n

theorem length_groups_pos : ∀ more n : ℕ, 0 < (groups more n).length
  | 0, _ => Nat.one_pos
  | more + 1, n => by
    unfold groups
    split_ifs
    · exact Nat.one_pos
    · exact Nat.succ_pos _

/-- A number below 2^63 fills at most nine groups. -/
abbrev Multibyte : Type := { n : ℕ // n < 2 ^ 63 }

/-- The bytes of an optional size. -/
def sizeField : Option Multibyte → List Byte
  | none => []
  | some n => multibyte n

/-! ### Blocks -/

/-- The flags of a filter. -/
structure FilterFlags where
  id : Multibyte
  properties : List Byte
  short : properties.length < 2 ^ 63

/-- The bytes of filter flags. -/
def FilterFlags.bytes (f : FilterFlags) : List Byte :=
  multibyte f.id ++ multibyte f.properties.length ++ f.properties

/-- The parts of a block header between its flags and its padding. -/
structure HeaderFields where
  compressed : Option Multibyte
  uncompressed : Option Multibyte
  filters : List FilterFlags
  property : Byte
  few : filters.length ≤ 3
  valid : property.toNat ≤ 40

namespace HeaderFields

variable (h : HeaderFields)

/-- The flags of a block header. -/
def flags : Byte :=
  UInt8.ofNat (h.filters.length + 0x40 * h.compressed.isSome.toNat + 0x80 * h.uncompressed.isSome.toNat)

/-- The LZMA2 filter, which is the last one. -/
def lzma2 : FilterFlags := ⟨⟨0x21, by decide⟩, [h.property], show 1 < 2 ^ 63 by decide⟩

/-- The size of the dictionary that the LZMA2 filter asks for. -/
def dictionary : ℕ :=
  if h.property.toNat = 40 then 2 ^ 32 - 1
  else (2 + h.property.toNat % 2) * 2 ^ (h.property.toNat / 2 + 11)

/-- The fields from the sizes on. -/
def bytes : List Byte :=
  sizeField h.compressed ++ sizeField h.uncompressed ++ (h.filters ++ [h.lzma2]).flatMap FilterFlags.bytes

end HeaderFields

/-- A block header; its size is stored in words of four bytes, the first one not counted. -/
structure BlockHeader extends HeaderFields where
  words : ℕ
  padding : ℕ
  crc : List Byte
  pos : 0 < words
  small : words < 256
  check : crc.length = 4
  fills : 2 + toHeaderFields.bytes.length + padding + 4 = (words + 1) * 4

namespace BlockHeader

variable (h : BlockHeader)

/-- The bytes before the checksum. -/
def covered : List Byte :=
  UInt8.ofNat h.words :: h.flags :: (h.toHeaderFields.bytes ++ List.replicate h.padding 0)

/-- The bytes of a block header. -/
def bytes : List Byte := h.covered ++ h.crc

theorem length_covered : h.covered.length + 4 = (h.words + 1) * 4 := by
  have := h.fills
  unfold covered
  rw [List.length_cons, List.length_cons, List.length_append, List.length_replicate]
  omega

theorem length_bytes : h.bytes.length = (h.words + 1) * 4 := by
  unfold bytes
  rw [List.length_append, h.check]
  exact h.length_covered

end BlockHeader

/-- What stands before the data of an LZMA2 chunk. -/
inductive Coding where
  | stored (reset : Bool)
  | packed (control : Byte) (high : 0x80 ≤ control.toNat) (sizeHigh sizeLow properties : Byte)

/-- An LZMA2 chunk. -/
structure Chunk where
  coding : Coding
  data : List Byte
  pos : 0 < data.length
  small : data.length ≤ 2 ^ 16

/-- The size of a chunk's data as it is stored, the higher byte first. -/
def sizeBytes (n : ℕ) : List Byte := [UInt8.ofNat ((n - 1) / 256), UInt8.ofNat ((n - 1) % 256)]

/-- The bytes of a chunk. Properties follow the sizes where the control byte announces them. -/
def Chunk.bytes (c : Chunk) : List Byte :=
  match c.coding with
  | .stored reset => (if reset then 1 else 2) :: (sizeBytes c.data.length ++ c.data)
  | .packed control _ sizeHigh sizeLow properties =>
    control :: sizeHigh :: sizeLow :: (sizeBytes c.data.length ++
      ((if 0xc0 ≤ control.toNat then [properties] else []) ++ c.data))

/-- A block. -/
structure Block where
  header : BlockHeader
  chunks : List Chunk
  checksum : List Byte
  short : (chunks.flatMap Chunk.bytes).length + 1 < 2 ^ 63

/-- The zero bytes up to a multiple of four. -/
def alignment (n : ℕ) : List Byte := List.replicate ((4 - n % 4) % 4) 0

/-- The chunks of a block and their end marker. -/
def Block.data (b : Block) : List Byte := b.chunks.flatMap Chunk.bytes ++ [0]

/-- The bytes of a block. -/
def Block.bytes (b : Block) : List Byte :=
  b.header.bytes ++ b.data ++ alignment b.data.length ++ b.checksum

/-! ### Streams -/

/-- The checks that are supported. -/
inductive Check where
  | none
  | crc32
  | crc64
  | sha256
deriving DecidableEq

/-- The stream flag of a check. -/
def Check.flag : Check → Byte
  | .none => 0x00
  | .crc32 => 0x01
  | .crc64 => 0x04
  | .sha256 => 0x0a

/-- The number of bytes of a check. -/
def Check.size : Check → ℕ
  | .none => 0
  | .crc32 => 4
  | .crc64 => 8
  | .sha256 => 32

/-- A record of the index. -/
structure Record where
  unpadded : Multibyte
  uncompressed : Multibyte

/-- The bytes of a record. -/
def Record.bytes (r : Record) : List Byte := multibyte r.unpadded ++ multibyte r.uncompressed

/-- The index up to its padding. -/
def indexBytes (records : List Record) : List Byte :=
  0 :: (multibyte records.length ++ records.flatMap Record.bytes)

/-- A stream. The footer stores the length of the index with its checksum, in words of four bytes
without the first one, as a 32-bit number. -/
structure Stream where
  check : Check
  headerCrc : List Byte
  blocks : List Block
  records : List Record
  indexCrc : List Byte
  footerCrc : List Byte
  backward : ℕ
  headerCheck : headerCrc.length = 4
  checks : ∀ b ∈ blocks, b.checksum.length = check.size
  indexCheck : indexCrc.length = 4
  footerCheck : footerCrc.length = 4
  backward_lt : backward < 2 ^ 32
  backward_eq : (indexBytes records).length + (alignment (indexBytes records).length).length + 4 =
    (backward + 1) * 4

namespace Stream

variable (s : Stream)

/-- The header of a stream. -/
def header : List Byte := xzMagic ++ [0, s.check.flag] ++ s.headerCrc

/-- The index with its padding and its checksum. -/
def index : List Byte :=
  indexBytes s.records ++ alignment (indexBytes s.records).length ++ s.indexCrc

/-- The footer of a stream. -/
def footer : List Byte :=
  s.footerCrc ++ leBytes 4 s.backward ++ [0, s.check.flag] ++ [0x59, 0x5a]

/-- The bytes of a stream. -/
def bytes : List Byte := s.header ++ s.blocks.flatMap Block.bytes ++ s.index ++ s.footer

end Stream

/-- The streams of a file, each with the words of padding behind it. -/
abbrev File : Type := List (Stream × ℕ)

/-- A stream and the padding behind it. -/
def padded (s : Stream × ℕ) : List Byte := s.1.bytes ++ List.replicate (4 * s.2) 0

/-- The bytes of a file. -/
def fileBytes (file : File) : List Byte := file.flatMap padded

/-! ### Positions -/

/-- The bytes before a block header of a well-formed file: whole streams, the header of a stream and
some of its blocks. -/
def BeforeBlock (before : List Byte) : Prop :=
  ∃ (file : File) (s : Stream) (done : ℕ),
    before = fileBytes file ++ s.header ++ (s.blocks.take done).flatMap Block.bytes

/-- The bytes before the record count of the index of a well-formed file. -/
def BeforeCount (before : List Byte) : Prop :=
  ∃ (file : File) (s : Stream),
    before = fileBytes file ++ s.header ++ s.blocks.flatMap Block.bytes ++ [0]

end LibarchiveOxide.Filter.XzFormat
