import LibarchiveOxide.Filter.Following

/-! # How the validator follows the index of a stream -/

namespace LibarchiveOxide.Filter.Indexed

open Core.Failure Lib.Result Filter.Xz Filter.XzFormat Filter.Following

variable {usage : ℕ → ℕ} {check n : ℕ} {state : ValidationState} {v : XzValidator}

/-- Where the validator stands in the index. -/
structure InIndex (check n : ℕ) (state : ValidationState) (v : XzValidator) : Prop
    extends At check state v where
  indexBytes : v.indexBytes = n

/-- Where the validator stands in front of the padding of an index. -/
def padding (n : ℕ) : ValidationState :=
  if (4 - n % 4) % 4 = 0 then .indexCrc 4 else .indexPadding ((4 - n % 4) % 4)

theorem countIndex_eq (hindex : v.indexBytes = n) (hn : n < 2 ^ 63) :
    v.countIndex = .ok { v with indexBytes := n + 1 } := by
  unfold XzValidator.countIndex
  rw [hindex, checkedAdd_of_le (by unfold u64Max; omega)]
  rfl

/-! ### Records -/

/-- The state behind a field of a record. -/
def behindField (n remaining : ℕ) (field : Bool) : ValidationState :=
  if !field then .indexRecord remaining true {}
  else if remaining - 1 = 0 then padding n
  else .indexRecord (remaining - 1) false {}

theorem afterRecord_eq (v : XzValidator) (remaining : ℕ) (field : Bool) :
    v.afterRecord remaining field = { v with state := behindField v.indexBytes remaining field } := by
  unfold XzValidator.afterRecord behindField
  split_ifs <;> rfl

/-- A byte of a field. -/
theorem push_record {remaining : ℕ} {field : Bool} {vli vli' : Vli} {value : Option ℕ} {byte : Byte}
    (h : InIndex check n (.indexRecord remaining field vli) v) (hn : n < 2 ^ 63)
    (hvli : vli.push byte = .ok (vli', value)) :
    Passes usage v [byte] (InIndex check (n + 1) (match value with
      | some _ => behindField (n + 1) remaining field
      | none => .indexRecord remaining field vli')) := by
  cases value with
  | some value =>
    have hpush : v.push usage byte = .ok ({ v with
        indexBytes := n + 1
        state := behindField (n + 1) remaining field }, [byte]) := by
      unfold XzValidator.push
      rw [h.state]
      dsimp only
      rw [countIndex_eq h.indexBytes hn, ok_bind, hvli, ok_bind]
      dsimp only
      rw [afterRecord_eq]
    exact passes_one hpush rfl ⟨⟨rfl, h.held, h.checkSize⟩, rfl⟩
  | none =>
    have hpush : v.push usage byte = .ok ({ v with
        indexBytes := n + 1
        state := .indexRecord remaining field vli' }, [byte]) := by
      unfold XzValidator.push
      rw [h.state]
      dsimp only
      rw [countIndex_eq h.indexBytes hn, ok_bind, hvli, ok_bind]
    exact passes_one hpush rfl ⟨⟨rfl, h.held, h.checkSize⟩, rfl⟩

/-- A field of a record. -/
theorem passes_field {remaining : ℕ} {field : Bool} : ∀ {more x n : ℕ} {vli : Vli} {v : XzValidator},
    Seen more vli → x < 128 ^ (more + 1) → InIndex check n (.indexRecord remaining field vli) v →
    n + (groups more x).length < 2 ^ 63 →
    Passes usage v (groups more x) (InIndex check (n + (groups more x).length)
      (behindField (n + (groups more x).length) remaining field))
  | 0, x, n, vli, v, hseen, hx, h, hn =>
    push_record h (by omega) (hseen.push_last (by simpa using hx))
  | more + 1, x, n, vli, v, hseen, hx, h, hn => by
    unfold groups at hn ⊢
    by_cases hlast : x < 128
    · rw [if_pos hlast]
      exact push_record h (by omega) (hseen.push_last hlast)
    · rw [if_neg hlast, List.length_cons] at hn ⊢
      refine (push_record h (by omega) (hseen.push_more x)).trans fun v' h' => ?_
      have hrest : Passes usage v' (groups more (x / 128)) _ :=
        passes_field (seen_taking hseen (Nat.mod_lt _ (by decide)))
          (Nat.div_lt_of_lt_mul (by rwa [← pow_succ'])) h' (by omega)
      rwa [show n + ((groups more (x / 128)).length + 1) =
        n + 1 + (groups more (x / 128)).length by omega]

theorem passes_multibyte {remaining : ℕ} {field : Bool} (x : Multibyte)
    (h : InIndex check n (.indexRecord remaining field {}) v)
    (hn : n + (multibyte x).length < 2 ^ 63) :
    Passes usage v (multibyte x) (InIndex check (n + (multibyte x).length)
      (behindField (n + (multibyte x).length) remaining field)) :=
  passes_field seen_new x.2 h hn

/-- The records that are left. -/
theorem passes_records : ∀ {n : ℕ} {v : XzValidator} (r : Record) (records : List Record),
    InIndex check n (.indexRecord (records.length + 1) false {}) v →
    n + ((r :: records).flatMap Record.bytes).length < 2 ^ 63 →
    Passes usage v ((r :: records).flatMap Record.bytes)
      (InIndex check (n + ((r :: records).flatMap Record.bytes).length)
        (padding (n + ((r :: records).flatMap Record.bytes).length)))
  | n, v, r, records, h, hn => by
    rw [List.flatMap_cons] at hn ⊢
    rw [List.length_append, show r.bytes = multibyte r.unpadded ++ multibyte r.uncompressed from rfl,
      List.length_append] at hn ⊢
    have hrecord : Passes usage v (multibyte r.unpadded ++ multibyte r.uncompressed) _ :=
      (passes_multibyte r.unpadded h (by omega)).trans fun v' h' =>
        passes_multibyte r.uncompressed h' (by omega)
    refine hrecord.trans fun v' h' => ?_
    rw [← Nat.add_assoc, ← Nat.add_assoc]
    cases records with
    | nil => exact passes_nil h'
    | cons next records => exact passes_records next records h' (by omega)

/-! ### The record count -/

theorem push_count {vli vli' : Vli} {value : Option ℕ} {byte : Byte}
    (hstate : v.state = .indexCount vli) (hn : v.indexBytes < 2 ^ 63)
    (hvli : vli.push byte = .ok (vli', value)) :
    v.push usage byte = match value with
      | none => .ok ({ v with
          held := v.held ++ [byte]
          indexBytes := v.indexBytes + 1
          state := .indexCount vli' }, [])
      | some records => validateIndexMemory records v.codecMemory >>= fun _ => .ok ({ v with
          held := []
          indexBytes := v.indexBytes + 1
          state := if records = 0 then padding (v.indexBytes + 1)
            else .indexRecord records false {} }, v.held ++ [byte]) := by
  unfold XzValidator.push
  rw [hstate]
  dsimp only
  unfold XzValidator.pushIndexCount
  rw [@countIndex_eq v.indexBytes { v with held := v.held ++ [byte] } rfl hn, ok_bind]
  simp only [hvli, ok_bind]
  cases value with
  | none => rfl
  | some records =>
    dsimp only
    congr 1
    funext _
    by_cases hzero : records = 0
    · rw [if_pos hzero, if_pos hzero]
      rfl
    · rw [if_neg hzero, if_neg hzero]
      rfl

/-- A record count up to its last byte, which decides. -/
theorem pushAll_countStart : ∀ {more x : ℕ} {vli : Vli} {v : XzValidator},
    Seen more vli → x < 128 ^ (more + 1) → v.state = .indexCount vli →
    v.indexBytes + (groups more x).length < 2 ^ 63 →
    ∃ start last vli' vli'', groups more x = start ++ [last] ∧
      vli'.push last = .ok (vli'', some (vli.value + x * 2 ^ vli.shift)) ∧
      pushAll usage v start = .ok ({ v with
        held := v.held ++ start
        indexBytes := v.indexBytes + start.length
        state := .indexCount vli' }, [])
  | 0, x, vli, v, hseen, hx, hstate, _ => by
    refine ⟨[], UInt8.ofNat x, vli, _, rfl, hseen.push_last (by simpa using hx), ?_⟩
    rw [List.append_nil, ← hstate]
    rfl
  | more + 1, x, vli, v, hseen, hx, hstate, hn => by
    unfold groups at hn ⊢
    by_cases hlast : x < 128
    · rw [if_pos hlast]
      refine ⟨[], UInt8.ofNat x, vli, _, rfl, hseen.push_last hlast, ?_⟩
      rw [List.append_nil, ← hstate]
      rfl
    · rw [if_neg hlast, List.length_cons] at hn
      rw [if_neg hlast]
      have hpush := @push_count usage v vli _ _ _ hstate (by omega) (hseen.push_more x)
      obtain ⟨start, last, vli', vli'', hsplit, hvli, hstart⟩ := @pushAll_countStart more (x / 128)
        (taking vli (x % 128)) { v with
          held := v.held ++ [UInt8.ofNat (x % 128 + 128)]
          indexBytes := v.indexBytes + 1
          state := .indexCount (taking vli (x % 128)) }
        (seen_taking hseen (Nat.mod_lt _ (by decide)))
        (Nat.div_lt_of_lt_mul (by rwa [← pow_succ'])) rfl (by
          change v.indexBytes + 1 + _ < _
          omega)
      rw [value_taking] at hvli
      refine ⟨UInt8.ofNat (x % 128 + 128) :: start, last, vli', vli'', by rw [hsplit]; rfl, hvli, ?_⟩
      rw [pushAll_cons, hpush]
      dsimp only
      rw [ok_bind, hstart, List.append_assoc, Nat.add_assoc, Nat.add_comm 1]
      rfl

/-- **The record count goes to the decoder if the index is within the limit.** -/
theorem pushAll_count (records : Multibyte) (h : InIndex check n (.indexCount {}) v)
    (hn : n + (multibyte records).length < 2 ^ 63) :
    pushAll usage v (multibyte records) =
      (validateIndexMemory records v.codecMemory >>= fun _ => .ok ({ v with
        indexBytes := n + (multibyte records).length
        state := if records.1 = 0 then padding (n + (multibyte records).length)
          else .indexRecord records false {} }, multibyte records)) := by
  obtain ⟨start, last, vli, vli', hsplit, hvli, hstart⟩ := @pushAll_countStart usage 8 records {} v
    seen_new records.2 h.state (by rwa [h.indexBytes])
  rw [show ({} : Vli).value + records.1 * 2 ^ ({} : Vli).shift = records.1 by
    change 0 + records.1 * 1 = _
    omega] at hvli
  have hlength : (multibyte records).length = start.length + 1 := by
    unfold multibyte
    rw [hsplit, List.length_append, List.length_singleton]
  have hlast := @push_count usage { v with
    held := v.held ++ start
    indexBytes := v.indexBytes + start.length
    state := .indexCount vli } vli vli' (some records.1) last rfl (by
      change v.indexBytes + start.length < _
      rw [h.indexBytes]
      omega) hvli
  rw [hlength] at hn ⊢
  have hbytes : multibyte records = start ++ [last] := hsplit
  rw [hbytes, pushAll_append, hstart, ok_bind, pushAll_cons, hlast, h.held, h.indexBytes]
  dsimp only
  cases validateIndexMemory records.1 v.codecMemory with
  | error _ => rfl
  | ok _ =>
    change Except.ok (_, [] ++ ([] ++ start ++ [last] ++ [])) = _
    rw [List.append_nil]
    rfl

end LibarchiveOxide.Filter.Indexed

/-! # The validator and the envelope of XZ

Without a limit the validator lets every well-formed file through as it is, however it comes in; with a
limit no byte of a block header or of a record count that asks for too much gets past it. -/

namespace LibarchiveOxide.Filter.Envelope

open Core.Failure Lib.Result Filter.Xz Filter.XzFormat Filter.Following Filter.Indexed

variable {usage : ℕ → ℕ} {memory : Option ℕ} {check n : ℕ} {v : XzValidator}

/-! ### Streams -/

/-- The byte that tells the index from a block header. -/
theorem passes_indexMarker (h : At check .blockHeaderSize v) :
    Passes usage v [0] (InIndex check 1 (.indexCount {})) := by
  have hpush : v.push usage 0 = .ok ({ v with
      held := []
      indexBytes := 1
      state := .indexCount {} }, [0]) := by
    unfold XzValidator.push
    rw [h.state]
    unfold XzValidator.pushBlockHeaderSize
    dsimp only
    rw [if_pos rfl, h.held]
    rfl
  exact passes_one hpush rfl ⟨⟨rfl, rfl, h.checkSize⟩, rfl⟩

/-- The index of a stream up to its padding. -/
theorem passes_index (records : List Record) (hn : (indexBytes records).length < 2 ^ 36)
    (h : At check .blockHeaderSize v) :
    Passes usage v (indexBytes records)
      (At check (Indexed.padding (indexBytes records).length)) := by
  have hlength : (indexBytes records).length =
      1 + ((multibyte records.length).length + (records.flatMap Record.bytes).length) := by
    unfold indexBytes
    rw [List.length_cons, List.length_append]
    omega
  have hmany : ∀ rs : List Record, rs.length ≤ (rs.flatMap Record.bytes).length := by
    intro rs
    induction rs with
    | nil => exact Nat.zero_le _
    | cons r rs ih =>
      rw [List.flatMap_cons, List.length_append, List.length_cons]
      have hpos : 0 < r.bytes.length := by
        unfold Record.bytes
        rw [List.length_append]
        exact Nat.add_pos_left (length_groups_pos 8 _) _
      omega
  have hfew := hmany records
  have hrecords : records.length < 2 ^ 63 := by omega
  have hcount : ∀ v', InIndex check 1 (.indexCount {}) v' →
      Passes usage v' (multibyte records.length) (InIndex check (1 + (multibyte records.length).length)
        (if records.length = 0 then Indexed.padding (1 + (multibyte records.length).length)
          else .indexRecord records.length false {})) := by
    intro v' h'
    have hpush := @pushAll_count usage check 1 v' ⟨records.length, hrecords⟩ h' (by
      change 1 + (multibyte records.length).length < _
      omega)
    cases hmemory : validateIndexMemory records.length v'.codecMemory with
    | ok _ =>
      dsimp only at hpush
      rw [hmemory, ok_bind] at hpush
      exact .inl ⟨_, hpush, rfl, ⟨rfl, h'.held, h'.checkSize⟩, rfl⟩
    | error error =>
      dsimp only at hpush
      rw [hmemory, error_bind] at hpush
      refine .inr ⟨fun hnone => ?_, error, hpush⟩
      unfold validateIndexMemory at hmemory
      rw [hnone, checkedMul_of_le (by unfold u64Max indexRecordBytes; omega)] at hmemory
      cases hmemory
  refine (passes_indexMarker h).trans fun v₁ h₁ => (hcount v₁ h₁).trans fun v₂ h₂ => ?_
  rw [hlength, ← Nat.add_assoc]
  cases records with
  | nil => exact passes_nil h₂.toAt
  | cons r records =>
    exact (passes_records r records h₂ (by omega)).imp fun v' h' => h'.toAt

theorem passes_indexPadding (h : At check (Indexed.padding n) v) :
    Passes usage v (alignment n) (At check (.indexCrc 4)) := by
  have hdown : ∀ size : ℕ, At check (if size = 0 then .indexCrc 4 else .indexPadding size) v →
      Passes usage v (List.replicate size 0) (At check (.indexCrc 4)) := fun size h => by
    refine @passes_down usage check v .indexPadding _ (fun k v byte h => ?_) _
      (by rwa [List.length_replicate])
    unfold XzValidator.push
    rw [h.state]
    rfl
  exact hdown _ h

theorem passes_indexCrc (crc : List Byte) (hlength : crc.length = 4)
    (h : At check (.indexCrc 4) v) : Passes usage v crc (At check (.footer 12)) := by
  refine @passes_down usage check v .indexCrc _ (fun k v byte h => ?_) _ (by rwa [hlength])
  unfold XzValidator.push
  rw [h.state]
  rfl

/-- Where a stream may begin. -/
structure Begins (v : XzValidator) : Prop where
  state : v.state = .streamHeader ∨ v.state = .streamPadding ∧ v.streamPadding % 4 = 0
  held : v.held = []

/-- Behind a number of bytes of padding. -/
structure Padded (count : ℕ) (v : XzValidator) : Prop where
  state : v.state = .streamPadding
  count : v.streamPadding = count
  held : v.held = []

theorem passes_footer (footer : List Byte) (hlength : footer.length = 12)
    (h : At check (.footer 12) v) : Passes usage v footer (Padded 0) := by
  have hcount := @passes_count usage (fun k v' =>
    if k = 0 then Padded 0 v' else v'.state = .footer k ∧ v'.held = []) ?_ footer v ?_
  · exact hcount.imp fun v' h' => by rwa [if_pos rfl] at h'
  · intro k v byte h
    rw [if_neg (Nat.succ_ne_zero k)] at h
    by_cases hlast : k = 0
    · refine ⟨{ v with streamPadding := 0, state := .streamPadding }, ?_, rfl, ?_⟩
      · unfold XzValidator.push
        rw [h.1, hlast]
        rfl
      · rw [if_pos hlast]
        exact ⟨rfl, rfl, h.2⟩
    · refine ⟨{ v with state := .footer k }, ?_, rfl, ?_⟩
      · unfold XzValidator.push
        rw [h.1]
        dsimp only
        rw [Nat.add_sub_cancel, if_neg hlast]
      · rw [if_neg hlast]
        exact ⟨rfl, h.2⟩
  · rw [hlength]
    exact ⟨h.state, h.held⟩

/-- A zero byte of the padding. -/
theorem push_padding (h : Padded n v) : v.push usage 0 =
    if n + 1 ≤ u64Max then .ok ({ v with streamPadding := n + 1 }, [0])
    else .error (malformed "XZ stream padding length overflow") := by
  unfold XzValidator.push
  rw [h.state]
  dsimp only
  rw [if_pos rfl, h.count]
  unfold checkedAdd
  by_cases hle : n + 1 ≤ u64Max
  · rw [if_pos hle, if_pos hle]
    rfl
  · rw [if_neg hle, if_neg hle]
    rfl

theorem passes_padding : ∀ (count : ℕ) {n : ℕ} {v : XzValidator}, Padded n v →
    n + count ≤ u64Max ∨ v.codecMemory ≠ none →
    Passes usage v (List.replicate count 0) (Padded (n + count))
  | 0, _, _, h, _ => passes_nil h
  | count + 1, n, v, h, hle => by
    have hpush := @push_padding usage n v h
    by_cases hfits : n + 1 ≤ u64Max
    · rw [if_pos hfits] at hpush
      have hfirst : Passes usage v [0] (Padded (n + 1)) :=
        passes_one hpush rfl ⟨h.state, rfl, h.held⟩
      rw [List.replicate_succ, show n + (count + 1) = n + 1 + count by omega]
      refine hfirst.andMemory.trans fun v' h' => passes_padding count h'.1 ?_
      rw [h'.2]
      exact hle.imp_left fun hle => by omega
    · rw [if_neg hfits] at hpush
      refine .inr ⟨hle.resolve_left (by omega), malformed "XZ stream padding length overflow", ?_⟩
      rw [List.replicate_succ, pushAll_cons, hpush]
      rfl

theorem checkSizeOf_flag (c : Check) : XzValidator.checkSizeOf c.flag = .ok c.size := by
  cases c <;> rfl

/-- The last byte of a stream header. -/
theorem push_streamHeader {byte : Byte} {c : Check} (hstate : v.state = .streamHeader)
    (hlength : (v.held ++ [byte]).length = 12) (hmagic : (v.held ++ [byte]).take 6 = xzMagic)
    (hflags : (v.held ++ [byte]).getD 6 0 = 0) (hcheck : (v.held ++ [byte]).getD 7 0 = c.flag) :
    v.push usage byte = .ok ({ v with
      held := []
      checkSize := c.size
      state := .blockHeaderSize }, v.held ++ [byte]) := by
  unfold XzValidator.push
  rw [hstate]
  dsimp only
  unfold XzValidator.pushStreamHeader
  dsimp only
  rw [if_pos hlength, if_neg (not_not.mpr hmagic), if_neg (not_not.mpr hflags), hcheck,
    checkSizeOf_flag, ok_bind]
  rfl

theorem passes_header (s : Stream) (h : Begins v) :
    Passes usage v s.header (At s.check.size .blockHeaderSize) := by
  obtain ⟨a, b, c, d, hcrc⟩ : ∃ a b c d, s.headerCrc = [a, b, c, d] := by
    match hcrc : s.headerCrc, s.headerCheck with
    | [a, b, c, d], _ => exact ⟨a, b, c, d, rfl⟩
  have hheader : s.header =
      0xfd :: ([0x37, 0x7a, 0x58, 0x5a, 0x00, 0, s.check.flag, a, b, c] ++ [d]) := by
    unfold Stream.header
    rw [hcrc]
    rfl
  have hfirst : v.push usage 0xfd = .ok ({ v with held := [0xfd], state := .streamHeader }, []) := by
    unfold XzValidator.push
    rcases h.state with hstate | ⟨hstate, hpadding⟩
    · rw [hstate]
      dsimp only
      unfold XzValidator.pushStreamHeader
      dsimp only
      rw [h.held, hstate]
      rfl
    · rw [hstate]
      dsimp only
      rw [if_neg (by decide), if_neg (not_not.mpr hpadding), h.held]
      rfl
  have hrest := @pushAll_holding usage .streamHeader 12 (fun v' byte hstate hheld => by
      unfold XzValidator.push
      rw [hstate]
      dsimp only
      unfold XzValidator.pushStreamHeader
      dsimp only
      rw [if_neg (by rw [List.length_append, List.length_singleton]; omega), hstate])
    [0x37, 0x7a, 0x58, 0x5a, 0x00, 0, s.check.flag, a, b, c]
    { v with held := [0xfd], state := .streamHeader } rfl
    (show 1 + 10 < 12 by decide)
  have hlast := @push_streamHeader usage { v with
    held := [0xfd] ++ [0x37, 0x7a, 0x58, 0x5a, 0x00, 0, s.check.flag, a, b, c]
    state := .streamHeader } d s.check rfl rfl rfl rfl rfl
  refine .inl ⟨{ v with held := [], checkSize := s.check.size, state := .blockHeaderSize }, ?_, rfl,
    rfl, rfl, rfl⟩
  rw [hheader, pushAll_cons, hfirst, ok_bind, pushAll_append, hrest, ok_bind, pushAll_cons, hlast]
  rfl

/-- **A stream.** -/
theorem passes_stream (s : Stream) (h : Begins v) : Passes usage v s.bytes (Padded 0) := by
  have hsize := s.backward_eq
  have hlt := s.backward_lt
  have hfooter : s.footer.length = 12 := by
    unfold Stream.footer
    rw [List.length_append, List.length_append, List.length_append, s.footerCheck,
      Lib.LittleEndian.length_leBytes]
    rfl
  have hblocks : Passes usage v (s.header ++ s.blocks.flatMap Block.bytes) _ :=
    (passes_header s h).trans fun v' h' => passes_blocks s.blocks s.checks h'
  have hindex : Passes usage v (s.header ++ s.blocks.flatMap Block.bytes ++ s.index)
      (At s.check.size (.footer 12)) := by
    refine hblocks.trans fun v' h' => ?_
    have hcovered : Passes usage v' (indexBytes s.records ++ alignment (indexBytes s.records).length)
        _ := (passes_index s.records (by omega) h').trans fun v'' h'' => passes_indexPadding h''
    exact hcovered.trans fun v'' h'' => passes_indexCrc s.indexCrc s.indexCheck h''
  exact hindex.trans fun v' h' => passes_footer s.footer hfooter h'

theorem Padded.begins (h : Padded (4 * n) v) : Begins v where
  state := .inr ⟨h.state, by rw [h.count]; omega⟩
  held := h.held

/-- **A file.** Without a limit the padding must not overflow its counter. -/
theorem passes_file : ∀ {v : XzValidator} (file : File),
    (∀ s ∈ file, 4 * s.2 ≤ u64Max) ∨ v.codecMemory ≠ none → Begins v →
    Passes usage v (fileBytes file) Begins
  | _, [], _, h => passes_nil h
  | v, s :: file, hpadding, h => by
    have hstream : Passes usage v (padded s) Begins := by
      refine (passes_stream s.1 h).andMemory.trans fun v' h' => ?_
      have hzeros : Passes usage v' (List.replicate (4 * s.2) 0) _ := passes_padding (4 * s.2) h'.1 (by
        rw [Nat.zero_add, h'.2]
        exact hpadding.imp_left fun hpadding => hpadding s List.mem_cons_self)
      rw [Nat.zero_add] at hzeros
      exact hzeros.imp fun v'' h'' => h''.begins
    refine hstream.andMemory.trans fun v' h' => passes_file file ?_ h'.1
    rw [h'.2]
    exact hpadding.imp_left fun hpadding s' hs' => hpadding s' (List.mem_cons_of_mem s hs')

end LibarchiveOxide.Filter.Envelope
