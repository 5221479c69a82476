import LibarchiveOxide.Filter.Envelope

/-! # The limit on the memory of the XZ decoder

With a limit no byte of a block header or of a record count that asks for too much is appended to the
pending input, whatever comes behind it. -/

namespace LibarchiveOxide.Filter.MemoryGate

open Core.Failure Lib.Result Filter.Xz Filter.XzFormat Filter.Following Filter.Indexed
open Filter.Envelope

variable {usage : ℕ → ℕ} {check : ℕ} {v : XzValidator}

/-! ### What is appended -/

/-- What a push that fails has appended before it fails. -/
def refused (v : XzValidator) (byte : Byte) : List Byte :=
  match v.state with
  | .lzmaControl | .lzmaUncompressedSize _ | .lzmaCompressedHeader _ _ | .lzmaPayload _
  | .indexRecord _ _ _ => [byte]
  | .streamPadding => if byte = 0 then [byte] else []
  | _ => []

/-- Everything that is appended to the pending input, up to the first failure. -/
def appended (usage : ℕ → ℕ) : XzValidator → List Byte → List Byte
  | _, [] => []
  | v, byte :: bytes =>
    match v.push usage byte with
    | .ok (v', out) => out ++ appended usage v' bytes
    | .error _ => refused v byte

theorem appended_append {out : List Byte} {v' : XzValidator} : ∀ {v : XzValidator} {first : List Byte},
    pushAll usage v first = .ok (v', out) → ∀ second : List Byte,
    appended usage v (first ++ second) = out ++ appended usage v' second := by
  intro v first
  induction first generalizing v out with
  | nil =>
    intro h second
    cases h
    rfl
  | cons byte first ih =>
    intro h second
    rw [pushAll_cons] at h
    obtain ⟨⟨v₁, released⟩, hpush, h⟩ := bind_eq_ok.mp h
    obtain ⟨⟨v₂, more⟩, hrest, h⟩ := bind_eq_ok.mp h
    cases h
    rw [List.cons_append, appended, hpush]
    dsimp only
    rw [ih hrest, List.append_assoc]

/-- Only bytes that were pushed are appended. -/
theorem appended_isPrefix : ∀ {bytes : List Byte} {v : XzValidator}, XzValidator.Fits v →
    appended usage v bytes <+: v.held ++ bytes
  | [], v, _ => List.nil_prefix
  | byte :: bytes, v, hfits => by
    rw [appended]
    cases hpush : v.push usage byte with
    | ok r =>
      obtain ⟨v', out⟩ := r
      obtain ⟨hkept, hfits'⟩ := XzValidator.keeps_push hfits hpush
      dsimp only at hkept hfits' ⊢
      rw [List.append_cons, ← hkept, List.append_assoc, List.prefix_append_right_inj]
      exact appended_isPrefix hfits'
    | error _ =>
      have hplain : XzValidator.capacity v.state = 0 → [byte] <+: v.held ++ byte :: bytes := fun h => by
        rw [hfits.nil h]
        exact ⟨bytes, rfl⟩
      dsimp only
      unfold refused
      split
      · exact hplain (by rename_i hstate; rw [hstate]; rfl)
      · exact hplain (by rename_i hstate; rw [hstate]; rfl)
      · exact hplain (by rename_i hstate; rw [hstate]; rfl)
      · exact hplain (by rename_i hstate; rw [hstate]; rfl)
      · exact hplain (by rename_i hstate; rw [hstate]; rfl)
      · rename_i hstate
        split_ifs
        · exact hplain (by rw [hstate]; rfl)
        · exact List.nil_prefix
      · exact List.nil_prefix

/-- More input only adds. -/
theorem appended_mono : ∀ {first second : List Byte} {v : XzValidator}, first <+: second →
    appended usage v first <+: appended usage v second
  | [], _, _, _ => List.nil_prefix
  | byte :: first, second, v, h => by
    obtain ⟨rest, rfl⟩ := h
    rw [List.cons_append, appended, appended]
    cases v.push usage byte with
    | ok r => exact (List.prefix_append_right_inj r.2).mpr (appended_mono (List.prefix_append _ _))
    | error _ => exact List.prefix_refl _

theorem appended_error {error : ArchiveError} : ∀ {v : XzValidator} {first : List Byte},
    pushAll usage v first = .error error → ∀ second : List Byte,
    appended usage v (first ++ second) = appended usage v first := by
  intro v first
  induction first generalizing v with
  | nil => exact nofun
  | cons byte first ih =>
    intro h second
    rw [List.cons_append, appended, appended]
    rw [pushAll_cons] at h
    cases hpush : v.push usage byte with
    | error _ => rfl
    | ok r =>
      rw [hpush, ok_bind] at h
      rcases bind_eq_error.mp h with hrest | ⟨_, _, h⟩
      · dsimp only
        rw [ih hrest]
      · cases h

/-- **Nothing behind a position is appended** if nothing is from there on. -/
theorem appended_before {P : XzValidator → Prop} {before bytes : List Byte}
    (hpasses : Passes usage v before P) (hfits : XzValidator.Fits v) (hheld : v.held = [])
    (hnothing : ∀ v', P v' → v'.codecMemory = v.codecMemory → appended usage v' bytes = []) :
    appended usage v (before ++ bytes) <+: before := by
  obtain ⟨v', hpush, hmemory, hp⟩ | ⟨-, error, hpush⟩ := hpasses
  · rw [appended_append hpush, hnothing v' hp hmemory, List.append_nil]
  · rw [appended_error hpush]
    have hsub := @appended_isPrefix usage before v hfits
    rwa [hheld, List.nil_append] at hsub

/-! ### Block headers -/

theorem parseVli_at {covered front rest : List Byte} (n : Multibyte)
    (h : covered = front ++ multibyte n ++ rest) :
    parseVli (covered.drop front.length) {} front.length =
      .ok (n.1, (front ++ multibyte n).length) := by
  rw [h, List.append_assoc, List.drop_left, parseVli_multibyte, List.length_append]

theorem decodeDictionary_eq (h : HeaderFields) : decodeDictionary h.property = .ok h.dictionary := by
  have hvalid := h.valid
  unfold decodeDictionary HeaderFields.dictionary
  dsimp only
  rw [if_neg (by omega)]
  split_ifs
  · rfl
  · rw [Nat.shiftLeft_eq, show 2 ||| h.property.toNat % 2 = 2 + h.property.toNat % 2 by
      rcases Nat.mod_two_eq_zero_or_one h.property.toNat with hbit | hbit <;> rw [hbit] <;> rfl]

/-- A filter that passes is within the limit, and so are the others. -/
theorem validateFilters_step {header front rest : List Byte} {limit dataEnd k : ℕ} {f : FilterFlags}
    (hcovered : header.take dataEnd = front ++ f.bytes ++ rest)
    (hok : validateFilters usage header limit dataEnd (k + 1) front.length = .ok ()) :
    (f.id.1 = 0x21 → ∃ dictionary,
      decodeDictionary
        (header.getD (front ++ multibyte f.id ++ multibyte f.properties.length).length 0) =
          .ok dictionary ∧ usage dictionary * 1024 ≤ limit) ∧
    validateFilters usage header limit dataEnd k (front ++ f.bytes).length = .ok () := by
  unfold validateFilters at hok
  obtain ⟨⟨filter, offset⟩, hfilter, hok⟩ := bind_eq_ok.mp hok
  obtain ⟨⟨properties, offset'⟩, hproperties, hok⟩ := bind_eq_ok.mp hok
  have hid := @parseVli_at (header.take dataEnd) front
    (multibyte f.properties.length ++ f.properties ++ rest) f.id (by
      rw [hcovered]
      unfold FilterFlags.bytes
      simp only [List.append_assoc])
  rw [hfilter] at hid
  cases hid
  have hsize := @parseVli_at (header.take dataEnd) (front ++ multibyte f.id) (f.properties ++ rest)
    ⟨f.properties.length, f.short⟩ (by
      rw [hcovered]
      unfold FilterFlags.bytes
      simp only [List.append_assoc])
  rw [hproperties] at hsize
  cases hsize
  obtain ⟨-, hok⟩ := guard_eq_ok.mp hok
  have hnext : (front ++ multibyte f.id ++ multibyte f.properties.length).length +
      f.properties.length = (front ++ f.bytes).length := by
    unfold FilterFlags.bytes
    simp only [List.length_append]
    omega
  dsimp only at hok
  by_cases hlzma : f.id.1 = 0x21
  · rw [if_pos hlzma] at hok
    obtain ⟨-, hok⟩ := guard_eq_ok.mp hok
    obtain ⟨dictionary, hdictionary, hok⟩ := bind_eq_ok.mp hok
    obtain ⟨hwithin, hok⟩ := guard_eq_ok.mp hok
    rw [hnext] at hok
    exact ⟨fun _ => ⟨dictionary, hdictionary, not_lt.mp hwithin⟩, hok⟩
  · rw [if_neg hlzma, hnext] at hok
    exact ⟨fun h => absurd h hlzma, hok⟩

/-- **The filters do not pass** if the last one asks for too much. -/
theorem validateFilters_over {header behind : List Byte} {limit dataEnd : ℕ} {h : HeaderFields}
    (hover : limit < usage h.dictionary * 1024) : ∀ (filters : List FilterFlags) (front : List Byte),
    header.take dataEnd =
      front ++ (filters ++ [h.lzma2]).flatMap FilterFlags.bytes ++ behind →
    validateFilters usage header limit dataEnd (filters.length + 1) front.length ≠ .ok ()
  | [], front, hcovered, hok => by
    rw [List.nil_append, List.flatMap_singleton] at hcovered
    obtain ⟨hlast, -⟩ := validateFilters_step hcovered hok
    obtain ⟨dictionary, hdictionary, hwithin⟩ := hlast rfl
    have hproperty : header.getD (front ++ multibyte h.lzma2.id ++
        multibyte h.lzma2.properties.length).length 0 = h.property := by
      have hsplit : header = (front ++ multibyte h.lzma2.id ++ multibyte h.lzma2.properties.length) ++
          (h.property :: (behind ++ header.drop dataEnd)) := by
        conv_lhs => rw [← List.take_append_drop dataEnd header, hcovered]
        unfold FilterFlags.bytes
        simp only [List.append_assoc]
        rfl
      rw [hsplit, List.getD_eq_getElem?_getD, List.getElem?_append_right le_rfl, Nat.sub_self]
      rfl
    rw [hproperty, decodeDictionary_eq] at hdictionary
    cases hdictionary
    exact absurd hover (not_lt.mpr hwithin)
  | f :: filters, front, hcovered, hok => by
    rw [List.cons_append, List.flatMap_cons, ← List.append_assoc] at hcovered
    obtain ⟨-, hrest⟩ := validateFilters_step (hcovered.trans (List.append_assoc _ _ _)) hok
    exact validateFilters_over hover filters (front ++ f.bytes) hcovered hrest

/-- An optional size is skipped. -/
theorem skip_sizeField {covered front rest : List Byte} {offset : ℕ} {size : Option Multibyte}
    (hoffset : front.length = offset) (h : covered = front ++ sizeField size ++ rest)
    (next : ℕ → Except ArchiveError Unit) :
    (if size.isSome.toNat = 1 then
      (parseVli (covered.drop offset) {} offset).map Prod.snd >>= next
    else .ok offset >>= next) = next (front ++ sizeField size).length := by
  subst hoffset
  cases size with
  | none =>
    rw [sizeField, List.append_nil]
    rfl
  | some n =>
    rw [show (some n).isSome.toNat = 1 from rfl, if_pos rfl, parseVli_at n h]
    rfl

theorem flags_bits (h : HeaderFields) :
    h.flags.toNat / 0x40 % 2 = h.compressed.isSome.toNat ∧
      h.flags.toNat / 0x80 % 2 = h.uncompressed.isSome.toNat ∧
      h.flags.toNat % 4 = h.filters.length := by
  have hfew := h.few
  have hcompressed := Bool.toNat_le h.compressed.isSome
  have huncompressed := Bool.toNat_le h.uncompressed.isSome
  unfold HeaderFields.flags
  rw [toNat_ofNat (by omega)]
  omega

/-- **A block header does not pass** if its dictionary asks for too much. -/
theorem validateBlockMemory_over {header : BlockHeader} {limit : ℕ}
    (hover : limit < usage header.dictionary * 1024) :
    validateBlockMemory usage header.bytes (some limit) ≠ .ok () := by
  intro hok
  obtain ⟨hcompressed, huncompressed, hfilters⟩ := flags_bits header.toHeaderFields
  have hend : header.bytes.length - 4 = header.covered.length := by
    unfold BlockHeader.bytes
    rw [List.length_append, header.check, Nat.add_sub_cancel]
  have htake : header.bytes.take header.covered.length = header.covered := List.take_left
  have hcovered : header.covered = [UInt8.ofNat header.words, header.flags] ++
      sizeField header.compressed ++ sizeField header.uncompressed ++
        (header.filters ++ [header.lzma2]).flatMap FilterFlags.bytes ++
          List.replicate header.padding 0 := by
    unfold BlockHeader.covered HeaderFields.bytes
    simp only [List.append_assoc]
    rfl
  unfold validateBlockMemory at hok
  obtain ⟨-, hok⟩ := guard_eq_ok.mp hok
  dsimp only at hok
  rw [show header.bytes.getD 1 0 = header.flags from rfl, hcompressed, huncompressed, hfilters, hend,
    htake] at hok
  have hsizes : header.covered = [UInt8.ofNat header.words, header.flags] ++
      sizeField header.compressed ++ (sizeField header.uncompressed ++
        ((header.filters ++ [header.lzma2]).flatMap FilterFlags.bytes ++
          List.replicate header.padding 0)) := by
    rw [hcovered]
    simp only [List.append_assoc]
  have htwo : [UInt8.ofNat header.words, header.flags].length = 2 := rfl
  rw [skip_sizeField htwo hsizes, skip_sizeField rfl
    (hsizes.trans (List.append_assoc _ (sizeField header.uncompressed) _).symm)] at hok
  exact validateFilters_over hover header.filters _ (htake.trans hcovered) hok

theorem appended_header {m : ℕ} (h : At check .blockHeaderSize v) (hmemory : v.codecMemory = some m)
    {header : BlockHeader} (hover : m < usage header.dictionary * 1024) (rest : List Byte) :
    appended usage v (header.bytes ++ rest) = [] := by
  obtain ⟨start, last, hsplit⟩ := bytes_eq_append header
  have hstart := @pushAll_headerStart usage check v h header start last hsplit
  have hlast := @push_blockHeader usage { v with
    held := start
    state := .blockHeader header.bytes.length } header.bytes.length rfl last
  dsimp only at hlast
  rw [hmemory, ← hsplit, if_pos rfl] at hlast
  rw [hsplit, List.append_assoc, appended_append hstart, List.nil_append, List.singleton_append,
    appended, hmemory, hlast]
  cases hvalid : validateBlockMemory usage header.bytes (some m) with
  | ok _ => exact absurd hvalid (validateBlockMemory_over hover)
  | error _ => rfl

/-! ### Record counts -/

theorem validateIndexMemory_over {m records : ℕ} (hover : m < records * indexRecordBytes) :
    validateIndexMemory records (some m) ≠ .ok () := by
  intro hok
  obtain ⟨required, hrequired, hok⟩ := bind_eq_ok.mp hok
  obtain ⟨rfl, -⟩ := checkedMul_eq_some.mp (okOr_eq_ok.mp hrequired)
  rw [show (some m).any (fun limit => decide (limit < records * indexRecordBytes)) =
    decide (m < records * indexRecordBytes) from rfl, decide_eq_true hover] at hok
  cases hok

theorem appended_count {m : ℕ} (h : InIndex check 1 (.indexCount {}) v)
    (hmemory : v.codecMemory = some m) {records : Multibyte}
    (hover : m < records.1 * indexRecordBytes) (rest : List Byte) :
    appended usage v (multibyte records ++ rest) = [] := by
  have hshort : ∀ more x : ℕ, (groups more x).length ≤ more + 1 := by
    intro more
    induction more with
    | zero => exact fun _ => le_rfl
    | succ more ih =>
      intro x
      unfold groups
      split_ifs
      · exact Nat.succ_le_succ (Nat.zero_le _)
      · exact Nat.succ_le_succ (ih _)
  have hbytes := hshort 8 records
  obtain ⟨start, last, vli, vli', hsplit, hvli, hstart⟩ := @pushAll_countStart usage 8 records {} v
    seen_new records.2 h.state (by rw [h.indexBytes]; omega)
  rw [show ({} : Vli).value + records.1 * 2 ^ ({} : Vli).shift = records.1 by
    change 0 + records.1 * 1 = _
    omega] at hvli
  have hlength : (groups 8 records).length = start.length + 1 := by
    rw [hsplit, List.length_append, List.length_singleton]
  have hlast := @push_count usage { v with
    held := v.held ++ start
    indexBytes := v.indexBytes + start.length
    state := .indexCount vli } vli vli' (some records.1) last rfl (by
      change v.indexBytes + start.length < _
      rw [h.indexBytes]
      omega) hvli
  dsimp only at hlast
  rw [multibyte, hsplit, List.append_assoc, appended_append hstart, List.nil_append,
    List.singleton_append, appended, hlast, hmemory]
  cases hvalid : validateIndexMemory records.1 (some m) with
  | ok _ => exact absurd hvalid (validateIndexMemory_over hover)
  | error _ => rfl

/-! ### The whole input -/

/-- `XzValidator::new`. -/
def new (memory : Option ℕ) : XzValidator := { codecMemory := memory }

theorem begins_new (memory : Option ℕ) : Begins (new memory) := ⟨.inl rfl, rfl⟩

theorem fits_new (memory : Option ℕ) : XzValidator.Fits (new memory) := ⟨Nat.zero_le _, trivial⟩

/-- Pushes the slices in which the input comes. -/
def pushSlices (usage : ℕ → ℕ) :
    XzValidator → List (List Byte) → Except ArchiveError (XzValidator × List Byte)
  | v, [] => .ok (v, [])
  | v, slice :: slices => do
    let (v, out) ← pushAll usage v slice
    let (v, more) ← pushSlices usage v slices
    .ok (v, out ++ more)

/-- How the input is cut does not matter. -/
theorem pushSlices_eq : ∀ (v : XzValidator) (slices : List (List Byte)),
    pushSlices usage v slices = pushAll usage v slices.flatten
  | _, [] => rfl
  | v, slice :: slices => by
    rw [List.flatten_cons, pushAll_append, pushSlices]
    congr 1
    funext r
    rw [← pushSlices_eq r.1 slices]

theorem passes_beforeBlock {before : List Byte} (h : BeforeBlock before) {m : ℕ} :
    ∃ check, Passes usage (new (some m)) before (At check .blockHeaderSize) := by
  obtain ⟨file, s, done, rfl⟩ := h
  have hfile : Passes usage (new (some m)) (fileBytes file) Begins :=
    passes_file file (.inr nofun) (begins_new _)
  have hheader : Passes usage (new (some m)) (fileBytes file ++ s.header) _ :=
    hfile.trans fun v' h' => passes_header s h'
  exact ⟨_, hheader.trans fun v' h' => passes_blocks _
    (fun b hb => s.checks b (List.mem_of_mem_take hb)) h'⟩

theorem passes_beforeCount {before : List Byte} (h : BeforeCount before) {m : ℕ} :
    ∃ check, Passes usage (new (some m)) before (InIndex check 1 (.indexCount {})) := by
  obtain ⟨file, s, rfl⟩ := h
  have hblocks := @passes_beforeBlock usage _ ⟨file, s, s.blocks.length, rfl⟩ m
  rw [List.take_length] at hblocks
  obtain ⟨check, hblocks⟩ := hblocks
  exact ⟨check, hblocks.trans fun v' h' => passes_indexMarker h'⟩

/-- **The validator follows the envelope and guards the memory.** Without a limit it appends every
well-formed file as it is, whatever the slices, unless padding overflows its counter; with a limit it
appends nothing of a block header or a record count that asks for too much. -/
theorem envelope (usage : ℕ → ℕ) :
    (∀ (file : File) (slices : List (List Byte)), (∀ s ∈ file, 4 * s.2 < 2 ^ 64) →
      slices.flatten = fileBytes file →
      ∃ v out r, pushSlices usage (new none) slices = .ok (v, out) ∧ v.finish = .ok r ∧
        out ++ r.2 = fileBytes file) ∧
    (∀ (m : ℕ) (before rest pushed : List Byte) (header : BlockHeader), BeforeBlock before →
      m < usage header.dictionary * 1024 → pushed <+: before ++ (header.bytes ++ rest) →
      appended usage (new (some m)) pushed <+: before) ∧
    ∀ (m : ℕ) (before rest pushed : List Byte) (records : Multibyte), BeforeCount before →
      m < 16 * records.1 → pushed <+: before ++ (multibyte records ++ rest) →
      appended usage (new (some m)) pushed <+: before := by
  refine ⟨fun file slices hpadding hslices => ?_,
    fun m before rest pushed header hbefore hover hpushed => ?_,
    fun m before rest pushed records hbefore hover hpushed => ?_⟩
  · have hfile : Passes usage (new none) (fileBytes file) Begins :=
      passes_file file (.inl fun s hs => Nat.le_pred_of_lt (hpadding s hs)) (begins_new _)
    obtain ⟨v, hpush, -, hends⟩ | ⟨hlimit, -⟩ := hfile
    · have hfinish : v.finish = .ok v.release := by
        unfold XzValidator.finish
        rw [if_neg]
        rintro ⟨hstate, hodd⟩
        rcases hends.state with hstart | ⟨-, hpadded⟩
        · rw [hstate] at hstart
          cases hstart
        · exact hodd hpadded
      refine ⟨v, fileBytes file, v.release, ?_, hfinish, ?_⟩
      · rw [pushSlices_eq, hslices]
        exact hpush
      · change _ ++ v.held = _
        rw [hends.held, List.append_nil]
    · exact absurd rfl hlimit
  · obtain ⟨check, hpasses⟩ := @passes_beforeBlock usage before hbefore m
    exact (appended_mono hpushed).trans (appended_before hpasses (fits_new _) rfl
      fun v' h' hmemory => appended_header h' hmemory hover rest)
  · obtain ⟨check, hpasses⟩ := @passes_beforeCount usage before hbefore m
    refine (appended_mono hpushed).trans (appended_before hpasses (fits_new _) rfl
      fun v' h' hmemory => appended_count h' hmemory ?_ rest)
    rwa [Nat.mul_comm] at hover

/-- Padding that overflows its counter is refused. -/
theorem padding_overflows (s : Stream) {words : ℕ} (hover : u64Max < 4 * words) :
    ∃ error, pushSlices usage (new none) [fileBytes [(s, words)]] = .error error := by
  have hlong : Passes usage (new none) (s.bytes ++ List.replicate u64Max 0) (Padded u64Max) := by
    refine (passes_stream s (begins_new none)).trans fun v' h' => ?_
    have hzeros : Passes usage v' (List.replicate u64Max 0) _ :=
      passes_padding u64Max h' (.inl (Nat.zero_add _).le)
    rwa [Nat.zero_add] at hzeros
  obtain ⟨v, hpush, -, hpadded⟩ | ⟨hlimit, -⟩ := hlong
  · have hbytes : fileBytes [(s, words)] = s.bytes ++ List.replicate u64Max 0 ++
        0 :: List.replicate (4 * words - (u64Max + 1)) 0 := by
      have hsplit : List.replicate (4 * words) (0 : Byte) = List.replicate u64Max 0 ++
          List.replicate (4 * words - (u64Max + 1) + 1) 0 := by
        rw [List.replicate_append_replicate]
        congr 1
        omega
      rw [fileBytes, List.flatMap_singleton, padded, hsplit, List.append_assoc, List.replicate_succ]
    have hlast := @push_padding usage _ v hpadded
    rw [if_neg (Nat.not_succ_le_self u64Max)] at hlast
    refine ⟨malformed "XZ stream padding length overflow", ?_⟩
    rw [pushSlices_eq, List.flatten_singleton, hbytes, pushAll_append, hpush, ok_bind, pushAll_cons,
      hlast]
    rfl
  · exact absurd rfl hlimit

/-! ### Examples -/

/-- A stream without blocks. -/
def emptyStream : Stream where
  check := .crc32
  headerCrc := [0x69, 0x22, 0xde, 0x36]
  blocks := []
  records := []
  indexCrc := [0x1c, 0xdf, 0x44, 0x21]
  footerCrc := [0x90, 0x42, 0x99, 0x0d]
  backward := 1
  headerCheck := rfl
  checks := nofun
  indexCheck := rfl
  footerCheck := rfl
  backward_lt := by decide
  backward_eq := rfl

/-- A block header that asks for the largest dictionary. -/
def largeHeader : BlockHeader where
  compressed := none
  uncompressed := none
  filters := []
  property := 40
  few := by decide
  valid := by decide
  words := 2
  padding := 3
  crc := [1, 2, 3, 4]
  pos := by decide
  small := by decide
  check := rfl
  fills := rfl

theorem beforeBlock_header : BeforeBlock emptyStream.header := ⟨[], emptyStream, 0, rfl⟩

theorem beforeCount_header : BeforeCount (emptyStream.header ++ [0]) := ⟨[], emptyStream, rfl⟩

/-- A padded stream passes byte by byte; neither the header nor a count of two records does. -/
theorem envelope_empty :
    (∃ v out r,
      pushSlices id (new none) ((padded (emptyStream, 1)).map fun byte => [byte]) = .ok (v, out) ∧
        v.finish = .ok r ∧ out ++ r.2 = fileBytes [(emptyStream, 1)]) ∧
    appended id (new (some 31)) (emptyStream.header ++ (largeHeader.bytes ++ [])) <+:
      emptyStream.header ∧
    appended id (new (some 31)) (emptyStream.header ++ [0] ++ ([2] ++ [])) <+:
      emptyStream.header ++ [0] := by
  refine ⟨(envelope id).1 [(emptyStream, 1)] _ ?_ ?_, ?_, ?_⟩
  · intro s hs
    rw [List.mem_singleton.mp hs]
    decide
  · decide +kernel
  · exact (envelope id).2.1 31 _ [] _ largeHeader beforeBlock_header (by decide) (List.prefix_refl _)
  · exact (envelope id).2.2 31 _ [] _ ⟨2, by decide⟩ beforeCount_header (by decide)
      (List.prefix_refl _)

/-- `finish` appends a block header that is cut short whatever it asks for, and padding of 2^64 bytes
behind a well-formed stream is refused. -/
theorem envelope_limits :
    (∃ v r, pushAll id (new (some 0)) (emptyStream.header ++ largeHeader.bytes.take 11) =
        .ok (v, emptyStream.header) ∧ v.finish = .ok r ∧ r.2 = largeHeader.bytes.take 11 ∧
      BeforeBlock emptyStream.header ∧ 0 < id largeHeader.dictionary * 1024) ∧
    ∃ error, pushSlices id (new none) [fileBytes [(emptyStream, 2 ^ 62)]] = .error error := by
  refine ⟨⟨_, _, rfl, rfl, rfl, beforeBlock_header, by decide⟩, padding_overflows emptyStream ?_⟩
  unfold u64Max
  omega

end LibarchiveOxide.Filter.MemoryGate
