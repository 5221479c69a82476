import LibarchiveOxide.Cpio.Encoder
import LibarchiveOxide.Cpio.Header

/-! # The headers of the five dialects, read back

What is behind a fixed part does not matter to its reading. So a fixed part is read back (`Fixed`) if
its fields are, and a header is read back if its fixed part is (`Fixed.head`, `Fixed.parse`). -/

namespace LibarchiveOxide.Cpio.Dialects

open Core.Failure Core.Budget Core.Metadata Cpio.Header Cpio.Encoder Lib.Radix Lib.Result Lib.Slice

/-! ### Numbers -/

variable {val : ℕ}

theorem parseRadixFrom_map {radix : ℕ} {digit : ℕ → Byte} (hpos : 0 < radix)
    (hdigit : ∀ d < radix, digit d ≠ chr ' ' ∧ digit d ≠ 0 ∧ toDigit radix (digit d) = some d) :
    ∀ {ds : List ℕ} {val : ℕ}, (∀ d ∈ ds, d < radix) → horner radix val ds ≤ u64Max →
    parseRadixFrom radix val (ds.map digit) = .ok (horner radix val ds)
  | [], val, _, _ => rfl
  | d :: ds, val, hd, hmax => by
    obtain ⟨hlt, hds⟩ := List.forall_mem_cons.mp hd
    obtain ⟨hspace, hzero, heq⟩ := hdigit d hlt
    have hstep := le_horner hpos ds (val * radix + d)
    rw [horner_cons] at hmax
    rw [List.map_cons, parseRadixFrom, if_neg (not_or.mpr ⟨hspace, hzero⟩), heq]
    simp only
    rw [checkedMul_of_le (by omega)]
    simp only [Option.bind_some]
    rw [checkedAdd_of_le (by omega)]
    exact parseRadixFrom_map hpos hdigit hds hmax

theorem parseRadix_digits {radix w : ℕ} {digit : ℕ → Byte} (hpos : 0 < radix)
    (hdigit : ∀ d < radix, digit d ≠ chr ' ' ∧ digit d ≠ 0 ∧ toDigit radix (digit d) = some d)
    (hval : val < radix ^ w) (hmax : val ≤ u64Max) :
    parseRadix radix ((digitsBE radix w val).map digit) = .ok val := by
  have hhorner := horner_digitsBE hpos hval
  rw [parseRadix, parseRadixFrom_map hpos hdigit (fun d hd => lt_of_mem_digitsBE hpos hd)
    (by rw [hhorner]; exact hmax), hhorner]

theorem parseRadix_putHex8 (h : val < 2 ^ 32) : parseRadix 16 (putHex8 val) = .ok val := by
  refine parseRadix_digits (by decide) ?_ (by simpa using h) (h.le.trans (by decide))
  intro d hd
  interval_cases d <;> decide

theorem parseRadix_putOctal {w : ℕ} (h : val < 8 ^ w) (hmax : val ≤ u64Max) :
    parseRadix 8 (putOctal w val).1 = .ok val := by
  refine parseRadix_digits (by decide) ?_ h hmax
  intro d hd
  interval_cases d <;> decide

theorem length_putHex8 (val : ℕ) : (putHex8 val).length = 8 := by
  rw [putHex8, List.length_map, length_digitsBE]

theorem length_putOctal (w val : ℕ) : (putOctal w val).1.length = w := by
  rw [putOctal, List.length_map, length_digitsBE]

theorem length_writeBinaryWord (little : Bool) (val : ℕ) :
    (writeBinaryWord little val).length = 2 := by
  cases little <;> rfl

theorem cpioBits_eq_ok {bits v : ℕ} {context : String} :
    cpioBits bits val context = .ok v ↔ v = val ∧ val < 2 ^ bits := by
  unfold cpioBits
  split_ifs with h
  · rw [Except.ok.injEq]
    exact ⟨fun he => ⟨he.symm, h⟩, fun he => he.1.symm⟩
  · exact ⟨nofun, fun he => absurd he.2 h⟩

theorem mapM_cpioBits_ok {bits : ℕ} : ∀ {fs : List (ℕ × String)} {vs : List ℕ},
    fs.mapM (fun f => cpioBits bits f.1 f.2) = .ok vs →
    vs = fs.map Prod.fst ∧ ∀ f ∈ fs, f.1 < 2 ^ bits
  | [], vs, h => by
    cases h
    exact ⟨rfl, nofun⟩
  | f :: fs, vs, h => by
    rw [List.mapM_cons] at h
    obtain ⟨v, hv, h⟩ := bind_eq_ok.mp h
    obtain ⟨rest, hrest, h⟩ := bind_eq_ok.mp h
    cases h
    obtain ⟨rfl, hlt⟩ := cpioBits_eq_ok.mp hv
    obtain ⟨rfl, hall⟩ := mapM_cpioBits_ok hrest
    exact ⟨rfl, List.forall_mem_cons.mpr ⟨hlt, hall⟩⟩

/-! ### Fixed parts -/

/-- The bytes are the fixed part of a header with these numbers. -/
structure Fixed (bytes : List Byte) (f : Fields) : Prop where
  length : bytes.length = f.fixed
  front : Front .unlimited bytes bytes.length
  part : ∀ rest, fixedPart (bytes ++ rest) = .ok (.inr (f.fixed, f.namesize, f.alignment))
  fields : ∀ rest, fieldsOf (bytes ++ rest) = .ok f

section
variable {fixed name : List Byte} {f : Fields} {len : ℕ}

/-- The bytes that complete a header. -/
def completed (fixed name : List Byte) (len : ℕ) : List Byte :=
  fixed ++ name ++ [0] ++ List.replicate (len - (fixed ++ name ++ [0]).length) 0

theorem Fixed.target (h : Fixed fixed f) (h2 : 2 ≤ fixed.length) (hname : f.namesize = name.length + 1)
    (halign : aligned (fixed ++ name ++ [0]).length f.alignment = some len) (rest : List Byte) :
    targetFromPrefix .unlimited (fixed ++ rest) = .ok (some len) := by
  have hlen : (fixed ++ name ++ [0]).length = f.fixed + f.namesize := by
    rw [List.length_append, List.length_append, h.length, hname]
    rfl
  have hmax : f.fixed + f.namesize ≤ u64Max := by
    rw [hlen] at halign
    obtain ⟨v, hv, -⟩ := Option.map_eq_some_iff.mp halign
    have := (checkedAdd_eq_some.mp hv).2
    omega
  have hshort : ¬ (fixed ++ rest).length < 2 := by
    rw [List.length_append]
    omega
  rw [hlen] at halign
  unfold targetFromPrefix
  rw [if_neg hshort, h.part rest, ok_bind]
  simp only
  rw [if_neg (by omega), checkedAdd_of_le hmax]
  simp only [okOr_some, ok_bind, halign]
  rfl

theorem length_completed (hle : (fixed ++ name ++ [0]).length ≤ len) :
    (completed fixed name len).length = len := by
  rw [completed, List.length_append, List.length_replicate]
  omega

theorem le_of_aligned {n a : ℕ} (ha : 0 < a) (h : aligned n a = some len) : n ≤ len := by
  obtain ⟨v, hv, rfl⟩ := Option.map_eq_some_iff.mp h
  obtain ⟨rfl, -⟩ := checkedAdd_eq_some.mp hv
  have hdiv := Nat.div_add_mod (n + (a - 1)) a
  have hmod := Nat.mod_lt (n + (a - 1)) ha
  rw [Nat.mul_comm] at hdiv
  omega

/-- **A header is read as a whole.** -/
theorem Fixed.head (h : Fixed fixed f) (h2 : 2 ≤ fixed.length) (ha : 0 < f.alignment)
    (hname : f.namesize = name.length + 1)
    (halign : aligned (fixed ++ name ++ [0]).length f.alignment = some len) :
    Head .unlimited (completed fixed name len) := by
  have hle := le_of_aligned ha halign
  have hlen := length_completed hle
  have hsplit : completed fixed name len = fixed ++ (name ++ [0] ++
      List.replicate (len - (fixed ++ name ++ [0]).length) 0) := by
    simp only [completed, List.append_assoc]
  have hlt : fixed.length < len := by
    rw [List.length_append, List.length_append, List.length_singleton] at hle
    omega
  refine ⟨?_, some len, ?_, ?_⟩
  · rw [hlen, hsplit]
    refine .next (h.front.append _) ?_ ?_ hlt
    · rw [List.length_append]
      omega
    · rw [List.take_left, ← List.append_nil fixed]
      have ht := h.target h2 hname halign []
      rw [List.append_nil] at ht ⊢
      exact ht
  · rw [hsplit]
    exact h.target h2 hname halign _
  · intro needed hn
    cases hn
    exact hlen.ge

/-- **A header is read back.** -/
theorem Fixed.parse (h : Fixed fixed f) (hname : f.namesize = name.length + 1)
    (hle : (fixed ++ name ++ [0]).length ≤ len) (hsize : f.size ≤ u64Max) :
    parseHeader .unlimited (completed fixed name len) = .ok {
      metadata := metadataOf f name, size := f.size, padding := payloadPadding f.alignment f.size
      checksum := f.checksum, trailer := name == trailerName } := by
  have hsplit : completed fixed name len = fixed ++ ((name ++ [0]) ++
      List.replicate (len - (fixed ++ name ++ [0]).length) 0) := by
    simp only [completed, List.append_assoc]
  have hlen := length_completed hle
  have hraw : get (completed fixed name len) f.fixed (f.fixed + f.namesize) = some (name ++ [0]) := by
    have hfit : f.fixed + f.namesize ≤ (completed fixed name len).length := by
      rw [hlen, ← h.length, hname]
      rw [List.length_append, List.length_append, List.length_singleton] at hle
      omega
    have hw : (name ++ [0]).length = f.namesize := by
      rw [List.length_append, hname]
      rfl
    unfold Header.get
    rw [if_pos hfit, hsplit, ← h.length, window_append_right le_rfl, Nat.sub_self,
      Nat.add_sub_cancel_left, ← hw, window_append_left le_rfl, window_all]
  have hfields : fieldsOf (completed fixed name len) = .ok f := by
    rw [hsplit]
    exact h.fields _
  unfold parseHeader
  rw [hfields, ok_bind]
  simp only [hraw, okOr_some, ok_bind, List.getLast?_concat, List.dropLast_concat]
  rw [if_neg (by exact nofun), if_neg (fun hne => hne rfl), if_neg (by omega)]
  rfl

end

/-! ### The fields of a dialect -/

/-- The length of the fixed part. -/
def fixedLength : CpioDialect → ℕ
  | .newc | .crc => newcHeader
  | .odc => odcHeader
  | .binaryLittleEndian | .binaryBigEndian => binaryHeader

/-- The numbers that are read from a written header. -/
def fieldsBack (dialect : CpioDialect) (v : HeaderValues) : Fields where
  fixed := fixedLength dialect
  namesize := v.namesize
  size := v.size.toNat
  mode := v.mode
  uid := v.uid.toNat
  gid := v.gid.toNat
  mtime := v.mtime
  inode := v.inode.toNat
  links := v.links.toNat
  device := v.device
  referenced := v.referenced
  checksum := v.checksum
  alignment := alignmentOf dialect

section
variable {v : HeaderValues} {rest : List Byte}

/-! ### `newc` and `crc` -/

variable {magic : List Byte}

/-- The pieces of a `newc` header. -/
def newcPieces (magic : List Byte) (v : HeaderValues) : List (List Byte) :=
  magic :: ((newcValues v).map Prod.fst ++ [(v.checksum.getD 0).toNat]).map putHex8

theorem newcOut_ok {bytes : List Byte} (h : newcOut magic v = .ok bytes) :
    bytes = (newcPieces magic v).flatten ∧ ∀ f ∈ newcValues v, f.1 < 2 ^ 32 := by
  obtain ⟨fields, hf, h⟩ := bind_eq_ok.mp h
  obtain ⟨rfl, hlt⟩ := mapM_cpioBits_ok hf
  cases h
  refine ⟨?_, hlt⟩
  rw [newcPieces, List.flatten_cons, List.flatMap_def]

theorem length_newcPieces (hm : magic.length = 6) :
    (newcPieces magic v).map List.length = 6 :: List.replicate 13 8 := by
  simp only [newcPieces, newcValues, List.map_cons, List.map_nil, List.cons_append, List.nil_append,
    length_putHex8, hm]
  rfl

theorem newcField_pieces (hm : magic.length = 6) {i : ℕ} (hi : i < 13)
    (hval : ((newcValues v).map Prod.fst ++ [(v.checksum.getD 0).toNat])[i]? = some val)
    (hlt : val < 2 ^ 32) : newcField ((newcPieces magic v).flatten ++ rest) i = .ok val := by
  have hlens := length_newcPieces (v := v) hm
  have hpiece : (newcPieces magic v)[i + 1]? = some (putHex8 val) := by
    rw [newcPieces, List.getElem?_cons_succ, List.getElem?_map, hval]
    rfl
  have hoff : (((newcPieces magic v).take (i + 1)).map List.length).sum = 6 + i * 8 := by
    rw [List.map_take, hlens, List.take_succ_cons, List.take_replicate, List.sum_cons,
      List.sum_replicate, Nat.min_eq_left hi.le, smul_eq_mul]
  have hwin := window_flatten rest (newcPieces magic v) (i + 1) hpiece
  have hlen : ((newcPieces magic v).flatten ++ rest).length = 110 + rest.length := by
    rw [List.length_append, List.length_flatten, hlens]
    rfl
  rw [hoff, length_putHex8] at hwin
  unfold newcField Header.get
  rw [if_pos (by omega), hwin, okOr_some, ok_bind]
  exact parseRadix_putHex8 hlt

theorem prefix_pieces (magic : List Byte) :
    (newcPieces magic v).flatten ++ rest = magic ++ ((newcPieces magic v).tail.flatten ++ rest) := by
  rw [newcPieces, List.flatten_cons, List.append_assoc]
  rfl

theorem lo32_toNat (c : UInt32) : lo32 c.toNat = c := by
  have hand : c.toNat &&& 0xFFFFFFFF = c.toNat := by
    have hpow : 0xFFFFFFFF = 2 ^ 32 - 1 := by decide
    rw [hpow, Nat.and_two_pow_sub_one_eq_mod]
    exact Nat.mod_eq_of_lt c.toNat_lt
  rw [lo32, hand, UInt32.ofNat_toNat]

/-- What is read of a `newc` header, whatever follows it. -/
theorem newcFields_pieces (hm : magic.length = 6) (hlt : ∀ f ∈ newcValues v, f.1 < 2 ^ 32)
    (hsum : v.checksum = if newcCrcMagic.isPrefixOf ((newcPieces magic v).flatten ++ rest) then
      some (v.checksum.getD 0) else none) :
    newcFields ((newcPieces magic v).flatten ++ rest) = .ok
      { fieldsBack .newc v with fixed := newcHeader, alignment := 4 } := by
  have hread : ∀ i val, i < 12 → (newcValues v)[i]?.map Prod.fst = some val →
      newcField ((newcPieces magic v).flatten ++ rest) i = .ok val := by
    intro i val hi hval
    refine newcField_pieces hm (by omega) ?_ ?_
    · rw [List.getElem?_append_left (by simpa [newcValues] using hi), List.getElem?_map]
      exact hval
    · obtain ⟨f, hf, rfl⟩ := Option.map_eq_some_iff.mp hval
      exact hlt f (List.mem_of_getElem? hf)
  have hcrc : newcField ((newcPieces magic v).flatten ++ rest) 12 = .ok (v.checksum.getD 0).toNat :=
    newcField_pieces hm (by decide) rfl (v.checksum.getD 0).toNat_lt
  have hns : v.namesize ≤ u64Max := by
    have := hlt (v.namesize, "newc pathname exceeds 32-bit field") (by simp [newcValues])
    simp only at this
    exact this.le.trans (by decide)
  unfold newcFields
  rw [hread 0 _ (by decide) rfl, hread 1 _ (by decide) rfl, hread 2 _ (by decide) rfl,
    hread 3 _ (by decide) rfl, hread 4 _ (by decide) rfl, hread 5 _ (by decide) rfl,
    hread 6 _ (by decide) rfl, hread 7 _ (by decide) rfl, hread 8 _ (by decide) rfl,
    hread 9 _ (by decide) rfl, hread 10 _ (by decide) rfl, hread 11 _ (by decide) rfl, hcrc]
  simp only [ok_bind, usizeOf, if_pos hns, UInt64.ofNat_toNat]
  split_ifs at hsum ⊢ with hc
  · simp only [Functor.map, Except.map, Function.comp, lo32_toNat, ok_bind, ← hsum]
    rfl
  · simp only [pure_eq_ok, ok_bind, ← hsum]
    rfl

/-- The front of an ASCII header. -/
theorem front_ascii {tail : List Byte} {t : ℕ} (hm : magic.length = 6)
    (h2 : targetFromPrefix .unlimited (magic.take 2) = .ok (some 6))
    (h6 : targetFromPrefix .unlimited magic = .ok (some t)) (ht : 6 < t) :
    Front .unlimited (magic ++ tail) t := by
  have hlen : 6 ≤ (magic ++ tail).length := by
    rw [List.length_append]
    omega
  have htake : ∀ k ≤ 6, (magic ++ tail).take k = magic.take k := by
    intro k hk
    exact List.take_append_of_le_length (by omega)
  have hfront : Front .unlimited (magic ++ tail) 6 :=
    .next .start (by omega) (by rw [htake 2 (by omega)]; exact h2) (by omega)
  refine .next hfront hlen ?_ ht
  rw [htake 6 le_rfl, List.take_of_length_le hm.le]
  exact h6

theorem fixed_newc (hm : magic = newcMagic ∨ magic = newcCrcMagic)
    (hlt : ∀ f ∈ newcValues v, f.1 < 2 ^ 32)
    (hsum : v.checksum = if magic = newcCrcMagic then some (v.checksum.getD 0) else none) :
    Fixed (newcPieces magic v).flatten (fieldsBack .newc v) := by
  have hlen6 : magic.length = 6 := by
    rcases hm with rfl | rfl
    · rfl
    · rfl
  have hlen : (newcPieces magic v).flatten.length = newcHeader := by
    rw [List.length_flatten, length_newcPieces hlen6]
    rfl
  have hnewc : ∀ rest, isNewc (magic ++ rest) = true := by
    intro rest
    rw [isNewc, Bool.or_eq_true, List.isPrefixOf_iff_prefix, List.isPrefixOf_iff_prefix]
    rcases hm with rfl | rfl
    · exact .inl (List.prefix_append _ _)
    · exact .inr (List.prefix_append _ _)
  have hcrc : ∀ rest, newcCrcMagic.isPrefixOf (magic ++ rest) = decide (magic = newcCrcMagic) := by
    intro rest
    rcases hm with rfl | rfl
    · rfl
    · rw [List.isPrefixOf_iff_prefix.mpr (List.prefix_append _ _)]
      rfl
  have hfields : ∀ rest, newcFields ((newcPieces magic v).flatten ++ rest) =
      .ok (fieldsBack .newc v) := by
    intro rest
    refine newcFields_pieces hlen6 hlt ?_
    rw [prefix_pieces, hcrc]
    simpa using hsum
  refine ⟨hlen, ?_, ?_, ?_⟩
  · rw [hlen, ← List.append_nil (newcPieces magic v).flatten, prefix_pieces]
    refine front_ascii hlen6 ?_ ?_ (by decide)
    · rcases hm with rfl | rfl
      · rfl
      · rfl
    · rcases hm with rfl | rfl
      · rfl
      · rfl
  · intro rest
    have hname := (newcFields_ok (hfields rest)).1
    have hbig : ¬ ((newcPieces magic v).flatten ++ rest).length < newcHeader := by
      rw [List.length_append]
      omega
    have h110 : newcHeader = 110 := rfl
    have hn := hnewc ((newcPieces magic v).tail.flatten ++ rest)
    rw [← prefix_pieces] at hn
    unfold fixedPart
    rw [not_isBinary_of_ascii (.inl hn), if_neg Bool.false_ne_true, if_neg (by omega), if_pos hn,
      if_neg hbig, hname]
    rfl
  · intro rest
    have hn := hnewc ((newcPieces magic v).tail.flatten ++ rest)
    rw [← prefix_pieces] at hn
    rw [fieldsOf, if_pos hn, hfields rest]
    rfl

/-- A device without a major number. -/
theorem unsplit {device : Device} (h : device.major = 0) :
    (⟨0, device.minor⟩ : Device) = device := by
  rw [← h]

/-! ### `odc` -/

/-- The pieces of an `odc` header. -/
def odcPieces (v : HeaderValues) : List (List Byte) :=
  odcMagic :: (odcValues v).map fun f => (putOctal f.1 f.2).1

theorem putOctals_ok : ∀ {fs : List (ℕ × ℕ)}, (putOctals fs).2 = true →
    (putOctals fs).1 = (fs.map fun f => (putOctal f.1 f.2).1).flatten ∧
      ∀ f ∈ fs, f.2 < 8 ^ f.1
  | [], _ => ⟨rfl, nofun⟩
  | f :: fs, h => by
    unfold putOctals at h ⊢
    dsimp only at h ⊢
    by_cases hfit : (putOctal f.1 f.2).2 = true
    · rw [if_pos hfit] at h ⊢
      obtain ⟨hout, hall⟩ := putOctals_ok h
      have hlt : f.2 < 8 ^ f.1 := by
        have hdiv : f.2 / 8 ^ f.1 = 0 := by simpa [putOctal] using hfit
        exact (Nat.div_eq_zero_iff.mp hdiv).resolve_left (by positivity)
      exact ⟨by rw [hout]; rfl, List.forall_mem_cons.mpr ⟨hlt, hall⟩⟩
    · rw [if_neg hfit] at h
      cases h

theorem length_odcPieces :
    (odcPieces v).map List.length = [6, 6, 6, 6, 6, 6, 6, 6, 11, 6, 11] := by
  simp only [odcPieces, odcValues, List.map_cons, List.map_nil, length_putOctal]
  rfl

theorem odcField_pieces (hlt : ∀ f ∈ odcValues v, f.2 < 8 ^ f.1) {i off width val : ℕ}
    (hval : (odcValues v)[i]? = some (width, val)) (hwidth : width ≤ 11)
    (hoff : (([6, 6, 6, 6, 6, 6, 6, 6, 11, 6, 11] : List ℕ).take (i + 1)).sum = off)
    (hle : off + width ≤ 76) : odcField ((odcPieces v).flatten ++ rest) off width = .ok val := by
  have hpiece : (odcPieces v)[i + 1]? = some (putOctal width val).1 := by
    rw [odcPieces, List.getElem?_cons_succ, List.getElem?_map, hval]
    rfl
  have hbound : val < 8 ^ width := hlt _ (List.mem_of_getElem? hval)
  have hmax : val ≤ u64Max := by
    have hpow : 8 ^ width ≤ 8 ^ 11 := Nat.pow_le_pow_right (by decide) hwidth
    have hu : u64Max = 2 ^ 64 - 1 := rfl
    omega
  have hwin := window_flatten rest (odcPieces v) (i + 1) hpiece
  have hlen : ((odcPieces v).flatten ++ rest).length = 76 + rest.length := by
    rw [List.length_append, List.length_flatten, length_odcPieces]
    rfl
  rw [List.map_take, length_odcPieces, hoff, length_putOctal] at hwin
  unfold odcField Header.get
  rw [if_pos (by omega), hwin, okOr_some, ok_bind]
  exact parseRadix_putOctal hbound hmax

theorem fixed_odc (hlt : ∀ f ∈ odcValues v, f.2 < 8 ^ f.1) (hdev : v.device.major = 0)
    (href : v.referenced.major = 0) (hsum : v.checksum = none) :
    Fixed (odcPieces v).flatten (fieldsBack .odc v) := by
  have hlen : (odcPieces v).flatten.length = odcHeader := by
    rw [List.length_flatten, length_odcPieces]
    rfl
  have hsplit : ∀ rest, (odcPieces v).flatten ++ rest =
      odcMagic ++ ((odcPieces v).tail.flatten ++ rest) := by
    intro rest
    rw [odcPieces, List.flatten_cons, List.append_assoc]
    rfl
  have hodc : ∀ rest, odcMagic.isPrefixOf ((odcPieces v).flatten ++ rest) = true := by
    intro rest
    rw [hsplit, List.isPrefixOf_iff_prefix]
    exact List.prefix_append _ _
  have hnewc : ∀ rest, isNewc ((odcPieces v).flatten ++ rest) = false := by
    intro rest
    rw [hsplit]
    rfl
  have hns : v.namesize ≤ u64Max := by
    have hn : v.namesize < 8 ^ 6 := hlt (6, v.namesize) (by simp [odcValues])
    have hu : u64Max = 2 ^ 64 - 1 := rfl
    omega
  have hfields : ∀ rest, odcFields ((odcPieces v).flatten ++ rest) = .ok (fieldsBack .odc v) := by
    intro rest
    have h0 := @odcField_pieces _ rest hlt 0 6 _ _ rfl (by decide) rfl (by decide)
    have h1 := @odcField_pieces _ rest hlt 1 12 _ _ rfl (by decide) rfl (by decide)
    have h2 := @odcField_pieces _ rest hlt 2 18 _ _ rfl (by decide) rfl (by decide)
    have h3 := @odcField_pieces _ rest hlt 3 24 _ _ rfl (by decide) rfl (by decide)
    have h4 := @odcField_pieces _ rest hlt 4 30 _ _ rfl (by decide) rfl (by decide)
    have h5 := @odcField_pieces _ rest hlt 5 36 _ _ rfl (by decide) rfl (by decide)
    have h6 := @odcField_pieces _ rest hlt 6 42 _ _ rfl (by decide) rfl (by decide)
    have h7 := @odcField_pieces _ rest hlt 7 48 _ _ rfl (by decide) rfl (by decide)
    have h8 := @odcField_pieces _ rest hlt 8 59 _ _ rfl (by decide) rfl (by decide)
    have h9 := @odcField_pieces _ rest hlt 9 65 _ _ rfl (by decide) rfl (by decide)
    unfold odcFields
    simp only [h0, h1, h2, h3, h4, h5, h6, h7, h8, h9, ok_bind, usizeOf, if_pos hns,
      UInt64.ofNat_toNat, pure_eq_ok, fieldsBack, hsum, unsplit hdev, unsplit href]
    rfl
  refine ⟨hlen, ?_, ?_, ?_⟩
  · rw [hlen, ← List.append_nil (odcPieces v).flatten, hsplit]
    exact front_ascii rfl rfl rfl (by decide)
  · intro rest
    have hname := (odcFields_ok (hfields rest)).1
    have hbig : ¬ ((odcPieces v).flatten ++ rest).length < odcHeader := by
      rw [List.length_append]
      omega
    have h76 : odcHeader = 76 := rfl
    unfold fixedPart
    rw [not_isBinary_of_ascii (.inr (hodc rest)), if_neg Bool.false_ne_true, if_neg (by omega),
      hnewc rest, if_neg Bool.false_ne_true, if_pos (hodc rest), if_neg hbig, hname]
    rfl
  · intro rest
    rw [fieldsOf, hnewc rest, if_neg Bool.false_ne_true, if_pos (hodc rest), hfields rest]
    rfl

/-! ### The binary dialects -/

variable {dialect : CpioDialect}

/-- The words of a binary header. -/
def binaryWords (v : HeaderValues) : List ℕ :=
  [0o070707, v.device.minor.toNat, v.inode.toNat, v.mode, v.uid.toNat, v.gid.toNat, v.links.toNat,
    v.referenced.minor.toNat, v.mtime / 65536, v.mtime % 65536, v.namesize, v.size.toNat / 65536,
    v.size.toNat % 65536]

/-- The pieces of a binary header. -/
def binaryPieces (little : Bool) (v : HeaderValues) : List (List Byte) :=
  (binaryWords v).map (writeBinaryWord little)

theorem binaryOut_ok {little : Bool} {bytes : List Byte} (h : binaryOut little v = .ok bytes) :
    bytes = (binaryPieces little v).flatten ∧ v.device.major = 0 ∧ v.referenced.major = 0 ∧
      ∀ word ∈ binaryWords v, word < 65536 := by
  obtain ⟨hdev, h⟩ := guard_eq_ok.mp h
  rw [not_or, not_not, not_not] at hdev
  simp only [bind_eq_ok] at h
  obtain ⟨mtime, hmtime, size, hsize, device, hdevice, inode, hinode, mode, hmode, uid, huid, gid,
    hgid, links, hlinks, referenced, hreferenced, namesize, hnamesize, h⟩ := h
  obtain ⟨rfl, lt_mtime⟩ := cpioBits_eq_ok.mp hmtime
  obtain ⟨rfl, lt_size⟩ := cpioBits_eq_ok.mp hsize
  obtain ⟨rfl, lt_device⟩ := cpioBits_eq_ok.mp hdevice
  obtain ⟨rfl, lt_inode⟩ := cpioBits_eq_ok.mp hinode
  obtain ⟨rfl, lt_mode⟩ := cpioBits_eq_ok.mp hmode
  obtain ⟨rfl, lt_uid⟩ := cpioBits_eq_ok.mp huid
  obtain ⟨rfl, lt_gid⟩ := cpioBits_eq_ok.mp hgid
  obtain ⟨rfl, lt_links⟩ := cpioBits_eq_ok.mp hlinks
  obtain ⟨rfl, lt_referenced⟩ := cpioBits_eq_ok.mp hreferenced
  obtain ⟨rfl, lt_namesize⟩ := cpioBits_eq_ok.mp hnamesize
  cases h
  refine ⟨?_, hdev.1, hdev.2, ?_⟩
  · rw [binaryPieces, ← List.flatMap_def]
    rfl
  · simp only [binaryWords, List.forall_mem_cons, List.not_mem_nil, false_imp_iff, implies_true,
      and_true]
    refine ⟨?_, lt_device, lt_inode, lt_mode, lt_uid, lt_gid, lt_links, lt_referenced, ?_, ?_,
      lt_namesize, ?_, ?_⟩
    · decide
    all_goals omega

theorem length_binaryPieces (little : Bool) :
    (binaryPieces little v).map List.length = List.replicate 13 2 := by
  simp only [binaryPieces, binaryWords, List.map_cons, List.map_nil, length_writeBinaryWord]
  rfl

theorem binaryWord_pieces {little : Bool} (hlt : ∀ word ∈ binaryWords v, word < 65536) {i word : ℕ}
    (hword : (binaryWords v)[i]? = some word) :
    binaryWord ((binaryPieces little v).flatten ++ rest) i little = .ok word := by
  have hi : i < 13 := (List.getElem?_eq_some_iff.mp hword).1
  have hbound := hlt word (List.mem_of_getElem? hword)
  have hpiece : (binaryPieces little v)[i]? = some (writeBinaryWord little word) := by
    rw [binaryPieces, List.getElem?_map, hword]
    rfl
  have hoff : (((binaryPieces little v).take i).map List.length).sum = i * 2 := by
    rw [List.map_take, length_binaryPieces, List.take_replicate, List.sum_replicate,
      Nat.min_eq_left hi.le, smul_eq_mul]
  have hwin := window_flatten rest (binaryPieces little v) i hpiece
  have hlen : ((binaryPieces little v).flatten ++ rest).length = 26 + rest.length := by
    rw [List.length_append, List.length_flatten, length_binaryPieces]
    rfl
  rw [hoff, length_writeBinaryWord] at hwin
  have hbyte : ∀ n : ℕ, n < 256 → (UInt8.ofNat n).toNat = n := fun n hn =>
    UInt8.toNat_ofNat_of_lt' hn
  unfold binaryWord Header.get
  rw [if_pos (by omega), hwin]
  cases little with
  | true =>
    simp only [writeBinaryWord, if_true]
    rw [hbyte _ (Nat.mod_lt _ (by decide)), hbyte _ (by omega)]
    congr 1
    omega
  | false =>
    simp only [writeBinaryWord, Bool.false_eq_true, if_false]
    rw [hbyte _ (Nat.mod_lt _ (by decide)), hbyte _ (by omega)]
    congr 1
    omega

theorem fixed_binary {little : Bool}
    (hd : dialect = if little then .binaryLittleEndian else .binaryBigEndian)
    (hlt : ∀ word ∈ binaryWords v, word < 65536) (hdev : v.device.major = 0)
    (href : v.referenced.major = 0) (hsum : v.checksum = none) :
    Fixed (binaryPieces little v).flatten (fieldsBack dialect v) := by
  have hlen : (binaryPieces little v).flatten.length = binaryHeader := by
    rw [List.length_flatten, length_binaryPieces]
    rfl
  have hfixed : (fieldsBack dialect v).fixed = binaryHeader ∧
      (fieldsBack dialect v).alignment = 2 := by
    subst hd
    cases little
    · exact ⟨rfl, rfl⟩
    · exact ⟨rfl, rfl⟩
  have hle : ∀ rest, binMagicLe.isPrefixOf ((binaryPieces little v).flatten ++ rest) = little := by
    intro rest
    cases little
    · rfl
    · rfl
  have hbin : ∀ rest, isBinary ((binaryPieces little v).flatten ++ rest) = true := by
    intro rest
    cases little
    · rfl
    · rfl
  have hfields : ∀ rest, binaryFields ((binaryPieces little v).flatten ++ rest) =
      .ok (fieldsBack dialect v) := by
    intro rest
    have hword : ∀ i word, (binaryWords v)[i]? = some word →
        binaryWord ((binaryPieces little v).flatten ++ rest) i little = .ok word :=
      fun i word h => binaryWord_pieces hlt h
    have hsize : v.size.toNat / 65536 * 65536 + v.size.toNat % 65536 = v.size.toNat :=
      Nat.div_add_mod' _ _
    have hmtime : v.mtime / 65536 * 65536 + v.mtime % 65536 = v.mtime := Nat.div_add_mod' _ _
    unfold binaryFields
    simp only [hle, hword 1 _ rfl, hword 2 _ rfl, hword 3 _ rfl, hword 4 _ rfl, hword 5 _ rfl,
      hword 6 _ rfl, hword 7 _ rfl, hword 8 _ rfl, hword 9 _ rfl, hword 10 _ rfl, hword 11 _ rfl,
      hword 12 _ rfl, ok_bind, UInt64.ofNat_toNat, hsize, hmtime, pure_eq_ok, unsplit hdev,
      unsplit href]
    rw [← hfixed.1, ← hfixed.2, ← hsum]
    rfl
  refine ⟨hlen.trans hfixed.1.symm, ?_, ?_, ?_⟩
  · rw [hlen]
    refine .next .start (by rw [hlen]; decide) ?_ (by decide)
    cases little
    · rfl
    · rfl
  · intro rest
    have hname := @binaryWord_pieces _ rest little hlt 10 _ rfl
    have hbig : ¬ ((binaryPieces little v).flatten ++ rest).length < binaryHeader := by
      rw [List.length_append]
      omega
    unfold fixedPart
    rw [if_pos (hbin rest), if_neg hbig, hle, hname, hfixed.1, hfixed.2]
    rfl
  · intro rest
    have hnot : isNewc ((binaryPieces little v).flatten ++ rest) = false ∧
        odcMagic.isPrefixOf ((binaryPieces little v).flatten ++ rest) = false := by
      cases little
      · exact ⟨rfl, rfl⟩
      · exact ⟨rfl, rfl⟩
    rw [fieldsOf, hnot.1, if_neg Bool.false_ne_true, hnot.2, if_neg Bool.false_ne_true]
    exact hfields rest

/-! ### All dialects -/

variable {m : Option EntryMetadata}

theorem headerValues_ok {inode : UInt32} {name : List Byte}
    (h : headerValues dialect inode name m = .ok v) :
    ∃ checksum, v = valuesOf inode (name.length + 1) m checksum ∧
      if dialect = .crc then ∃ sum, checksum = some sum ∧
        declaredChecksum ((m.bind (·.size)).getD 0) (m.bind (·.checksum)) = .ok sum
      else checksum = none := by
  obtain ⟨ns, hns, h⟩ := bind_eq_ok.mp h
  obtain ⟨rfl, -⟩ := checkedAdd_eq_some.mp (okOr_eq_ok.mp hns)
  by_cases hd : dialect = .crc
  · rw [if_pos hd] at h
    obtain ⟨sum, hsum, h⟩ := bind_eq_ok.mp h
    cases h
    refine ⟨some sum, rfl, ?_⟩
    rw [if_pos hd]
    exact ⟨sum, rfl, hsum⟩
  · rw [if_neg hd] at h
    cases h
    refine ⟨none, rfl, ?_⟩
    rw [if_neg hd]

theorem headerValues_checksum {inode : UInt32} {name : List Byte}
    (h : headerValues dialect inode name m = .ok v) :
    v.checksum = if dialect = .crc then some (v.checksum.getD 0) else none := by
  obtain ⟨checksum, rfl, hsum⟩ := headerValues_ok h
  show checksum = if dialect = .crc then some (checksum.getD 0) else none
  split_ifs at hsum ⊢
  · obtain ⟨sum, rfl, -⟩ := hsum
    rfl
  · exact hsum

/-- **The fixed part of an accepted header is read back.** -/
theorem fixed_of_writeHeader {inode : UInt32} {name fixed : List Byte}
    (hv : headerValues dialect inode name m = .ok v)
    (hw : writeHeader dialect v = (fixed, .ok ())) : Fixed fixed (fieldsBack dialect v) := by
  have hsum := headerValues_checksum hv
  cases dialect with
  | newc =>
    simp only [writeHeader] at hw
    split at hw
    · next bytes hout =>
      cases hw
      obtain ⟨rfl, hlt⟩ := newcOut_ok hout
      exact fixed_newc (.inl rfl) hlt hsum
    · cases hw
  | crc =>
    simp only [writeHeader] at hw
    split at hw
    · next bytes hout =>
      cases hw
      obtain ⟨rfl, hlt⟩ := newcOut_ok hout
      exact fixed_newc (.inr rfl) hlt hsum
    · cases hw
  | odc =>
    simp only [writeHeader] at hw
    split_ifs at hw with hdev hfit
    · cases hw
    · cases hw
      rw [not_or, not_not, not_not] at hdev
      obtain ⟨hout, hlt⟩ := putOctals_ok hfit
      have hall : odcMagic ++ (putOctals (odcValues v)).1 = (odcPieces v).flatten := by
        rw [hout]
        rfl
      rw [hall]
      exact fixed_odc hlt hdev.1 hdev.2 hsum
    · cases hw
  | binaryLittleEndian =>
    simp only [writeHeader] at hw
    split at hw
    · next bytes hout =>
      cases hw
      obtain ⟨rfl, hdev, href, hlt⟩ := binaryOut_ok hout
      exact fixed_binary rfl hlt hdev href hsum
    · cases hw
  | binaryBigEndian =>
    simp only [writeHeader] at hw
    split at hw
    · next bytes hout =>
      cases hw
      obtain ⟨rfl, hdev, href, hlt⟩ := binaryOut_ok hout
      exact fixed_binary rfl hlt hdev href hsum
    · cases hw

end

end LibarchiveOxide.Cpio.Dialects
