import LibarchiveOxide.Cab.Reader

/-! # Checksums of a joined cabinet

A cabinet set is read through one synthesized cabinet without reserved areas, so the stored checksum
of each record is rewritten: the reserved bytes are taken out of it. The checksum is linear in its
seed (`cabChecksum_seed`), so a rewritten checksum that is not zero verifies the same; but a nonzero
checksum that equals the one of its reserved area is rewritten to zero, which means none. -/

namespace LibarchiveOxide.Cab.Checksum

open Core.Failure Core.Budget Lib Lib.LittleEndian Stream.Event Stream.Image Cab.Data

/-- `PhysicalRecord`: where the packed bytes of a record are, and what its rewritten header says. -/
structure PhysicalRecord where
  sourceIndex : ℕ
  payloadOffset : ℕ
  payloadLen : UInt16
  checksum : UInt32
  uncompressed : UInt16
deriving DecidableEq

/-- The record that `parse_cabinet` makes of the header and the reserved area at `cursor`. -/
def physicalRecord (sourceIndex cursor : ℕ) (header reserved : List Byte) : PhysicalRecord where
  sourceIndex := sourceIndex
  payloadOffset := cursor + 8 + reserved.length
  payloadLen := UInt16.ofNat (cbDataOf header)
  checksum := if storedChecksum header = 0 then 0
    else storedChecksum header ^^^ cabChecksum reserved 0
  uncompressed := UInt16.ofNat (cbUncompOf header)

/-- The header that `synthesize_cab` writes for a record. -/
def PhysicalRecord.header (r : PhysicalRecord) : List Byte :=
  leBytes 4 r.checksum.toNat ++ leBytes 2 r.payloadLen.toNat ++ leBytes 2 r.uncompressed.toNat

/-! ### The checksum is linear -/

theorem cabChecksum_nil (seed : UInt32) : cabChecksum [] seed = seed := UInt32.xor_zero

theorem cabChecksum_seed : ∀ (bs : List Byte) (seed : UInt32),
    cabChecksum bs seed = cabChecksum bs 0 ^^^ seed
  | [], seed => by rw [cabChecksum_nil, cabChecksum_nil, UInt32.zero_xor]
  | [a], seed => by simp only [cabChecksum, UInt32.zero_xor, UInt32.xor_comm]
  | [a, b], seed => by simp only [cabChecksum, UInt32.zero_xor, UInt32.xor_comm]
  | [a, b, c], seed => by simp only [cabChecksum, UInt32.zero_xor, UInt32.xor_comm]
  | a :: b :: c :: d :: rest, seed => by
    rw [cabChecksum, cabChecksum, cabChecksum_seed rest, cabChecksum_seed rest (0 ^^^ _),
      UInt32.zero_xor, UInt32.xor_assoc, UInt32.xor_comm seed]

/-- What a record without its reserved area sums up to. -/
def headerSum (header payload : List Byte) : UInt32 :=
  cabChecksum (sizeFields header) (cabChecksum payload 0)

theorem validateCfdataChecksum_eq_ok {stored : UInt32} {header reserved payload : List Byte} :
    validateCfdataChecksum stored (sizeFields header) reserved payload = .ok () ↔
      stored = 0 ∨ cabChecksum reserved 0 ^^^ headerSum header payload = stored := by
  unfold validateCfdataChecksum
  change (if stored = 0 then _ else
    if cabChecksum reserved (headerSum header payload) ≠ stored then _ else _) = _ ↔ _
  rw [cabChecksum_seed reserved]
  by_cases h0 : stored = 0
  · rw [if_pos h0]
    exact ⟨fun _ => .inl h0, fun _ => rfl⟩
  · rw [if_neg h0]
    by_cases h : cabChecksum reserved 0 ^^^ headerSum header payload = stored
    · rw [if_neg (not_not_intro h)]
      exact ⟨fun _ => .inr h, fun _ => rfl⟩
    · rw [if_pos h]
      exact ⟨nofun, fun h' => absurd h' (not_or.mpr ⟨h0, h⟩)⟩

/-! ### The rewritten header -/

theorem xor_eq_iff {a b c : UInt32} : a ^^^ b = c ↔ b = c ^^^ a := by
  constructor
  · rintro rfl
    rw [UInt32.xor_comm a, UInt32.xor_assoc, UInt32.xor_self, UInt32.xor_zero]
  · rintro rfl
    rw [UInt32.xor_comm c, ← UInt32.xor_assoc, UInt32.xor_self, UInt32.zero_xor]

theorem storedChecksum_header (r : PhysicalRecord) : storedChecksum r.header = r.checksum := by
  have htake : r.header.take 4 = leBytes 4 r.checksum.toNat := by
    rw [PhysicalRecord.header, List.append_assoc]
    exact List.take_left' (length_leBytes 4 _)
  have hlt := r.checksum.toNat_lt
  rw [storedChecksum, htake, leValue_leBytes_of_lt (by omega), UInt32.ofNat_toNat]

/-- A size survives being read and written. -/
theorem leBytes_toNat {bs : List Byte} (h : bs.length = 2) :
    leBytes 2 (UInt16.ofNat (leValue bs)).toNat = bs := by
  have hlt := leValue_lt bs
  rw [h] at hlt
  rw [UInt16.toNat_ofNat_of_lt' (by simpa [UInt16.size] using hlt)]
  have hback := leBytes_leValue bs
  rwa [h] at hback

/-- The sizes of a synthesized header are the ones of the physical header. -/
theorem sizeFields_header (sourceIndex cursor : ℕ) {header : List Byte} (reserved : List Byte)
    (h : header.length = 8) :
    sizeFields (physicalRecord sourceIndex cursor header reserved).header = sizeFields header := by
  have hdata : ((header.drop 4).take 2).length = 2 := by
    rw [List.length_take, List.length_drop]
    omega
  have huncomp : ((header.drop 6).take 2).length = 2 := by
    rw [List.length_take, List.length_drop]
    omega
  have hdrop : ((physicalRecord sourceIndex cursor header reserved).header).drop 4 =
      (header.drop 4).take 2 ++ (header.drop 6).take 2 := by
    rw [PhysicalRecord.header, List.append_assoc, List.drop_left' (length_leBytes 4 _)]
    exact congrArg₂ (· ++ ·) (leBytes_toNat hdata) (leBytes_toNat huncomp)
  rw [sizeFields, hdrop, List.take_of_length_le (by rw [List.length_append]; omega), sizeFields,
    show header.drop 6 = (header.drop 4).drop 2 by rw [List.drop_drop], ← List.take_add]

/-! ### Verification through the joined cabinet -/

/-- A `CFDATA` record as it lies in its own cabinet. -/
structure CfdataRecord where
  header : List Byte
  reserved : List Byte
  payload : List Byte
  header_length : header.length = 8
  reserved_length : reserved.length ≤ 255
  payload_length : payload.length = cbDataOf header

namespace CfdataRecord

variable (r : CfdataRecord)

/-- The header of the record in the synthesized cabinet, where it was found at `cursor`. -/
def joinedHeader (sourceIndex cursor : ℕ) : List Byte :=
  (physicalRecord sourceIndex cursor r.header r.reserved).header

/-- The record passes when it is read from its own cabinet. -/
def VerifiesPhysical : Prop :=
  validateCfdataChecksum (storedChecksum r.header) (sizeFields r.header) r.reserved r.payload = .ok ()

/-- The record passes when it is read through the synthesized cabinet. -/
def VerifiesJoined (sourceIndex cursor : ℕ) : Prop :=
  validateCfdataChecksum (storedChecksum (r.joinedHeader sourceIndex cursor))
    (sizeFields (r.joinedHeader sourceIndex cursor)) [] r.payload = .ok ()

instance : Decidable r.VerifiesPhysical := inferInstanceAs (Decidable (_ = _))

instance (sourceIndex cursor : ℕ) : Decidable (r.VerifiesJoined sourceIndex cursor) :=
  inferInstanceAs (Decidable (_ = _))

variable {r}

theorem verifiesPhysical_iff : r.VerifiesPhysical ↔ storedChecksum r.header = 0 ∨
    headerSum r.header r.payload = storedChecksum r.header ^^^ cabChecksum r.reserved 0 := by
  rw [VerifiesPhysical, validateCfdataChecksum_eq_ok, xor_eq_iff]

theorem verifiesJoined_iff {sourceIndex cursor : ℕ} :
    r.VerifiesJoined sourceIndex cursor ↔ storedChecksum r.header = 0 ∨
      storedChecksum r.header = cabChecksum r.reserved 0 ∨
      headerSum r.header r.payload = storedChecksum r.header ^^^ cabChecksum r.reserved 0 := by
  have hsum : headerSum (r.joinedHeader sourceIndex cursor) r.payload =
      headerSum r.header r.payload := by
    rw [headerSum, headerSum, joinedHeader,
      sizeFields_header sourceIndex cursor r.reserved r.header_length]
  rw [VerifiesJoined, validateCfdataChecksum_eq_ok, cabChecksum_nil, UInt32.zero_xor, hsum,
    joinedHeader, storedChecksum_header, physicalRecord]
  dsimp only
  by_cases h0 : storedChecksum r.header = 0
  · rw [if_pos h0]
    simp only [h0, true_or]
  · rw [if_neg h0, UInt32.xor_eq_zero_iff]
    simp only [h0, false_or]

/-- **The synthesized cabinet verifies a record as its own cabinet does, except** where the checksum
is the one of the reserved area alone and the rest of the record does not sum up to zero. -/
theorem verifiesPhysical_iff_verifiesJoined (r : CfdataRecord) (sourceIndex cursor : ℕ) :
    (r.VerifiesPhysical ↔ r.VerifiesJoined sourceIndex cursor) ↔
      (storedChecksum r.header = 0 ∨ storedChecksum r.header ≠ cabChecksum r.reserved 0 ∨
        headerSum r.header r.payload = 0) := by
  rw [verifiesPhysical_iff, verifiesJoined_iff]
  by_cases h0 : storedChecksum r.header = 0
  · simp only [h0, true_or]
  by_cases hr : storedChecksum r.header = cabChecksum r.reserved 0
  · rw [← hr, UInt32.xor_self]
    simp only [h0, false_or, true_or, iff_true, ne_eq, not_true_eq_false]
  · simp only [h0, hr, false_or, ne_eq, not_false_eq_true, true_or]

/-- A stored byte whose checksum is the one of the reserved byte. -/
def reservedOnly : CfdataRecord where
  header := [1, 0, 0, 0, 1, 0, 1, 0]
  reserved := [1]
  payload := [0x41]
  header_length := rfl
  reserved_length := by decide
  payload_length := by decide

/-- The wrong checksum of that record is found in its own cabinet, and not in the synthesized one. -/
theorem reservedOnly_unverified :
    ¬ (reservedOnly.VerifiesPhysical ↔ reservedOnly.VerifiesJoined 0 36) := by decide

end CfdataRecord

end LibarchiveOxide.Cab.Checksum
