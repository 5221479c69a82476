import LibarchiveOxide.Lib.Search
import LibarchiveOxide.Lib.Slice
import LibarchiveOxide.Stream.Event
import LibarchiveOxide.Zip.Encoder

/-! # Finding the end record

The reader looks for the last signature of an end record in the last 65557 bytes, and does not check
that the record it finds ends with the archive. The writer puts the archive comment at the end of its
last record, whatever bytes it has. -/

namespace LibarchiveOxide.Zip.EndRecord

open Core.Failure Core.Metadata Core.Budget Core.Protocol Core.Encode Lib Lib.LittleEndian Lib.Slice
open Lib.Search Stream.Event Stream.Image Zip.Fields Zip.Encoder

/-! ### The reader -/

/-- A failure of the reader. -/
def zipFailure (kind : ErrorKind) (context : String) : StreamError := .archive (zipError kind context)

/-- `le16`, `le32` and `le64`. -/
def leAt (name : String) (n : ℕ) (bytes : List Byte) (offset : ℕ) : Except StreamError ℕ :=
  if offset + n ≤ bytes.length then .ok (leValue (window bytes offset (offset + n)))
  else .error (zipFailure .malformed ("truncated little-endian " ++ name))

def le16 : List Byte → ℕ → Except StreamError ℕ := leAt "u16" 2
def le32 : List Byte → ℕ → Except StreamError ℕ := leAt "u32" 4
def le64 : List Byte → ℕ → Except StreamError ℕ := leAt "u64" 8

/-- `EOCD_MIN`. -/
def eocdMin : ℕ := 22

/-- `EOCD_SEARCH`. -/
def eocdSearch : ℕ := 65535 + eocdMin

/-- `ZIP64_LOCATOR`. -/
def zip64Locator : ℕ := 20

/-- The signature of an end record. -/
def signature : List Byte := [0x50, 0x4b, 5, 6]

/-- What is found at the end of an archive. -/
structure EndOfCentral where
  position : ℕ
  metadata : ArchiveMetadata
  count : ℕ
  centralOffset : ℕ
deriving DecidableEq

/-- The ZIP64 end record of an archive whose end record is at `position`. -/
def readZip64 (image : List Byte) (position : ℕ) : Except StreamError (ℕ × ℕ) := do
  if position < zip64Locator then throw (zipFailure .malformed "ZIP64 locator is missing")
  let locator ← readExact image (position - zip64Locator) zip64Locator
  if locator.take 4 ≠ [0x50, 0x4b, 6, 7] then throw (zipFailure .malformed "bad ZIP64 locator")
  let recordOffset ← le64 locator 8
  let record ← readExact image recordOffset 56
  if record.take 4 ≠ [0x50, 0x4b, 6, 6] then throw (zipFailure .malformed "bad ZIP64 end record")
  let count ← le64 record 32
  let centralOffset ← le64 record 48
  .ok (count, centralOffset)

/-- The archive comment of the end record at `eocd` in the tail of an archive. -/
def readComment (tail : List Byte) (eocd : ℕ) : Except StreamError (List Byte) := do
  let length ← le16 (tail.drop eocd) 20
  let start := eocd + eocdMin
  let «end» ← okOr (checkedAdd start length) (zipFailure .malformed "archive comment length overflow")
  if «end» ≤ tail.length then .ok (window tail start «end»)
  else .error (zipFailure .malformed "truncated archive comment")

/-- The metadata of an archive with this comment. -/
def commentMetadata (comment : List Byte) : ArchiveMetadata :=
  if comment = [] then {} else { comment := some comment }

/-- The first part of `parse_zip_index`: the end record, the archive comment, and what the end record
or the ZIP64 one says about the central directory. -/
def findEnd (image : List Byte) (limits : Limits) : Except StreamError EndOfCentral := do
  let tailLength := min image.length eocdSearch
  let tail ← readExact image (image.length - tailLength) tailLength
  let eocd ← okOr (lastOccurrence signature tail)
    (zipFailure .malformed "end-of-central-directory record not found")
  if tail.length - eocd < eocdMin then
    throw (zipFailure .malformed "truncated end-of-central-directory record")
  let comment ← readComment tail eocd
  if exceeds comment.length limits.metadataBytes then
    throw (zipFailure .limit "archive comment exceeds metadata limit")
  let position := image.length - tailLength + eocd
  let count ← le16 (tail.drop eocd) 10
  let centralOffset ← le32 (tail.drop eocd) 16
  if count = u16Sentinel ∨ centralOffset = u32Sentinel then do
    let (count, centralOffset) ← readZip64 image position
    .ok ⟨position, commentMetadata comment, count, centralOffset⟩
  else .ok ⟨position, commentMetadata comment, count, centralOffset⟩

/-! ### Reading an end record -/

theorem leAt_append {name : String} {n a v : ℕ} {pre post : List Byte} (ha : pre.length = a)
    (hv : v < 256 ^ n) : leAt name n (pre ++ (leBytes n v ++ post)) a = .ok v := by
  rw [leAt, if_pos (by simp only [List.length_append, length_leBytes]; omega), window,
    List.drop_left' ha, Nat.add_sub_cancel_left, List.take_left' (length_leBytes n v),
    leValue_leBytes_of_lt hv]

theorem fieldU16_lt (n : ℕ) : fieldU16 n < 256 ^ 2 := by
  unfold fieldU16 u16Sentinel
  split_ifs <;> omega

theorem fieldU32_lt (n : ℕ) : fieldU32 n < 256 ^ 4 := by
  unfold fieldU32 u32Sentinel
  split_ifs <;> omega

theorem fieldU16_eq_sentinel {n : ℕ} : fieldU16 n = u16Sentinel ↔ u16Sentinel ≤ n := by
  unfold fieldU16
  split_ifs with h
  · exact ⟨fun h' => h'.ge, fun h' => le_antisymm h h'⟩
  · exact ⟨fun _ => (Nat.lt_of_not_le h).le, fun _ => rfl⟩

theorem fieldU32_eq_sentinel {n : ℕ} : fieldU32 n = u32Sentinel ↔ u32Sentinel ≤ n := by
  unfold fieldU32
  split_ifs with h
  · exact ⟨fun h' => h'.ge, fun h' => le_antisymm h h'⟩
  · exact ⟨fun _ => (Nat.lt_of_not_le h).le, fun _ => rfl⟩

theorem leBytes_eocdSignature : leBytes 4 eocdSignature = signature := by decide

theorem length_endRecord (count size start : ℕ) (comment : List Byte) :
    (endRecord count size start comment).length = eocdMin + comment.length := by
  unfold endRecord eocdMin
  simp only [List.length_append, length_leBytes]

theorem endRecord_start (count size start : ℕ) (comment : List Byte) :
    signature <+: endRecord count size start comment := by
  unfold endRecord
  rw [leBytes_eocdSignature]
  simp only [List.append_assoc]
  exact List.prefix_append _ _

variable {count size start : ℕ} {comment : List Byte}

/-- The fields of an end record. -/
theorem endRecord_fields (hcomment : comment.length ≤ u16Sentinel) :
    le16 (endRecord count size start comment) 10 = .ok (fieldU16 count) ∧
    le32 (endRecord count size start comment) 16 = .ok (fieldU32 start) ∧
    le16 (endRecord count size start comment) 20 = .ok comment.length := by
  have hsentinel : u16Sentinel = 65535 := rfl
  have hfield : fieldU16 comment.length = comment.length := if_pos hcomment
  obtain ⟨a, ha⟩ : ∃ a, a = leBytes 4 eocdSignature ++ leBytes 2 0 ++ leBytes 2 0 ++
    leBytes 2 (fieldU16 count) := ⟨_, rfl⟩
  have halen : a.length = 10 := by
    rw [ha]
    simp only [List.length_append, length_leBytes]
  have heq : endRecord count size start comment = a ++ (leBytes 2 (fieldU16 count) ++
      (leBytes 4 (fieldU32 size) ++ (leBytes 4 (fieldU32 start) ++
        (leBytes 2 comment.length ++ comment)))) := by
    unfold endRecord
    rw [hfield, ha]
    simp only [List.append_assoc]
  rw [heq]
  refine ⟨leAt_append halen (fieldU16_lt _), ?_, ?_⟩
  · rw [← List.append_assoc, ← List.append_assoc]
    refine leAt_append ?_ (fieldU32_lt _)
    simp only [List.length_append, length_leBytes, halen]
  · rw [← List.append_assoc, ← List.append_assoc, ← List.append_assoc]
    refine leAt_append ?_ (by omega)
    simp only [List.length_append, length_leBytes, halen]

theorem readComment_endRecord (pre : List Byte) (hcomment : comment.length ≤ u16Sentinel)
    (hpre : pre.length ≤ eocdSearch) :
    readComment (pre ++ endRecord count size start comment) pre.length = .ok comment := by
  have hsentinel : u16Sentinel = 65535 := rfl
  have hsearch : eocdSearch = 65557 := rfl
  have hmin : eocdMin = 22 := rfl
  have hmax : u64Max = 18446744073709551615 := rfl
  have hlength := length_endRecord count size start comment
  obtain ⟨fixed, hfixed⟩ : ∃ fixed, endRecord count size start comment = fixed ++ comment :=
    ⟨_, rfl⟩
  have hfixedlen : (pre ++ fixed).length = pre.length + eocdMin := by
    rw [hfixed, List.length_append] at hlength
    rw [List.length_append]
    omega
  unfold readComment
  dsimp only
  rw [List.drop_left, (endRecord_fields hcomment).2.2, Result.ok_bind,
    checkedAdd_of_le (by omega), okOr_some, Result.ok_bind,
    if_pos (by rw [List.length_append, hlength]; omega), hfixed, ← List.append_assoc, window,
    List.drop_left' hfixedlen, Nat.add_sub_cancel_left, List.take_length]

/-- The ZIP64 end record before an end record. -/
theorem readZip64_append {pre post : List Byte} (hpre : pre.length = start + size)
    (hmax : start + size ≤ u64Max) :
    ∃ r, readZip64 (pre ++ (zip64EndRecord count size start ++ post))
      (pre ++ zip64EndRecord count size start).length = .ok r := by
  obtain ⟨record, hrecord⟩ : ∃ record, record = leBytes 4 zip64EocdSignature ++ leBytes 8 44 ++
    leBytes 2 0x031e ++ leBytes 2 45 ++ leBytes 4 0 ++ leBytes 4 0 ++ leBytes 8 count ++
    leBytes 8 count ++ leBytes 8 size ++ leBytes 8 start := ⟨_, rfl⟩
  obtain ⟨locator, hlocator⟩ : ∃ locator, locator = leBytes 4 zip64LocatorSignature ++
    leBytes 4 0 ++ leBytes 8 (start + size) ++ leBytes 4 1 := ⟨_, rfl⟩
  have hz : zip64EndRecord count size start = record ++ locator := by
    unfold zip64EndRecord
    rw [hrecord, hlocator]
    simp only [List.append_assoc]
  have hrecordlen : record.length = 56 := by
    rw [hrecord]
    simp only [List.length_append, length_leBytes]
  have hlocatorlen : locator.length = zip64Locator := by
    rw [hlocator]
    simp only [List.length_append, length_leBytes]
    rfl
  have hposition : (pre ++ (record ++ locator)).length - zip64Locator = (pre ++ record).length := by
    simp only [List.length_append]
    omega
  have hreadLocator : readExact (pre ++ (record ++ locator ++ post))
      ((pre ++ (record ++ locator)).length - zip64Locator) zip64Locator = .ok locator := by
    rw [hposition, ← hlocatorlen, List.append_assoc, ← List.append_assoc]
    exact readExact_append (pre ++ record) locator post
  have hreadRecord : readExact (pre ++ (record ++ locator ++ post)) (start + size) 56 =
      .ok record := by
    rw [← hpre, ← hrecordlen, List.append_assoc]
    exact readExact_append pre record (locator ++ post)
  have hoffset : le64 locator 8 = .ok (start + size) := by
    have hlt : start + size < 256 ^ 8 := by
      unfold u64Max at hmax
      omega
    rw [hlocator, List.append_assoc]
    exact leAt_append (by simp only [List.length_append, length_leBytes]) hlt
  have hfield {n : ℕ} (hn : n + 8 ≤ 56) : ∃ v, le64 record n = .ok v :=
    ⟨_, if_pos (by rw [hrecordlen]; exact hn)⟩
  obtain ⟨c, hc⟩ := hfield (show 32 + 8 ≤ 56 by decide)
  obtain ⟨o, ho⟩ := hfield (show 48 + 8 ≤ 56 by decide)
  have hlocatorTake : locator.take 4 = [0x50, 0x4b, 6, 7] := by
    rw [hlocator]
    simp only [List.append_assoc]
    exact List.take_left' rfl
  have hrecordTake : record.take 4 = [0x50, 0x4b, 6, 6] := by
    rw [hrecord]
    simp only [List.append_assoc]
    exact List.take_left' rfl
  refine ⟨(c, o), ?_⟩
  unfold readZip64
  rw [hz]
  refine Result.guard_eq_ok.mpr ⟨?_, ?_⟩
  · simp only [List.length_append, hlocatorlen]
    omega
  refine Result.bind_eq_ok.mpr ⟨locator, hreadLocator, ?_⟩
  refine Result.guard_eq_ok.mpr ⟨not_not_intro hlocatorTake, ?_⟩
  refine Result.bind_eq_ok.mpr ⟨_, hoffset, Result.bind_eq_ok.mpr ⟨record, hreadRecord, ?_⟩⟩
  refine Result.guard_eq_ok.mpr ⟨not_not_intro hrecordTake, ?_⟩
  exact Result.bind_eq_ok.mpr ⟨c, hc, Result.bind_eq_ok.mpr ⟨o, ho, rfl⟩⟩

/-- The reader finds the end record at the end of these bytes, with this comment. -/
def FindsLast (image : List Byte) (limits : Limits) (comment : List Byte) : Prop :=
  ∃ r, findEnd image limits = .ok r ∧ r.position + eocdMin + comment.length = image.length ∧
    r.metadata.comment.getD [] = comment

theorem commentMetadata_comment (comment : List Byte) :
    (commentMetadata comment).comment.getD [] = comment := by
  unfold commentMetadata
  split_ifs with h
  · exact h.symm
  · rfl

/-- The tail of an archive that ends with an end record. -/
theorem tail_eq (pre : List Byte) (hcomment : comment.length ≤ u16Sentinel) :
    ∃ p, p.length + ((pre ++ endRecord count size start comment).length -
        min (pre ++ endRecord count size start comment).length eocdSearch) = pre.length ∧
      p.length ≤ eocdSearch ∧
      readExact (pre ++ endRecord count size start comment)
        ((pre ++ endRecord count size start comment).length -
          min (pre ++ endRecord count size start comment).length eocdSearch)
        (min (pre ++ endRecord count size start comment).length eocdSearch) =
        .ok (p ++ endRecord count size start comment) := by
  have hsentinel : u16Sentinel = 65535 := rfl
  have hsearch : eocdSearch = 65557 := rfl
  have hmin : eocdMin = 22 := rfl
  have hlength := length_endRecord count size start comment
  obtain ⟨image, himage⟩ : ∃ image, image = pre ++ endRecord count size start comment := ⟨_, rfl⟩
  have himagelen : image.length = pre.length + (eocdMin + comment.length) := by
    rw [himage, List.length_append, hlength]
  rw [← himage]
  refine ⟨pre.drop (image.length - min image.length eocdSearch), ?_, ?_, ?_⟩
  · rw [List.length_drop]
    omega
  · rw [List.length_drop]
    omega
  · rw [readExact, if_pos (by omega)]
    congr 1
    rw [List.take_of_length_le (by rw [List.length_drop]; omega), himage,
      List.drop_append_of_le_length]
    rw [← himage]
    omega

/-- **The end record is found** exactly if the signature does not occur again in it. -/
theorem findsLast_iff {pre : List Byte} {limits : Limits} (hcomment : comment.length ≤ u16Sentinel)
    (hlimits : exceeds comment.length limits.metadataBytes = false)
    (hpre : pre.length = start + size) (hmax : start + size ≤ u64Max) :
    FindsLast (pre ++ finalRecords count size start comment) limits comment ↔
      ¬ signature <:+: (endRecord count size start comment).tail := by
  obtain ⟨z, hz⟩ : ∃ z, z = if u16Sentinel ≤ count ∨ u32Sentinel ≤ size ∨ u32Sentinel ≤ start then
    zip64EndRecord count size start else [] := ⟨_, rfl⟩
  have hfinal : pre ++ finalRecords count size start comment =
      (pre ++ z) ++ endRecord count size start comment := by
    rw [finalRecords, ← hz, List.append_assoc]
  have hmin : eocdMin = 22 := rfl
  obtain ⟨p, hplen, hple, hread⟩ := @tail_eq count size start comment (pre ++ z) hcomment
  have hlength := length_endRecord count size start comment
  have hiff : lastOccurrence signature (p ++ endRecord count size start comment) = some p.length ↔
      _ := lastOccurrence_part_iff (by decide) (endRecord_start count size start comment)
  rw [← hiff, hfinal]
  constructor
  · rintro ⟨r, hfind, hposition, -⟩
    unfold findEnd at hfind
    dsimp only at hfind
    rw [hread, Result.ok_bind] at hfind
    obtain ⟨eocd, heocd, hfind⟩ := Result.bind_eq_ok.mp hfind
    obtain ⟨-, hfind⟩ := Result.guard_eq_ok.mp hfind
    obtain ⟨c, -, hfind⟩ := Result.bind_eq_ok.mp hfind
    obtain ⟨-, hfind⟩ := Result.guard_eq_ok.mp hfind
    obtain ⟨count', -, hfind⟩ := Result.bind_eq_ok.mp hfind
    obtain ⟨offset, -, hfind⟩ := Result.bind_eq_ok.mp hfind
    have hpos : r.position = (pre ++ z ++ endRecord count size start comment).length -
        min (pre ++ z ++ endRecord count size start comment).length eocdSearch + eocd := by
      split_ifs at hfind
      · obtain ⟨⟨_, _⟩, -, hfind⟩ := Result.bind_eq_ok.mp hfind
        cases hfind
        rfl
      · cases hfind
        rfl
    rw [okOr_eq_ok] at heocd
    rw [heocd]
    rw [@List.length_append _ (pre ++ z) (endRecord count size start comment)] at hposition hpos hplen
    exact congrArg some (by omega)
  · intro hlast
    obtain ⟨position, hposition⟩ : ∃ position, position =
      (pre ++ z ++ endRecord count size start comment).length -
        min (pre ++ z ++ endRecord count size start comment).length eocdSearch + p.length := ⟨_, rfl⟩
    have hlen : position = (pre ++ z).length := by omega
    have hwhole : position + eocdMin + comment.length =
        (pre ++ z ++ endRecord count size start comment).length := by
      rw [hlen, @List.length_append _ (pre ++ z) (endRecord count size start comment), hlength]
      omega
    obtain ⟨hcount, hoffset, -⟩ := @endRecord_fields count size start comment hcomment
    have hend : ∃ r, (if fieldU16 count = u16Sentinel ∨ fieldU32 start = u32Sentinel then do
          let (count, centralOffset) ←
            readZip64 (pre ++ z ++ endRecord count size start comment) position
          .ok ⟨position, commentMetadata comment, count, centralOffset⟩
        else .ok ⟨position, commentMetadata comment, fieldU16 count, fieldU32 start⟩) =
          (.ok r : Except StreamError EndOfCentral) ∧ r.position = position ∧
            r.metadata = commentMetadata comment := by
      by_cases hzip64 : fieldU16 count = u16Sentinel ∨ fieldU32 start = u32Sentinel
      · have hz' : z = zip64EndRecord count size start := by
          rw [fieldU16_eq_sentinel, fieldU32_eq_sentinel] at hzip64
          rw [hz, if_pos (hzip64.imp_right .inr)]
        obtain ⟨⟨c, o⟩, hr⟩ := @readZip64_append count size start pre
          (endRecord count size start comment) hpre hmax
        rw [← hz', ← List.append_assoc, ← hlen] at hr
        rw [if_pos hzip64, hr]
        exact ⟨_, rfl, rfl, rfl⟩
      · rw [if_neg hzip64]
        exact ⟨_, rfl, rfl, rfl⟩
    obtain ⟨r, hr, hrpos, hrmeta⟩ := hend
    refine ⟨r, ?_, by rw [hrpos]; exact hwhole, by rw [hrmeta]; exact commentMetadata_comment comment⟩
    unfold findEnd
    dsimp only
    rw [hread, Result.ok_bind, hlast, okOr_some, Result.ok_bind]
    refine Result.guard_eq_ok.mpr ⟨?_, ?_⟩
    · rw [List.length_append, hlength]
      omega
    rw [readComment_endRecord p hcomment hple, Result.ok_bind]
    refine Result.guard_eq_ok.mpr ⟨by rw [hlimits]; exact Bool.false_ne_true, ?_⟩
    rw [List.drop_left, hcount, Result.ok_bind, hoffset, Result.ok_bind, ← hposition]
    exact hr

end LibarchiveOxide.Zip.EndRecord
