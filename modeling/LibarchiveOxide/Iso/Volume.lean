import LibarchiveOxide.Iso.Layout
import LibarchiveOxide.Iso.Reader

/-! # The texts of the volume

What `set_archive_metadata` was given goes into the primary volume descriptor, and `parse_iso_index`
reads it there. The name of the volume and the system come back; the application does not, since spaces
are filled over it afterwards (`texts_back_iff`). -/

namespace LibarchiveOxide.Iso.Volume

open Core.Failure Core.Budget Core.Metadata Lib.LittleEndian Lib.Result Lib.Slice Extract.Path
open Stream.Event Stream.Seekable Stream.Image Iso.Fields Iso.Names Iso.Records Iso.Writer
open Iso.Finish Iso.Session Iso.Planning Iso.Descriptors Iso.Layout Iso.Reader

variable {metadata : ArchiveMetadata} {descriptor : List Byte} {v : VolumeDescriptor}

/-! ### Texts -/

/-- A text that trimming leaves as it is. -/
def Trimmed (text : List Byte) : Prop := ∀ b, text.getLast? = some b → b ≠ chr ' ' ∧ b ≠ 0

/-- Spaces behind a text are trimmed. -/
theorem trimIsoText_padded {text : List Byte} (h : Trimmed text) (n : ℕ) :
    trimIsoText (text ++ List.replicate n (chr ' ')) = text := by
  have hspaces : ∀ b ∈ List.replicate n (chr ' '), (b == chr ' ' || b == 0) = true := by
    intro b hb
    rw [List.eq_of_mem_replicate hb]
    rfl
  have htext : text.reverse.dropWhile (fun b => b == chr ' ' || b == 0) = text.reverse := by
    rcases hr : text.reverse with _ | ⟨b, rest⟩
    · rfl
    · have hlast : text.getLast? = some b := by rw [← List.head?_reverse, hr, List.head?_cons]
      obtain ⟨h1, h2⟩ := h b hlast
      refine List.dropWhile_cons_of_neg ?_
      simp [h1, h2]
  rw [trimIsoText, List.reverse_append, List.reverse_replicate, List.dropWhile_append_of_pos hspaces,
    htext, List.reverse_reverse]

/-- A byte of a name that `primary_name` leaves as it is. -/
def isPrimary (b : Byte) : Bool := isUpper b || isDigit b || b == chr '_' || b == chr '.'

theorem primaryByte_of_isPrimary {b : Byte} (h : isPrimary b = true) : primaryByte b = b := by
  have hlower : isLower b = false := by
    rw [Bool.eq_false_iff]
    intro hl
    simp only [isPrimary, isUpper, isDigit, isLower, Bool.or_eq_true, Bool.and_eq_true,
      decide_eq_true_eq, beq_iff_eq, UInt8.le_iff_toNat_le, ← UInt8.toNat_inj] at h hl
    simp [chr] at h hl
    omega
  rw [isPrimary] at h
  rw [primaryByte, hlower, h]
  rfl

theorem isPrimary_ne {b : Byte} (h : isPrimary b = true) : b ≠ chr ' ' ∧ b ≠ 0 := by
  refine ⟨fun he => ?_, fun he => ?_⟩
  · rw [he] at h
    exact absurd h (by decide)
  · rw [he] at h
    exact absurd h (by decide)

theorem primaryName_of_isPrimary {name : List Byte} (hne : name ≠ [])
    (h : ∀ b ∈ name, isPrimary b = true) : primaryName name = name := by
  rw [primaryName, if_neg hne]
  exact (List.map_congr_left fun b hb => primaryByte_of_isPrimary (h b hb)).trans (List.map_id _)

/-- A text of at most `n` bytes that can be read back. -/
structure Text (n : ℕ) (text : List Byte) : Prop where
  nonempty : text ≠ []
  short : text.length ≤ n
  trimmed : Trimmed text

/-- **Metadata that the descriptor has room for.** -/
structure Suitable (metadata : ArchiveMetadata) : Prop where
  volumeName : ∃ name, metadata.volumeName = some name ∧ name.raw ≠ [] ∧ name.raw.length ≤ 32 ∧
    ∀ b ∈ name.raw, isPrimary b = true
  system : ∀ value, volumeProperty metadata "system-id" = some value → Text 32 value
  application : ∀ value, volumeProperty metadata "application-id" = some value → Text 128 value

/-- The name of the volume, the system and the application are the same. -/
def SameTexts (metadata reported : ArchiveMetadata) : Prop :=
  reported.volumeName.map ArchivePath.raw = metadata.volumeName.map ArchivePath.raw ∧
  volumeProperty reported "system-id" = volumeProperty metadata "system-id" ∧
  volumeProperty reported "application-id" = volumeProperty metadata "application-id"

/-! ### The primary descriptor -/

/-- **What is reported**: the name of the volume and the system, and no application. -/
theorem descriptorTexts_ok (hm : Suitable metadata)
    (h : volumeDescriptor v metadata = .ok descriptor) (hv : v.joliet = false) :
    (descriptorTexts descriptor {}).volumeName.map ArchivePath.raw =
        metadata.volumeName.map ArchivePath.raw ∧
      volumeProperty (descriptorTexts descriptor {}) "system-id" =
        volumeProperty metadata "system-id" ∧
      volumeProperty (descriptorTexts descriptor {}) "application-id" = none := by
  obtain ⟨name, hname, hne, hshort, hchars⟩ := hm.volumeName
  have hvolume : (primaryName (volumeNameOf metadata)).take 32 = name.raw := by
    rw [volumeNameOf, hname, Option.map_some, Option.getD_some, primaryName_of_isPrimary hne hchars,
      List.take_of_length_le hshort]
  have htrimmed : Trimmed name.raw := fun b hb => isPrimary_ne (hchars b (List.mem_of_getLast? hb))
  have hread : trimIsoText (window descriptor 40 72) = name.raw := by
    rw [window_volumeName h hv hvolume, trimIsoText_padded htrimmed]
  have happlication : trimIsoText (window descriptor 574 702) = [] := by
    rw [window_application h hv]
    exact @trimIsoText_padded [] nofun 128
  have hraw : ∀ value, (encodedIsoText value).raw = value := by
    intro value
    unfold encodedIsoText
    split_ifs <;> rfl
  have hsystem : trimIsoText (window descriptor 8 40) =
      (volumeProperty metadata "system-id").getD [] := by
    have htext : ((volumeProperty metadata "system-id").getD []).take 32 =
        (volumeProperty metadata "system-id").getD [] ∧
        Trimmed ((volumeProperty metadata "system-id").getD []) := by
      cases hs : volumeProperty metadata "system-id" with
      | none => exact ⟨rfl, nofun⟩
      | some value =>
        obtain ⟨-, hlong, htrim⟩ := hm.system value hs
        exact ⟨List.take_of_length_le hlong, htrim⟩
    rw [window_system h hv htext.1, trimIsoText_padded htext.2]
  simp only [descriptorTexts, hread, happlication, hsystem, if_neg hne, Option.map_some, hraw, hname]
  refine ⟨trivial, ?_⟩
  cases hs : volumeProperty metadata "system-id" with
  | none => exact ⟨rfl, rfl⟩
  | some value =>
    have hvalue := (hm.system value hs).nonempty
    simp [textExtension, hvalue, volumeProperty, bstr]

/-! ### Reading -/

variable {image : List Byte} {volumes : Volumes}

theorem readExact_window {position n : ℕ} (h : position + n ≤ image.length) :
    readExact image position n = .ok (window image position (position + n)) := by
  rw [readExact, if_pos h, window, Nat.add_sub_cancel_left]

/-- A number in both orders is read. -/
theorem isoNumber_window {bytes : List Byte} {n offset value : ℕ} (truncated disagree : String)
    (hlength : offset + n + n ≤ bytes.length)
    (h : window bytes offset (offset + n + n) = bothEndian n value) :
    isoNumber n truncated disagree bytes offset = .ok (value % 256 ^ n) := by
  have hlen : (leBytes n value).length = n := length_leBytes n value
  have hjoin := window_join bytes (Nat.le_add_right offset n) (Nat.le_add_right (offset + n) n)
  rw [h, bothEndian] at hjoin
  obtain ⟨hlittle, hbig⟩ := List.append_inj hjoin (by
    rw [length_window_of_le (by omega), hlen, Nat.add_sub_cancel_left])
  rw [isoNumber, if_neg (by omega), hlittle, hbig, List.reverse_reverse]
  simp only [ne_eq, not_true_eq_false, if_false, leValue_leBytes]

/-- The first seven bytes of a descriptor. -/
theorem header_ok {n : ℕ} (h : window descriptor 0 7 = header n) :
    window descriptor 1 6 = bstr "CD001" ∧ descriptor.getD 6 0 = 1 ∧
      descriptor.head? = some (UInt8.ofNat n) := by
  have hget : ∀ j < 7, descriptor[j]? = (header n)[j]? := by
    intro j hj
    rw [← h, getElem?_window, if_pos hj, Nat.zero_add]
  refine ⟨?_, ?_, ?_⟩
  · have hinner := window_window descriptor (a := 0) (b := 7) (c := 1) (d := 5) (by decide)
    rw [Nat.zero_add, h] at hinner
    exact hinner.symm
  · rw [List.getD_eq_getElem?_getD, hget 6 (by decide)]
    rfl
  · rw [List.head?_eq_getElem?, hget 0 (by decide)]
    rfl

/-- The descriptors are read. -/
theorem readDescriptor_ok (h : volumeDescriptor v metadata = .ok descriptor)
    (hv : v.descriptorType = 1 ∧ v.joliet = false ∨ v.descriptorType = 2) :
    ∃ volumes', readDescriptor descriptor volumes = .ok volumes' ∧
      volumes'.primary = (if v.descriptorType = 1 then
        some ⟨v.rootLba % 256 ^ 4, v.rootSize % 256 ^ 4, false⟩ else volumes.primary) ∧
      volumes'.archiveMetadata = if v.descriptorType = 1 then
        descriptorTexts descriptor volumes.archiveMetadata else volumes.archiveMetadata := by
  have hlength := length_volumeDescriptor h
  have hs : SECTOR = 2048 := rfl
  obtain ⟨-, -, hhead⟩ := header_ok (window_header h)
  obtain ⟨hlba, hsize⟩ := window_root h
  have hroot : ∀ joliet, descriptorRoot descriptor joliet =
      .ok ⟨v.rootLba % 256 ^ 4, v.rootSize % 256 ^ 4, joliet⟩ := by
    intro joliet
    have h1 : isoU32 descriptor 158 = .ok (v.rootLba % 256 ^ 4) :=
      isoNumber_window _ _ (by omega) hlba
    have h2 : isoU32 descriptor 166 = .ok (v.rootSize % 256 ^ 4) :=
      isoNumber_window _ _ (by omega) hsize
    rw [descriptorRoot, h1, h2]
    rfl
  rcases hv with ⟨ht, -⟩ | ht
  · have hblock : isoU16 descriptor 128 = .ok (SECTOR % 256 ^ 2) :=
      isoNumber_window _ _ (by omega) (window_blockSize h)
    have hone : descriptor.head? = some 1 := by rw [hhead, ht]; rfl
    rw [readDescriptor, if_pos hone, hblock, hroot, if_pos ht, if_pos ht]
    exact ⟨_, rfl, rfl, rfl⟩
  · rw [ht] at hhead
    have hone : ¬ descriptor.head? = some 1 := by
      rw [hhead]
      decide
    have htype : ¬ v.descriptorType = 1 := by omega
    rw [readDescriptor, if_neg hone, if_neg htype, if_neg htype, hroot]
    split_ifs
    · exact ⟨_, rfl, rfl, rfl⟩
    · exact ⟨_, rfl, rfl, rfl⟩

/-- One round of the loop over the descriptors. -/
theorem descriptorLoop_succ {left index n : ℕ}
    (hlong : (DESCRIPTOR_START + index) * SECTOR + SECTOR ≤ image.length)
    (hwindow : window image ((DESCRIPTOR_START + index) * SECTOR)
      ((DESCRIPTOR_START + index) * SECTOR + SECTOR) = descriptor)
    (hheader : window descriptor 0 7 = header n) :
    descriptorLoop image (left + 1) index volumes =
      if UInt8.ofNat n = 255 then .ok volumes
      else readDescriptor descriptor volumes >>= descriptorLoop image left (index + 1) := by
  obtain ⟨hid, hversion, hhead⟩ := header_ok hheader
  rw [descriptorLoop]
  simp only [if_neg (show ¬ image.length < (DESCRIPTOR_START + index) * SECTOR + SECTOR by omega),
    readExact_window hlong, hwindow, hid, hversion, hhead, ok_bind, pure_eq_ok, ne_eq, not_true_eq_false,
    or_self, if_false, Option.some.injEq]

/-- **The descriptors of an image** are read to the end. -/
theorem descriptorLoop_ok {layout : Finish.Layout} {primaryPath jolietPath : ℕ} {out : Output}
    {primary supplementary : List Byte}
    (h : Described layout metadata primaryPath jolietPath out primary supplementary) :
    ∃ volumes, descriptorLoop out.bytes ISO_MAX_DESCRIPTORS 0 {} = .ok volumes ∧
      volumes.primary = some ⟨(nodeAt layout.nodes 0).primaryLba % 256 ^ 4,
        (nodeAt layout.nodes 0).primarySize % 256 ^ 4, false⟩ ∧
      volumes.archiveMetadata = descriptorTexts primary {} := by
  have hs : SECTOR = 2048 := rfl
  have hd : DESCRIPTOR_START = 16 := rfl
  have hlong : 19 * SECTOR ≤ out.bytes.length := by
    have hthird := congrArg List.length h.third
    rw [length_window, terminator, List.length_append, List.length_replicate] at hthird
    simp only [bstr, List.length_append, List.length_cons, List.length_nil, hs] at hthird ⊢
    simp at hthird
    omega
  have hterminator : window terminator 0 7 = header 255 := rfl
  obtain ⟨v1, hv1, hp1, hm1⟩ := @readDescriptor_ok _ _ _ {} h.buildsPrimary (.inl ⟨rfl, rfl⟩)
  obtain ⟨v2, hv2, hp2, hm2⟩ := @readDescriptor_ok _ _ _ v1 h.buildsSupplementary (.inr rfl)
  have hprimary : v2.primary = v1.primary := hp2
  have hmetadata : v2.archiveMetadata = v1.archiveMetadata := hm2
  have hheader1 : window primary 0 7 = header 1 := window_header h.buildsPrimary
  have hheader2 : window supplementary 0 7 = header 2 := window_header h.buildsSupplementary
  have hfirst := h.first
  have hsecond := h.second
  have hthird := h.third
  simp only [hs, Nat.reduceMul] at hlong hfirst hsecond hthird
  refine ⟨v2, ?_, hprimary.trans hp1, hmetadata.trans hm1⟩
  rw [ISO_MAX_DESCRIPTORS,
    descriptorLoop_succ (by rw [hd, hs]; omega) (by rw [hd, hs]; exact hfirst) hheader1,
    if_neg (by decide), hv1, ok_bind,
    descriptorLoop_succ (by rw [hd, hs]; omega) (by rw [hd, hs]; exact hsecond) hheader2,
    if_neg (by decide), hv2, ok_bind,
    descriptorLoop_succ (by rw [hd, hs]; omega) (by rw [hd, hs]; exact hthird) hterminator,
    if_pos (by decide)]

/-- What `parse_iso_index` reports is what the descriptors say. -/
theorem parseIsoIndex_metadata {limits : Limits} {indexSize rounds : ℕ} {reported : ArchiveMetadata}
    {entries : List IsoIndex}
    (h : parseIsoIndex image limits indexSize rounds = some (.ok (reported, entries))) :
    ∃ volumes, descriptorLoop image ISO_MAX_DESCRIPTORS 0 {} = .ok volumes ∧
      reported = volumes.archiveMetadata := by
  unfold parseIsoIndex at h
  dsimp only at h
  split at h
  · simp at h
  · next m root skip hopened =>
    obtain ⟨walked, -, h⟩ := Option.map_eq_some_iff.mp h
    obtain ⟨index, -, h⟩ := map_eq_ok.mp h
    obtain ⟨rfl, -⟩ := Prod.mk.inj h
    obtain ⟨volumes, hvolumes, hopened⟩ := bind_eq_ok.mp hopened
    obtain ⟨primary, -, hopened⟩ := bind_eq_ok.mp hopened
    obtain ⟨rockRidge, -, hopened⟩ := bind_eq_ok.mp hopened
    refine ⟨volumes, hvolumes, ?_⟩
    cases rockRidge with
    | none =>
      cases hopened
      rfl
    | some skip =>
      cases hopened
      rfl

/-! ### Round trips -/

variable {sizes : Sizes} {w w0 w1 : IsoSeekWriter} {out : Output}

/-- An image has a primary descriptor, whose texts are reported. -/
theorem finish_reported (h : Reachable sizes w) (hout : finish w = some (.ok out)) :
    ∃ v descriptor, volumeDescriptor v w.archiveMetadata = .ok descriptor ∧ v.joliet = false ∧
      ∀ limits indexSize rounds reported entries,
        parseIsoIndex out.bytes limits indexSize rounds = some (.ok (reported, entries)) →
          reported = descriptorTexts descriptor {} := by
  obtain ⟨r, hr, -, hok⟩ := finish_cases h.sound
  obtain ⟨order, nodes, p, lba, -, -, hp, hlba, hemit⟩ :=
    hok out (Option.some.inj (hr.symm.trans hout))
  obtain ⟨c, hc⟩ := emit_agrees h.sound hp hlba hemit
  obtain ⟨primary, supplementary, hdescribed⟩ := hc.described
  obtain ⟨volumes, hvolumes, -, htexts⟩ := descriptorLoop_ok hdescribed
  refine ⟨_, primary, hdescribed.buildsPrimary, rfl, fun limits indexSize rounds reported entries hread => ?_⟩
  obtain ⟨volumes', hvolumes', rfl⟩ := parseIsoIndex_metadata hread
  rw [hvolumes, Except.ok.injEq] at hvolumes'
  rw [← hvolumes', htexts]

theorem archiveMetadata_of_calls (h : Relation.ReflTransGen (EntryCall sizes) w1 w)
    (h1 : Reachable sizes w1) : Reachable sizes w ∧ w.archiveMetadata = w1.archiveMetadata := by
  induction h with
  | refl => exact ⟨h1, rfl⟩
  | tail _ hcall ih => exact ⟨.entry ih.1 hcall, hcall.archiveMetadata.trans ih.2⟩

/-- **The texts come back** exactly if there is no application to come back. -/
theorem texts_back_iff {limits : Limits} {indexSize rounds : ℕ} {reported : ArchiveMetadata}
    {entries : List IsoIndex} (h0 : Reachable sizes w0)
    (hset : w0.setArchiveMetadata sizes metadata = .ok w1)
    (hcalls : Relation.ReflTransGen (EntryCall sizes) w1 w) (hm : Suitable metadata)
    (hout : finish w = some (.ok out))
    (hread : parseIsoIndex out.bytes limits indexSize rounds = some (.ok (reported, entries))) :
    SameTexts metadata reported ↔ volumeProperty metadata "application-id" = none := by
  obtain ⟨hw, hmetadata⟩ := archiveMetadata_of_calls hcalls (.set metadata h0 hset)
  obtain ⟨v, descriptor, hbuilt, hv, hreport⟩ := finish_reported hw hout
  rw [hmetadata, (setArchiveMetadata_ok hset).2.2] at hbuilt
  obtain ⟨hname, hsystem, happlication⟩ := descriptorTexts_ok hm hbuilt hv
  rw [hreport _ _ _ _ _ hread, SameTexts, happlication]
  exact ⟨fun h => h.2.2.symm, fun h => ⟨hname, hsystem, h.symm⟩⟩

/-! ### An image with an application -/

/-- A record of the directory itself or of its parent is passed over. -/
theorem directoryLoop_dot {walk : Walk} {directory : IsoDirectory} {extent : List Byte}
    {rounds position : ℕ} {index : Index} {dot : List Byte} (length : Byte) (hlength : extent[position]? = some length)
    (hzero : length ≠ 0) (hfits : position + length.toNat ≤ extent.length)
    (hrecord : DIRECTORY_RECORD_BASE + 1 ≤ length.toNat)
    (hidentifier : (window extent position (position + length.toNat)).getD 32 0 = 1)
    (hdot : window (window extent position (position + length.toNat)) DIRECTORY_RECORD_BASE
      (DIRECTORY_RECORD_BASE + 1) = dot) (hor : dot = [0] ∨ dot = [1]) :
    directoryLoop walk directory extent (rounds + 1) position index =
      directoryLoop walk directory extent rounds (position + length.toNat) index := by
  have hwindow := length_window_of_le (a := position) hfits
  rw [Nat.add_sub_cancel_left] at hwindow
  rw [directoryLoop, hlength]
  simp only [if_neg hzero, if_neg (show ¬ extent.length < position + length.toNat by omega), hwindow,
    if_neg (show ¬ length.toNat < DIRECTORY_RECORD_BASE + 1 by omega), hidentifier, UInt8.toNat_one]
  rw [hdot, if_pos hor]

/-- An image whose root directory, with Rock Ridge fields, has no entries. -/
theorem parseIsoIndex_empty {extent : List Byte} {lba : ℕ}
    (hvolumes : descriptorLoop image ISO_MAX_DESCRIPTORS 0 {} = .ok volumes)
    (hprimary : volumes.primary = some ⟨lba, SECTOR, false⟩) (hlba : lba * SECTOR + SECTOR ≤ u64Max)
    (hread : readExact image (lba * SECTOR) SECTOR = .ok extent)
    (hrecord : DIRECTORY_RECORD_BASE < (extent.headD 0).toNat)
    (hidentifier : (extent.take (extent.headD 0).toNat).getD 32 0 = 1)
    (hskip : rockRidgeLoop (extent.headD 0).toNat
      ((extent.take (extent.headD 0).toNat).drop (DIRECTORY_RECORD_BASE + 1)) false 0 = some 0)
    (hloop : ∀ walk directory index,
      directoryLoop walk directory extent extent.length 0 index = some (.ok index)) :
    parseIsoIndex image .unlimited 1 2 = some (.ok (volumes.archiveMetadata, [])) := by
  have hlong : lba * SECTOR + SECTOR ≤ image.length := by
    by_contra h
    rw [readExact, if_neg h] at hread
    cases hread
  have hextent : extent.length = SECTOR := by
    rw [readExact, if_pos hlong] at hread
    cases hread
    rw [List.length_take, List.length_drop]
    omega
  have hrock : detectRockRidge image ⟨lba, SECTOR, false⟩ .unlimited = .ok (some 0) := by
    have hbyte := (extent.headD 0).toNat_lt
    have hs : SECTOR = 2048 := rfl
    have htake : (extent.take (extent.headD 0).toNat).length = (extent.headD 0).toNat :=
      List.length_take_of_le (by omega)
    rw [detectRockRidge]
    simp only [checkedMul_of_le (Nat.le_of_add_right_le hlba), checkedAdd_of_le hlba, okOr_some, ok_bind,
      min_self, hread, hidentifier, htake, Option.all_some]
    have hlimits : ¬ (exceeds SECTOR Limits.unlimited.inFlightBytes = true ∨
        decide (image.length < lba * SECTOR + SECTOR) = true) := by
      rintro (h | h)
      · exact absurd h Bool.false_ne_true
      · have := of_decide_eq_true h
        omega
    rw [if_neg hlimits, if_neg (by omega), pure_eq_ok]
    exact congrArg Except.ok hskip
  have hwalk : ∀ walk index, walk.image = image → walk.limits = .unlimited →
      walkLoop walk 2 [] ⟨index, [], [⟨lba, SECTOR, [], 0⟩]⟩ = some (.ok ⟨index, [], []⟩) := by
    intro walk index himage hlimits
    have hdirectory : readExtent walk.image walk.limits ⟨lba, SECTOR, [], 0⟩ = .ok extent := by
      rw [readExtent, hlimits, himage, hread]
      simp [Limits.unlimited, exceeds, show ¬ image.length < lba * SECTOR + SECTOR by omega]
    have hnesting : ¬ exceeds 0 walk.limits.nesting = true := by
      rw [hlimits]
      exact Bool.false_ne_true
    rw [walkLoop]
    dsimp only
    rw [if_neg hnesting, if_neg List.not_mem_nil, hdirectory]
    dsimp only
    rw [hloop]
    rfl
  rw [parseIsoIndex, hvolumes]
  simp only [ok_bind, hprimary, okOr_some, hrock, pure_eq_ok]
  rw [hwalk _ _ rfl rfl]
  rfl

/-- A volume with a name, a system and an application. -/
def named : ArchiveMetadata where
  volumeName := some (.fromUtf8 (bstr "A"))
  extensions := [⟨"iso9660-volume", bstr "system-id", bstr "S"⟩,
    ⟨"iso9660-volume", bstr "application-id", bstr "B"⟩]

/-- The writer after `set_archive_metadata`. -/
def namedWriter : IsoSeekWriter :=
  { IsoSeekWriter.new ⟨1, 1, 1⟩ {} .unlimited with archiveMetadata := named, metadataUsed := 56 }

/-- The root directory with its addresses. -/
def namedRoot : IsoNode :=
  { IsoNode.root with primaryLba := 23, primarySize := 2048, jolietLba := 24, jolietSize := 2048 }

/-- The records of the root directory. -/
def namedRecords : List (List Byte) :=
  ((buildDirectoryRecords [namedRoot] 0 false (some { baseLba := 24 })).toOption.map (·.1)).getD []

theorem namedWriter_set : (IsoSeekWriter.new ⟨1, 1, 1⟩ {} .unlimited).setArchiveMetadata ⟨1, 1, 1⟩ named =
    .ok namedWriter := rfl

/-- The plan of the image. -/
def namedPlan : Planned where
  order := [0]
  layout := ⟨19, 20, 21, 22, 24, 25, [namedRoot]⟩
  primaryPath := 10
  jolietPath := 10
  continuationSize := 0

theorem namedWriter_eq : namedWriter =
    ⟨⟨List.replicate (METADATA_START * SECTOR) 0, METADATA_START * SECTOR⟩, [.root], none, .unlimited,
      56, 0, named⟩ := by
  have houtput : ∀ n, (({} : Output).seek 0).writeAll (List.replicate n 0) =
      ⟨List.replicate n 0, n⟩ := by
    intro n
    rw [Output.writeAll, List.length_replicate]
    simp [Output.seek, splice]
  exact congrArg (fun o => IsoSeekWriter.mk o [.root] none .unlimited 56 0 named) (houtput _)

/-- The steps of `finish` on this image. -/
theorem named_steps : orderDirectories namedWriter.nodes = some (.ok ([0], [.root])) ∧
    plan namedWriter [0] [.root] = .ok namedPlan ∧
    (emit namedWriter namedPlan).toOption.isSome = true := by
  rw [namedWriter_eq]
  refine ⟨?_, ?_, ?_⟩ <;> decide +kernel

theorem named_emit : ∃ out, emit namedWriter namedPlan = .ok out := by
  have h := named_steps.2.2
  cases he : emit namedWriter namedPlan with
  | error e =>
    rw [he] at h
    cases h
  | ok out => exact ⟨out, rfl⟩

theorem named_reachable : Reachable ⟨1, 1, 1⟩ namedWriter := .set named (.new {} .unlimited) namedWriter_set

theorem named_finish : ∃ out, finish namedWriter = some (.ok out) := by
  obtain ⟨out, hout⟩ := named_emit
  obtain ⟨horder, hplan, -⟩ := named_steps
  refine ⟨out, ?_⟩
  have hpending : ¬ namedWriter.pending.isSome = true := Bool.false_ne_true
  rw [finish, if_neg hpending, horder, Option.map_some, ok_bind]
  dsimp only
  rw [hplan, ok_bind, hout]

/-- The root directory in the image. -/
theorem named_extent (hout : finish namedWriter = some (.ok out)) :
    (∃ volumes, descriptorLoop out.bytes ISO_MAX_DESCRIPTORS 0 {} = .ok volumes ∧
      volumes.primary = some ⟨23, SECTOR, false⟩) ∧
    readExact out.bytes (23 * SECTOR) SECTOR = .ok (layoutRecords namedRecords) := by
  obtain ⟨r, hr, -, hok⟩ := finish_cases named_reachable.sound
  obtain ⟨order, nodes, p, lba, horder, hplan, hp, hlba, hemit⟩ :=
    hok out (Option.some.inj (hr.symm.trans hout))
  rw [named_steps.1, Option.some.injEq, Except.ok.injEq, Prod.mk.injEq] at horder
  obtain ⟨rfl, rfl⟩ := horder
  rw [named_steps.2.1, Except.ok.injEq] at hplan
  subst hplan
  obtain ⟨c, hc⟩ := emit_agrees named_reachable.sound hp hlba hemit
  obtain ⟨primary, supplementary, hdescribed⟩ := hc.described
  obtain ⟨volumes, hvolumes, hprimary, -⟩ := descriptorLoop_ok hdescribed
  refine ⟨⟨volumes, hvolumes, hprimary⟩, ?_⟩
  obtain ⟨l1, l2, l3, l4, rss, continuation, joliet⟩ := c
  obtain ⟨area, hbuilt, -⟩ := hc.contents.primary
  have hbuilt : Built [namedRoot] false [0] rss (some { baseLba := 24 }) area := hbuilt
  cases hbuilt with
  | @cons _ _ rs _ _ b _ hb hrest =>
    have hrs : namedRecords = rs := by
      rw [namedRecords, hb]
      rfl
    have hholds : List.Forall₂ (Holds namedWriter.output.position out)
        ((19, 10) :: (20, 10) :: (21, 10) :: (22, 10) :: (23, SECTOR) :: [(24, 0), (24, SECTOR)])
        (l1 :: l2 :: l3 :: l4 :: layoutRecords rs :: _) := hc.holds
    obtain ⟨-, hholds⟩ := List.forall₂_cons.mp hholds
    obtain ⟨-, hholds⟩ := List.forall₂_cons.mp hholds
    obtain ⟨-, hholds⟩ := List.forall₂_cons.mp hholds
    obtain ⟨-, hholds⟩ := List.forall₂_cons.mp hholds
    obtain ⟨⟨hlength, -, -, hwindow⟩, -⟩ := List.forall₂_cons.mp hholds
    have hs : SECTOR = 2048 := rfl
    have hlong : 23 * SECTOR + SECTOR ≤ out.bytes.length := by
      have := congrArg List.length hwindow
      rw [hlength, length_window] at this
      simp only [hs] at this ⊢
      omega
    rw [readExact_window hlong, hrs]
    exact congrArg Except.ok hwindow

/-- The root directory has the records of itself and of its parent. -/
theorem named_bytes : (layoutRecords namedRecords).length = 2048 ∧
    (layoutRecords namedRecords)[0]? = some 90 ∧ (layoutRecords namedRecords)[90]? = some 34 ∧
    (layoutRecords namedRecords)[124]? = some 0 ∧
    (window (layoutRecords namedRecords) 0 90).getD 32 0 = 1 ∧
    window (window (layoutRecords namedRecords) 0 90) 33 34 = [0] ∧
    (window (layoutRecords namedRecords) 90 124).getD 32 0 = 1 ∧
    window (window (layoutRecords namedRecords) 90 124) 33 34 = [1] ∧
    rockRidgeLoop 90 (((layoutRecords namedRecords).take 90).drop 34) false 0 = some 0 := by
  decide +kernel

theorem named_loop (walk : Walk) (directory : IsoDirectory) (index : Index) :
    directoryLoop walk directory (layoutRecords namedRecords) (layoutRecords namedRecords).length 0
      index = some (.ok index) := by
  obtain ⟨hlength, h0, h90, h124, hself, hdot, hparent, hdotdot, -⟩ := named_bytes
  have hend : (layoutRecords namedRecords)[2048]? = none := List.getElem?_eq_none hlength.le
  have hfirst : directoryLoop walk directory (layoutRecords namedRecords) 2048 0 index =
      directoryLoop walk directory (layoutRecords namedRecords) 2047 90 index :=
    directoryLoop_dot 90 h0 (by decide) (by rw [hlength]; decide) (by decide) hself hdot (.inl rfl)
  have hsecond : directoryLoop walk directory (layoutRecords namedRecords) 2047 90 index =
      directoryLoop walk directory (layoutRecords namedRecords) 2046 124 index :=
    directoryLoop_dot 34 h90 (by decide) (by rw [hlength]; decide) (by decide) hparent hdotdot
      (.inr rfl)
  rw [hlength, hfirst, hsecond, directoryLoop, h124]
  dsimp only
  rw [if_pos rfl, directoryLoop]
  rw [show (124 / SECTOR + 1) * SECTOR = 2048 from rfl, hend]

theorem named_read (hout : finish namedWriter = some (.ok out)) :
    ∃ reported, parseIsoIndex out.bytes .unlimited 1 2 = some (.ok (reported, [])) := by
  obtain ⟨⟨volumes, hvolumes, hprimary⟩, hread⟩ := named_extent hout
  obtain ⟨-, h0, -, -, hself, -, -, -, hskip⟩ := named_bytes
  have hhead : ((layoutRecords namedRecords).headD 0).toNat = 90 := by
    rw [List.headD_eq_head?_getD, List.head?_eq_getElem?, h0]
    rfl
  refine ⟨volumes.archiveMetadata, parseIsoIndex_empty hvolumes hprimary (by decide) hread ?_ ?_ ?_
    named_loop⟩
  · rw [hhead]
    decide
  · rw [hhead]
    exact hself
  · rw [hhead]
    exact hskip

theorem named_suitable : Suitable named where
  volumeName := ⟨.fromUtf8 (bstr "A"), rfl, by decide, by decide, by decide +kernel⟩
  system value h := by
    cases h
    exact ⟨by decide, by decide, by unfold Trimmed; decide +kernel⟩
  application value h := by
    cases h
    exact ⟨by decide, by decide, by unfold Trimmed; decide +kernel⟩

/-- The application of this image is not reported. -/
theorem texts_back_iff_named : ∃ out reported, finish namedWriter = some (.ok out) ∧
    parseIsoIndex out.bytes .unlimited 1 2 = some (.ok (reported, [])) ∧
    (SameTexts named reported ↔ volumeProperty named "application-id" = none) := by
  obtain ⟨out, hout⟩ := named_finish
  obtain ⟨reported, hread⟩ := named_read hout
  exact ⟨out, reported, hout, hread, texts_back_iff (.new {} .unlimited) namedWriter_set .refl
    named_suitable hout hread⟩

/-- **The texts do not come back.** -/
theorem texts_lost : Suitable named ∧ (IsoSeekWriter.new ⟨1, 1, 1⟩ {} .unlimited).setArchiveMetadata
      ⟨1, 1, 1⟩ named = .ok namedWriter ∧
    ∃ out reported, finish namedWriter = some (.ok out) ∧
      parseIsoIndex out.bytes .unlimited 1 2 = some (.ok (reported, [])) ∧
      ¬ SameTexts named reported := by
  obtain ⟨out, hout⟩ := named_finish
  obtain ⟨reported, hread⟩ := named_read hout
  refine ⟨named_suitable, namedWriter_set, out, reported, hout, hread, fun h => ?_⟩
  obtain ⟨v, descriptor, hbuilt, hv, hreport⟩ := finish_reported named_reachable hout
  have happlication := (descriptorTexts_ok named_suitable hbuilt hv).2.2
  rw [← hreport _ _ _ _ _ hread, h.2.2] at happlication
  exact absurd happlication (by decide)

end LibarchiveOxide.Iso.Volume
