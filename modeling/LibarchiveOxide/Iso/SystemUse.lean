import LibarchiveOxide.Core.Failure
import LibarchiveOxide.Iso.Fields
import LibarchiveOxide.Stream.Event

/-! # Rock Ridge

The system-use fields of a directory record, which may go on in continuation areas elsewhere in the
image. The loop over the fields of an area has a round for each byte, which is more than it needs. -/

namespace LibarchiveOxide.Iso.SystemUse

open Core.Failure Core.Budget Core.Metadata Lib.Slice Stream.Event Stream.Image Iso.Fields

/-- `RockRidge`. -/
structure RockRidge where
  name : Option (List Byte) := none
  mode : Option UInt32 := none
  uid : Option UInt64 := none
  gid : Option UInt64 := none
  inode : Option UInt64 := none
  links : Option UInt64 := none
  kind : Option EntryKind := none
  referencedDevice : Option Device := none
  modified : Option Timestamp := none
  accessed : Option Timestamp := none
  changed : Option Timestamp := none
  created : Option Timestamp := none
  linkTarget : Option (List Byte) := none
  childLink : Option ℕ := none
  relocated : Bool := false
  extensions : List Extension := []
  nameContinues : Bool := false
  linkContinues : Bool := false
deriving DecidableEq

/-- `IsoContinuation`. -/
structure IsoContinuation where
  block : ℕ
  offset : ℕ
  length : ℕ
deriving DecidableEq

/-- `mode_to_entry_kind`. -/
def modeToEntryKind (mode : UInt32) : Option EntryKind :=
  if mode &&& 0o170000 = 0o100000 then some .file
  else if mode &&& 0o170000 = 0o040000 then some .dir
  else if mode &&& 0o170000 = 0o120000 then some .symlink
  else if mode &&& 0o170000 = 0o060000 then some .block
  else if mode &&& 0o170000 = 0o020000 then some .char
  else if mode &&& 0o170000 = 0o010000 then some .fifo
  else if mode &&& 0o170000 = 0o140000 then some .socket
  else none

/-! ### Link targets -/

/-- The separator before what comes next, if there is something and no separator yet. -/
def withSlash (target : List Byte) : List Byte :=
  if target ≠ [] ∧ target.getLast? ≠ some (chr '/') then target ++ [chr '/'] else target

/-- What a component record makes of the target. -/
def component (flags : Byte) (value target : List Byte) : List Byte :=
  if flags &&& 0x0e = 0x02 then withSlash target ++ bstr "."
  else if flags &&& 0x0e = 0x04 then withSlash target ++ bstr ".."
  else if flags &&& 0x0e = 0x08 then [chr '/']
  else withSlash target ++ value

/-- The loop of `parse_sl_components`, with a round for each byte. -/
def slLoop : ℕ → List Byte → List Byte → Except StreamError (List Byte)
  | rounds + 1, flags :: length :: rest, target =>
    if rest.length < length.toNat then
      .error (isoError .malformed "SL component exceeds system-use field")
    else slLoop rounds (rest.drop length.toNat) (component flags (rest.take length.toNat) target)
  | _, bytes, target =>
    if bytes ≠ [] then .error (isoError .malformed "truncated SL component") else .ok target

/-- `parse_sl_components`. -/
def parseSlComponents (bytes : List Byte) : Except StreamError (List Byte) :=
  slLoop bytes.length bytes []

/-- `append_sl_segment`. -/
def appendSlSegment (target segment : List Byte) : List Byte :=
  if segment.head? = some (chr '/') then segment
  else if target ≠ [] ∧ target.getLast? ≠ some (chr '/') ∧ segment ≠ [] then
    target ++ [chr '/'] ++ segment
  else target ++ segment

/-! ### The fields -/

/-- The time that a bit of the flags stands for. -/
def setTime (r : RockRidge) (timestamp : Option Timestamp) : ℕ → RockRidge
  | 0 => { r with created := timestamp }
  | 1 => { r with modified := timestamp }
  | 2 => { r with accessed := timestamp }
  | 3 => { r with changed := timestamp }
  | _ => r

/-- The loop of `parse_tf`. -/
def tfLoop (field : List Byte) (flags : Byte) :
    List ℕ → ℕ → RockRidge → Except StreamError RockRidge
  | [], _, r => .ok r
  | bit :: bits, cursor, r =>
    if flags.toNat.testBit bit = false then tfLoop field flags bits cursor r
    else
      let stop := cursor + if flags &&& 0x80 ≠ 0 then 17 else 7
      if field.length < stop then
        .error (isoError .malformed "TF timestamp exceeds system-use field")
      else
        let raw := window field cursor stop
        let timestamp := if flags &&& 0x80 ≠ 0 then longIsoTime raw else shortIsoTime raw
        tfLoop field flags bits stop (setTime r timestamp bit)

/-- `parse_tf`. -/
def parseTf (field : List Byte) (r : RockRidge) : Except StreamError RockRidge :=
  tfLoop field (field.getD 4 0) (List.range 7) 5 r

/-- `"NM"`, a part of the name. -/
def nameField (field : List Byte) (r : RockRidge) : RockRidge :=
  let flags := field.getD 4 0
  if flags &&& 0x06 = 0 then
    { r with
      name := some (r.name.getD [] ++ field.drop 5)
      nameContinues := decide (flags &&& 0x01 ≠ 0) }
  else r

/-- `"PX"`, the POSIX attributes. -/
def attributesField (field : List Byte) (r : RockRidge) : Except StreamError RockRidge := do
  let mode ← isoU32 field 4
  let links ← isoU32 field 12
  let uid ← isoU32 field 20
  let gid ← isoU32 field 28
  let inode ← (if 44 ≤ field.length then (isoU32 field 36).map fun n => some (UInt64.ofNat n)
    else .ok r.inode)
  return { r with
    mode := some (UInt32.ofNat mode &&& 0o7777)
    kind := modeToEntryKind (UInt32.ofNat mode)
    links := some (UInt64.ofNat links)
    uid := some (UInt64.ofNat uid)
    gid := some (UInt64.ofNat gid)
    inode := inode }

/-- `"PN"`, the device. -/
def deviceField (field : List Byte) (r : RockRidge) : Except StreamError RockRidge := do
  let major ← isoU32 field 4
  let minor ← isoU32 field 12
  return { r with referencedDevice := some ⟨UInt64.ofNat major, UInt64.ofNat minor⟩ }

/-- `"SL"`, a part of the link target. -/
def linkField (field : List Byte) (r : RockRidge) : Except StreamError RockRidge := do
  let segment ← parseSlComponents (field.drop 5)
  return { r with
    linkTarget := some (appendSlSegment (r.linkTarget.getD []) segment)
    linkContinues := decide (field.getD 4 0 &&& 0x01 ≠ 0)
    kind := some .symlink }

/-- `"CE"`, a continuation area. -/
def continuationField (field : List Byte) : Except StreamError IsoContinuation := do
  let block ← isoU32 field 4
  let offset ← isoU32 field 12
  let length ← isoU32 field 20
  return ⟨block, offset, length⟩

/-- What a field does by its signature, apart from the one that ends the area. -/
def applyField (signature field : List Byte) (r : RockRidge) :
    Except StreamError (RockRidge × List IsoContinuation) :=
  if signature = bstr "NM" ∧ 5 ≤ field.length then .ok (nameField field r, [])
  else if signature = bstr "PX" ∧ 36 ≤ field.length then (attributesField field r).map (·, [])
  else if signature = bstr "PN" ∧ 20 ≤ field.length then (deviceField field r).map (·, [])
  else if signature = bstr "SL" ∧ 5 ≤ field.length then (linkField field r).map (·, [])
  else if signature = bstr "TF" ∧ 5 ≤ field.length then (parseTf field r).map (·, [])
  else if signature = bstr "CL" ∧ 12 ≤ field.length then
    (isoU32 field 4).map fun lba => ({ r with childLink := some lba }, [])
  else if signature = bstr "RE" then .ok ({ r with relocated := true }, [])
  else if signature = bstr "CE" ∧ field.length = 28 then
    (continuationField field).map fun c => (r, [c])
  else .ok (r, [])

/-- The field is kept as it is, unless it tells where the fields are. -/
def keepField (signature field : List Byte) (r : RockRidge) : RockRidge :=
  if signature = bstr "CE" ∨ signature = bstr "ST" then r
  else { r with extensions := r.extensions ++ [⟨"iso-system-use", signature, field⟩] }

/-- The loop of `parse_rock_ridge_area`, and the check behind it. -/
def areaLoop : ℕ → List Byte → RockRidge → List IsoContinuation →
    Except StreamError (RockRidge × List IsoContinuation)
  | rounds + 1, s0 :: s1 :: length :: version :: rest, r, continuations =>
    let systemUse := s0 :: s1 :: length :: version :: rest
    if length.toNat < 4 then .error (isoError .malformed "invalid system-use field length")
    else if systemUse.length < length.toNat then
      .error (isoError .malformed "system-use field exceeds directory record")
    else
      let field := systemUse.take length.toNat
      if [s0, s1] = bstr "ST" ∧ field.length = 4 then .ok (r, continuations)
      else
        match applyField [s0, s1] field r with
        | .error e => .error e
        | .ok (r, more) =>
          areaLoop rounds (systemUse.drop length.toNat) (keepField [s0, s1] field r)
            (continuations ++ more)
  | _, systemUse, r, continuations =>
    if systemUse.any (· ≠ 0) then .error (isoError .malformed "truncated bytes follow SUSP fields")
    else .ok (r, continuations)

/-- `parse_rock_ridge_area`. -/
def parseRockRidgeArea (systemUse : List Byte) (r : RockRidge) :
    Except StreamError (RockRidge × List IsoContinuation) :=
  areaLoop systemUse.length systemUse r []

/-! ### The continuation areas -/

/-- The bytes of a continuation area, and the size of all areas with it. -/
def readContinuation (image : List Byte) (imageLength : ℕ) (limits : Limits)
    (visited : List IsoContinuation) (continuationBytes : ℕ) (c : IsoContinuation) :
    Except StreamError (List Byte × ℕ) := do
  if c ∈ visited then
    throw (isoError .malformed "cyclic or duplicate SUSP continuation area")
  if SECTOR ≤ c.offset then
    throw (isoError .malformed "SUSP continuation offset exceeds its logical block")
  if exceeds (visited.length + 1) limits.nesting then
    throw (isoError .limit "SUSP continuation nesting exceeds configured limit")
  if c.length = 0 then
    throw (isoError .malformed "SUSP continuation area is empty")
  if exceeds c.length limits.inFlightBytes then
    throw (isoError .limit "SUSP continuation exceeds the in-flight buffer limit")
  let continuationBytes ← okOr (checkedAdd continuationBytes c.length)
    (isoError .limit "SUSP continuation size overflow")
  if exceeds continuationBytes limits.metadataBytes then
    throw (isoError .limit "SUSP continuations exceed the metadata limit")
  let start ← okOr ((checkedMul c.block SECTOR).bind fun value => checkedAdd value c.offset)
    (isoError .malformed "SUSP continuation offset overflow")
  if ((checkedAdd start c.length).all fun stop => decide (imageLength < stop)) then
    throw (isoError .malformed "SUSP continuation is outside the image")
  let bytes ← readExact image start c.length
  return (bytes, continuationBytes)

/-- The loop of `parse_rock_ridge_with_continuations` over the areas that are pending, and the check
behind it; `none` while it is still going on as the rounds run out. -/
def continuationLoop (image : List Byte) (imageLength : ℕ) (limits : Limits) :
    ℕ → List IsoContinuation → List IsoContinuation → ℕ → RockRidge →
      Option (Except StreamError (RockRidge × ℕ))
  | _, [], _, continuationBytes, r =>
    some (if r.nameContinues ∨ r.linkContinues then
      .error (isoError .malformed "Rock Ridge continuation flag has no following field")
    else .ok (r, continuationBytes))
  | 0, _ :: _, _, _, _ => none
  | rounds + 1, c :: pending, visited, continuationBytes, r =>
    match readContinuation image imageLength limits visited continuationBytes c with
    | .error e => some (.error e)
    | .ok (bytes, continuationBytes) =>
      match parseRockRidgeArea bytes r with
      | .error e => some (.error e)
      | .ok (r, more) =>
        continuationLoop image imageLength limits rounds (pending ++ more) (c :: visited)
          continuationBytes r

/-- `parse_rock_ridge_with_continuations`. -/
def parseRockRidgeWithContinuations (image systemUse : List Byte) (imageLength : ℕ)
    (limits : Limits) (rounds : ℕ) : Option (Except StreamError (RockRidge × ℕ)) :=
  match parseRockRidgeArea systemUse {} with
  | .error e => some (.error e)
  | .ok (r, pending) => continuationLoop image imageLength limits rounds pending [] 0 r

end LibarchiveOxide.Iso.SystemUse
