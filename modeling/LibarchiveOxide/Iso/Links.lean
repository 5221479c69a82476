import LibarchiveOxide.Iso.SystemUse
import LibarchiveOxide.Lib.Joined
import LibarchiveOxide.Lib.Result

/-! # Symbolic links in Rock Ridge

A link is a list of components; each is written as one or more records, a name in several if all but the
last of them say that it continues. The records are put into fields, and the fields into areas
(`Areas`). The parser puts a separator between any two records, so that it has the target if and only
if the names are whole (`Whole`). -/

namespace LibarchiveOxide.Iso.Links

open Core.Failure Core.Budget Lib.Slice Lib.Result Lib.Joined Lib.Joined.Names Stream.Event
open Stream.Image Iso.Fields Iso.SystemUse

def slash : Byte := chr '/'

/-! ### Components and records -/

/-- A component record. -/
inductive Record where
  | root
  | current
  | parent
  | part (continues : Bool) (content : List Byte)
deriving DecidableEq

namespace Record

def flags : Record → Byte
  | root => 0x08
  | current => 0x02
  | parent => 0x04
  | part continues _ => if continues then 0x01 else 0x00

def content : Record → List Byte
  | root | current | parent => []
  | part _ content => content

/-- The record in a field. -/
def bytes (r : Record) : List Byte := r.flags :: UInt8.ofNat r.content.length :: r.content

/-- What the record stands for. -/
def text : Record → List Byte
  | root => [slash]
  | current => bstr "."
  | parent => bstr ".."
  | part _ content => content

end Record

/-- A component of a link, with the parts that its name is written in. -/
inductive Component where
  | root
  | current
  | parent
  | name (parts : List (List Byte)) (last : List Byte)
deriving DecidableEq

namespace Component

/-- The component in the target. -/
def bytes : Component → List Byte
  | root => [slash]
  | current => bstr "."
  | parent => bstr ".."
  | name parts last => parts.flatten ++ last

/-- The records of a component. -/
def records : Component → List Record
  | root => [.root]
  | current => [.current]
  | parent => [.parent]
  | name parts last => parts.map (.part true) ++ [.part false last]

/-- The texts of the records. -/
def texts : Component → List (List Byte)
  | name parts last => parts ++ [last]
  | c => [c.bytes]

end Component

/-- The components behind the last root. -/
def afterRoot : List Component → List Component
  | [] => []
  | c :: cs => if .root ∈ cs then afterRoot cs else if c = .root then cs else c :: cs

/-- **The target of a link**: the components with separators between them, from the root on. -/
def target (components : List Component) : List Byte :=
  (if .root ∈ components then [slash] else []) ++
    [slash].intercalate ((afterRoot components).map Component.bytes)

/-! ### Fields and areas -/

/-- A field with records of a link. -/
def linkBytes (continues : Bool) (g : List Record) : List Byte :=
  bstr "SL" ++ [UInt8.ofNat (5 + (g.flatMap Record.bytes).length), 1, if continues then 1 else 0] ++
    g.flatMap Record.bytes

/-- The fields of a link, of which all but the last continue. -/
def flagged : List (List Record) → List (Bool × List Record)
  | [] => []
  | [g] => [(false, g)]
  | g :: g' :: gs => (true, g) :: flagged (g' :: gs)

/-- A field that says nothing about the link: the parser takes it, and it neither has a continuation
area nor leaves a name open. -/
structure Other (f : List Byte) : Prop where
  shape : ∃ s0 s1 version body, f = s0 :: s1 :: UInt8.ofNat (4 + body.length) :: version :: body ∧
    4 + body.length ≤ 255 ∧ [s0, s1] ≠ bstr "ST"
  read : ∀ r, ∃ r', applyField (f.take 2) f r = .ok (r', []) ∧ r'.linkTarget = r.linkTarget ∧
    r'.linkContinues = r.linkContinues ∧ (r.nameContinues = false → r'.nameContinues = false)

/-- Fields, and what they say about the link. -/
inductive Fields : List Byte → List (Bool × List Record) → Prop where
  | nil : Fields [] []
  | link {continues : Bool} {g : List Record} {bs : List Byte} {ls : List (Bool × List Record)} :
      5 + (g.flatMap Record.bytes).length ≤ 255 → Fields bs ls →
      Fields (linkBytes continues g ++ bs) ((continues, g) :: ls)
  | other {f bs : List Byte} {ls : List (Bool × List Record)} : Other f → Fields bs ls →
      Fields (f ++ bs) ls

variable {ls : List (Bool × List Record)} {bs image area : List Byte}

/-- What the records of a field make. -/
def segment (g : List Record) : List Byte := g.foldl (fun t r => component r.flags r.content t) []

/-- The target and whether it continues, behind one more field. -/
def follow (l : Option (List Byte) × Bool) (f : Bool × List Record) : Option (List Byte) × Bool :=
  (some (appendSlSegment (l.1.getD []) (segment f.2)), f.1)

/-- What is known about the link behind some fields, and that no name is left open. -/
def After (r : RockRidge) (ls : List (Bool × List Record)) (r' : RockRidge) : Prop :=
  (r'.linkTarget, r'.linkContinues) = ls.foldl follow (r.linkTarget, r.linkContinues) ∧
    (r.nameContinues = false → r'.nameContinues = false)

theorem After.trans {r r' r'' : RockRidge} {ls' : List (Bool × List Record)} (h : After r ls r')
    (h' : After r' ls' r'') : After r (ls ++ ls') r'' := by
  refine ⟨?_, fun hr => h'.2 (h.2 hr)⟩
  rw [h'.1, h.1, List.foldl_append]

/-- The attributes behind one more field of the link. -/
def linked (r : RockRidge) (continues : Bool) (g : List Record) : RockRidge :=
  { r with
    linkTarget := some (appendSlSegment (r.linkTarget.getD []) (segment g))
    linkContinues := continues
    kind := some .symlink }

/-- The texts of the records of a field. -/
def recordTexts (g : List Record) : List (List Byte) := g.map Record.text

variable {lead : List Byte} {p : Names Byte} {g : List Record} {groups : List (List Record)}

variable {components cs : List Component}

namespace Component

variable {c : Component}

/-- Whether one text of the component has all there is. -/
def IsWhole (c : Component) : Prop := (c.texts.filter (!·.isEmpty)).length = 1

end Component

/-- **Whole names**: behind the last root every name touches no separator and has its bytes in one of
its records, and no empty record ends the last field in which there is a text. -/
structure Whole (components : List Component) (groups : List (List Record)) : Prop where
  clean : ∀ c ∈ afterRoot components, Clean slash c.bytes
  names : ∀ c ∈ afterRoot components, c.IsWhole
  closed : dangling false (groups.map recordTexts) = false

end LibarchiveOxide.Iso.Links
