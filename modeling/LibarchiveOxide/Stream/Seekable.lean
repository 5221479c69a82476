import LibarchiveOxide.Core.Failure
import LibarchiveOxide.Lib.Slice

/-! # Outputs in memory

A seekable output is modelled by its bytes and a cursor: writing puts bytes at the cursor, in the place
of what was there, and never fails. -/

namespace LibarchiveOxide.Stream.Seekable

open Core.Failure Lib.Slice

/-- The bytes of an output, and its cursor. -/
structure Output where
  bytes : List Byte := []
  position : ℕ := 0
deriving DecidableEq

namespace Output

/-- `write_all`; a gap before the cursor is filled with zeros. -/
def writeAll (o : Output) (v : List Byte) : Output :=
  ⟨splice (o.bytes ++ List.replicate (o.position - o.bytes.length) 0) o.position v,
    o.position + v.length⟩

/-- `seek(SeekFrom::Start(..))`. -/
def seek (o : Output) (position : ℕ) : Output := { o with position := position }

variable {o : Output} {u v : List Byte} {a b p : ℕ}

@[simp] theorem position_writeAll : (o.writeAll v).position = o.position + v.length := rfl

@[simp] theorem position_seek : (o.seek p).position = p := rfl

@[simp] theorem bytes_seek : (o.seek p).bytes = o.bytes := rfl

/-- The cursor is not past the end. -/
def Inside (o : Output) : Prop := o.position ≤ o.bytes.length

theorem bytes_writeAll (h : o.Inside) : (o.writeAll v).bytes = splice o.bytes o.position v := by
  have hgap : o.position - o.bytes.length = 0 := Nat.sub_eq_zero_of_le h
  rw [writeAll, hgap, List.replicate_zero, List.append_nil]

theorem length_writeAll (h : o.Inside) :
    (o.writeAll v).bytes.length = max o.bytes.length (o.position + v.length) := by
  have hp : o.position ≤ o.bytes.length := h
  rw [bytes_writeAll h]
  simp only [splice, List.length_append, List.length_take, List.length_drop]
  omega

theorem Inside.writeAll (h : o.Inside) : (o.writeAll v).Inside := by
  rw [Inside, length_writeAll h, position_writeAll]
  exact le_max_right _ _

theorem writeAll_nil (h : o.Inside) : o.writeAll [] = o := by
  have hbytes : (o.writeAll []).bytes = o.bytes := by
    rw [bytes_writeAll h, splice, List.append_nil]
    exact List.take_append_drop _ _
  cases o with
  | mk bytes position => exact congrArg (Output.mk · position) hbytes

theorem getElem?_writeAll (h : o.Inside) (j : ℕ) : (o.writeAll v).bytes[j]? =
    if o.position ≤ j ∧ j < o.position + v.length then v[j - o.position]? else o.bytes[j]? := by
  have hp : o.position ≤ o.bytes.length := h
  have hi : (o.bytes.take o.position).length = o.position := List.length_take_of_le hp
  rw [bytes_writeAll h, splice]
  by_cases h1 : j < o.position
  · rw [if_neg (by omega), List.append_assoc, List.getElem?_append_left (by omega),
      List.getElem?_take, if_pos h1]
  · by_cases h2 : j < o.position + v.length
    · rw [if_pos ⟨by omega, h2⟩, List.getElem?_append_left (by rw [List.length_append]; omega),
        List.getElem?_append_right (by omega), hi]
    · rw [if_neg (by omega), List.getElem?_append_right (by rw [List.length_append]; omega),
        List.getElem?_drop, List.length_append, hi]
      congr 1
      omega

/-- What was written. -/
theorem window_writeAll (h : o.Inside) :
    window (o.writeAll v).bytes o.position (o.position + v.length) = v := by
  refine List.ext_getElem? fun j => ?_
  rw [getElem?_window, getElem?_writeAll h, Nat.add_sub_cancel_left]
  by_cases hj : j < v.length
  · rw [if_pos hj, if_pos ⟨by omega, by omega⟩, Nat.add_sub_cancel_left]
  · rw [if_neg hj, List.getElem?_eq_none (by omega)]

/-- What was not written over. -/
theorem window_writeAll_of_disjoint (h : o.Inside)
    (hd : b ≤ o.position ∨ o.position + v.length ≤ a) :
    window (o.writeAll v).bytes a b = window o.bytes a b := by
  refine List.ext_getElem? fun j => ?_
  rw [getElem?_window, getElem?_window, getElem?_writeAll h]
  by_cases hj : j < b - a
  · rw [if_pos hj, if_pos hj, if_neg (by omega)]
  · rw [if_neg hj, if_neg hj]

/-! ### Regions -/

/-- **What has been written**: pieces at positions from `low` up to the cursor, one behind the other. -/
structure Written (low : ℕ) (o : Output) (pieces : List (ℕ × List Byte)) : Prop where
  inside : o.Inside
  piece : ∀ r ∈ pieces, low ≤ r.1 ∧ r.1 + r.2.length ≤ o.position ∧
    window o.bytes r.1 (r.1 + r.2.length) = r.2
  apart : pieces.Pairwise fun r s => r.1 + r.2.length ≤ s.1

variable {low : ℕ} {pieces : List (ℕ × List Byte)}

theorem Written.nil (h : o.Inside) : Written low o [] := ⟨h, nofun, .nil⟩

/-- Bytes at the cursor keep the pieces. -/
theorem Written.fill (h : Written low o pieces) (v : List Byte) : Written low (o.writeAll v) pieces := by
  refine ⟨h.inside.writeAll, fun r hr => ?_, h.apart⟩
  obtain ⟨hlow, hend, hbytes⟩ := h.piece r hr
  refine ⟨hlow, hend.trans (Nat.le_add_right _ _), ?_⟩
  rw [window_writeAll_of_disjoint h.inside (.inl hend), hbytes]

/-- Bytes at the cursor are one more piece. -/
theorem Written.push (h : Written low o pieces) (hlow : low ≤ o.position) (v : List Byte) :
    Written low (o.writeAll v) (pieces ++ [(o.position, v)]) := by
  have hfill := h.fill v
  refine ⟨hfill.inside, fun r hr => ?_, ?_⟩
  · rcases List.mem_append.mp hr with hr | hr
    · exact hfill.piece r hr
    · rw [List.mem_singleton.mp hr]
      exact ⟨hlow, le_rfl, window_writeAll h.inside⟩
  · refine List.pairwise_append.mpr ⟨h.apart, List.pairwise_singleton _ _, fun r hr s hs => ?_⟩
    rw [List.mem_singleton.mp hs]
    exact (h.piece r hr).2.1

end Output

end LibarchiveOxide.Stream.Seekable
