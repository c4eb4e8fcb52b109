import Mathlib.Data.List.Basic

/-!
# Arrays and copies into them

An owned array is the list of its cells. Copying a source into it at an offset replaces as many
cells as the source is long, and is not defined when the source does not fit behind the offset.
-/

namespace Storage

variable {α : Type*}

/-- The array with the cells from `offset` on replaced by `source`. -/
def overwrite (array : List α) (offset : ℕ) (source : List α) : List α :=
  array.take offset ++ source ++ array.drop (offset + source.length)

/-- `memcpy`, `none` where it writes outside the array. -/
def copy (array : List α) (offset : ℕ) (source : List α) : Option (List α) :=
  if offset + source.length ≤ array.length then some (overwrite array offset source) else none

variable {array source : List α} {offset : ℕ}

theorem copy_of_le (h : offset + source.length ≤ array.length) :
    copy array offset source = some (overwrite array offset source) :=
  if_pos h

theorem copy_of_lt (h : array.length < offset + source.length) : copy array offset source = none :=
  if_neg (Nat.not_le_of_lt h)

theorem length_overwrite (h : offset + source.length ≤ array.length) :
    (overwrite array offset source).length = array.length := by
  rw [overwrite, List.length_append, List.length_append, List.length_take, List.length_drop]
  omega

theorem length_take_append (h : offset ≤ array.length) :
    (array.take offset ++ source).length = offset + source.length := by
  rw [List.length_append, List.length_take, Nat.min_eq_left h]

/-- Up to the end of the source, the array holds what was before the offset and then the source. -/
theorem take_overwrite (h : offset ≤ array.length) :
    (overwrite array offset source).take (offset + source.length) =
      array.take offset ++ source :=
  List.take_left' (length_take_append h)

/-- What is behind the source does not show before its end. -/
theorem take_overwrite_of_le {n : ℕ} (h : offset ≤ array.length)
    (hn : n ≤ offset + source.length) :
    (overwrite array offset source).take n = (array.take offset ++ source).take n :=
  List.take_append_of_le_length (by rwa [length_take_append h])

end Storage
