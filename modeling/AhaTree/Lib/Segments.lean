import AhaTree.Lib.Cursor
import Mathlib.Data.List.Flatten

/-!
# Segments

A list that is made of segments, one behind the other, and the offsets at which
they start.
-/

namespace Lib

variable {item : Type} {segments : List (List item)} {segment : List item} {number index : Nat}

/-- The number of entries in front of a segment. -/
def offset (segments : List (List item)) (number : Nat) : Nat :=
  (segments.take number).flatten.length

@[simp] theorem offset_zero : offset segments 0 = 0 := rfl

theorem offset_length : offset segments segments.length = segments.flatten.length := by
  rw [offset, List.take_length]

theorem offset_succ (found : segments[number]? = some segment) :
    offset segments (number + 1) = offset segments number + segment.length := by
  simp [offset, List.take_add_one, found]

theorem offset_append (behind : List (List item)) (inside : number ≤ segments.length) :
    offset (segments ++ behind) number = offset segments number := by
  rw [offset, List.take_append_of_le_length inside, offset]

theorem flatten_split (found : segments[number]? = some segment) :
    segments.flatten =
      (segments.take number).flatten ++ (segment ++ (segments.drop (number + 1)).flatten) := by
  obtain ⟨inside, rfl⟩ := List.getElem?_eq_some_iff.mp found
  calc segments.flatten = (segments.take number ++ segments.drop number).flatten := by
        rw [List.take_append_drop]
    _ = _ := by rw [List.drop_eq_getElem_cons inside, List.flatten_append, List.flatten_cons]

theorem offset_le (segments : List (List item)) (number : Nat) :
    offset segments number ≤ segments.flatten.length := by
  have sum : (segments.take number ++ segments.drop number).flatten.length =
      offset segments number + (segments.drop number).flatten.length := by
    rw [List.flatten_append, List.length_append, offset]
  rw [List.take_append_drop] at sum
  omega

theorem getElem?_offset (found : segments[number]? = some segment)
    (inside : index < segment.length) :
    segments.flatten[offset segments number + index]? = segment[index]? := by
  rw [flatten_split found, offset, List.getElem?_append_right (by omega),
    Nat.add_sub_cancel_left, List.getElem?_append_left inside]

/-- A segment is what stands between its offset and the next one. -/
theorem take_drop_offset (found : segments[number]? = some segment) (behind : List item) :
    ((segments.flatten ++ behind).drop (offset segments number)).take segment.length =
      segment := by
  rw [flatten_split found, List.append_assoc, offset, List.drop_left, List.append_assoc,
    List.take_left]

theorem Cursor.place_offset (found : segments[number]? = some segment)
    (inside : index < segment.length) :
    Cursor.place segments.flatten (offset segments number + index) =
      some (offset segments number + index) := by
  apply Cursor.place_of_lt
  rw [flatten_split found, offset]
  simp only [List.length_append]
  omega

end Lib
