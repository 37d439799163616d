import Mathlib.Data.List.Basic
import Mathlib.Tactic.Common

/-!
# A flat memory

Cells with addresses.  A write and a move change the cells of one range and no
others; a reading depends on the cells of its range only.  A range of one memory
`Mirrors` a range of another one when their cells are the same in order.
-/

namespace Lib

variable {cell : Type}

abbrev Memory (cell : Type) := Nat → cell

namespace Memory

/-- The cells of a range. -/
def read (memory : Memory cell) (start count : Nat) : List cell :=
  (List.range count).map (fun index => memory (start + index))

/-- `memcpy` from elsewhere. -/
def write (memory : Memory cell) (start : Nat) (cells : List cell) : Memory cell :=
  fun address =>
    if start ≤ address then (cells[address - start]?).getD (memory address)
    else memory address

/-- `memmove`, whose ranges may overlap. -/
def move (memory : Memory cell) (target source count : Nat) : Memory cell :=
  fun address =>
    if target ≤ address ∧ address < target + count then
      memory (source + (address - target))
    else memory address

/-- A range of `after` has the cells that a range of `before` has. -/
def Mirrors (before after : Memory cell) (source target count : Nat) : Prop :=
  ∀ index, index < count → after (target + index) = before (source + index)

variable {memory : Memory cell}

@[simp] theorem read_length (start count : Nat) :
    (memory.read start count).length = count := by
  simp [read]

theorem read_getElem {start count index : Nat}
    (inside : index < (memory.read start count).length) :
    (memory.read start count)[index] = memory (start + index) := by
  simp [read]

theorem read_append (start first second : Nat) :
    memory.read start (first + second) =
      memory.read start first ++ memory.read (start + first) second := by
  rw [read, List.range_add, List.map_append, List.map_map]
  congr 1
  exact List.map_congr_left fun index _ => congrArg memory (Nat.add_assoc ..).symm

theorem write_inside {start : Nat} {cells : List cell} {index : Nat}
    (inside : index < cells.length) :
    memory.write start cells (start + index) = cells[index] := by
  rw [write, if_pos (Nat.le_add_right ..), Nat.add_sub_cancel_left,
    List.getElem?_eq_getElem inside, Option.getD_some]

theorem write_outside {start : Nat} {cells : List cell} {address : Nat}
    (outside : address < start ∨ start + cells.length ≤ address) :
    memory.write start cells address = memory address := by
  unfold write
  split_ifs with behind
  · rw [List.getElem?_eq_none (by omega), Option.getD_none]
  · rfl

theorem move_inside {target source count index : Nat} (inside : index < count) :
    memory.move target source count (target + index) = memory (source + index) := by
  rw [move, if_pos (by omega), Nat.add_sub_cancel_left]

theorem move_outside {target source count address : Nat}
    (outside : address < target ∨ target + count ≤ address) :
    memory.move target source count address = memory address := by
  rw [move, if_neg (by omega)]

/-- Two writes, the second behind the first. -/
theorem write_append (start : Nat) (first second : List cell) :
    (memory.write start first).write (start + first.length) second =
      memory.write start (first ++ second) := by
  funext address
  rcases Nat.lt_or_ge address (start + first.length) with before | behind
  · rw [write_outside (.inl before)]
    unfold write
    split_ifs with inside
    · rw [List.getElem?_append_left (by omega)]
    · rfl
  · have past : first[address - start]? = none := List.getElem?_eq_none (by omega)
    unfold write
    rw [if_pos behind, if_pos (by omega), if_pos (by omega),
      List.getElem?_append_right (by omega), past, Nat.sub_sub, Option.getD_none]

theorem read_write_self (memory : Memory cell) (start : Nat) (cells : List cell) :
    (memory.write start cells).read start cells.length = cells := by
  apply List.ext_getElem
  · simp
  · intro index _ inside
    rw [read_getElem, write_inside inside]

namespace Mirrors

variable {before middle after : Memory cell} {source target count : Nat}

theorem read_eq (mirrors : Mirrors before after source target count) :
    after.read target count = before.read source count :=
  List.map_congr_left fun index inside => mirrors index (List.mem_range.mp inside)

theorem refl (memory : Memory cell) (start count : Nat) :
    Mirrors memory memory start start count := fun _ _ => rfl

theorem trans {between : Nat} (first : Mirrors before middle source between count)
    (second : Mirrors middle after between target count) :
    Mirrors before after source target count :=
  fun index inside => (second index inside).trans (first index inside)

theorem part (mirrors : Mirrors before after source target count) (offset size : Nat)
    (inside : offset + size ≤ count) :
    Mirrors before after (source + offset) (target + offset) size := by
  intro index isIndex
  rw [Nat.add_assoc, Nat.add_assoc]
  exact mirrors (offset + index) (by omega)

theorem write {start : Nat} {cells : List cell}
    (apart : target + count ≤ start ∨ start + cells.length ≤ target) :
    Mirrors memory (memory.write start cells) target target count :=
  fun _ _ => write_outside (by omega)

theorem move {start size : Nat}
    (apart : target + count ≤ start ∨ start + size ≤ target) :
    Mirrors memory (memory.move start source size) target target count :=
  fun _ _ => move_outside (by omega)

/-- A range that has been moved as a part of a larger one. -/
theorem moved (memory : Memory cell) (source start size offset count : Nat)
    (inside : offset + count ≤ size) :
    Mirrors memory (memory.move start source size) (source + offset) (start + offset)
      count := by
  intro index isIndex
  rw [Nat.add_assoc, move_inside (by omega), Nat.add_assoc]

end Mirrors

end Memory

end Lib
