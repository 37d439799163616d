import Mathlib.Data.List.Lex
import Mathlib.Order.Fin.Basic
import Mathlib.Order.Compare
import Mathlib.Algebra.GroupWithZero.Nat

/-!
# Byte strings and their comparisons

A `Slice` is the contents of a `Slice` or of a `std::string`.  Two orders are
in use in the tree: `Slice::compare`, which is also what the bytewise user
comparator calls, and the C library's `strcmp`, which stops at the first zero
byte.  The first one is shown to be the lexicographic order, so that everything
above this module argues with `<` and `≤` on byte lists.
-/

namespace AhaTree

abbrev Byte := Fin 256

instance byte_neZero : NeZero 256 := ⟨by decide⟩

abbrev Slice := List Byte

namespace Slice

/-- `memcmp` on at most `count` bytes. -/
def memcmp : Nat → Slice → Slice → Ordering
  | count + 1, left :: lefts, right :: rights =>
      match Ord.compare left right with
      | .eq => memcmp count lefts rights
      | result => result
  | _, _, _ => .eq

/-- `Slice::compare`: the common prefix first, then the lengths. -/
def compare (left right : Slice) : Ordering :=
  match memcmp (min left.length right.length) left right with
  | .eq => Ord.compare left.length right.length
  | result => result

/-- `strcmp` on the `c_str()` of both strings: a zero byte ends a string, and
so does its real end, where `c_str()` has a terminating zero. -/
def strcmp : Slice → Slice → Ordering
  | [], [] => .eq
  | [], right :: _ => if right = 0 then .eq else .lt
  | left :: _, [] => if left = 0 then .eq else .gt
  | left :: lefts, right :: rights =>
      if left = right then
        if left = 0 then .eq else strcmp lefts rights
      else Ord.compare left right

@[simp] theorem compare_nil_nil : compare [] [] = .eq := rfl

@[simp] theorem compare_nil_cons (right : Byte) (rights : Slice) :
    compare [] (right :: rights) = .lt := by
  simp [compare, memcmp, compare_lt_iff_lt]

@[simp] theorem compare_cons_nil (left : Byte) (lefts : Slice) :
    compare (left :: lefts) [] = .gt := by
  simp [compare, memcmp, compare_gt_iff_gt]

theorem compare_cons_cons (left right : Byte) (lefts rights : Slice) :
    compare (left :: lefts) (right :: rights) =
      match Ord.compare left right with
      | .eq => compare lefts rights
      | result => result := by
  have lengths :
      Ord.compare (lefts.length + 1) (rights.length + 1) =
        Ord.compare lefts.length rights.length := by
    rcases lt_trichotomy lefts.length rights.length with less | equal | more
    · rw [compare_lt_iff_lt.mpr less, compare_lt_iff_lt.mpr (by omega)]
    · rw [compare_eq_iff_eq.mpr equal, compare_eq_iff_eq.mpr (by omega)]
    · rw [compare_gt_iff_gt.mpr more, compare_gt_iff_gt.mpr (by omega)]
  simp only [compare, List.length_cons, Nat.add_min_add_right, memcmp, lengths]
  cases Ord.compare left right <;> rfl

/-- `Slice::compare` is the three-way comparison of the lexicographic order. -/
theorem compare_spec (left right : Slice) :
    (compare left right = .lt ∧ left < right) ∨
      (compare left right = .eq ∧ left = right) ∨
      (compare left right = .gt ∧ right < left) := by
  induction left generalizing right with
  | nil =>
      cases right with
      | nil => exact .inr (.inl ⟨rfl, rfl⟩)
      | cons head tail =>
          exact .inl ⟨compare_nil_cons head tail, List.nil_lt_cons head tail⟩
  | cons head tail ih =>
      cases right with
      | nil =>
          exact .inr (.inr
            ⟨compare_cons_nil head tail, List.nil_lt_cons head tail⟩)
      | cons head' tail' =>
          rw [compare_cons_cons]
          rcases lt_trichotomy head head' with less | equal | more
          · rw [compare_lt_iff_lt.mpr less]
            exact .inl ⟨rfl, List.cons_lt_cons_iff.mpr (.inl less)⟩
          · subst head'
            rw [compare_eq_iff_eq.mpr rfl]
            rcases ih tail' with ⟨result, less⟩ | ⟨result, equal⟩ | ⟨result, more⟩
            · exact .inl
                ⟨result, List.cons_lt_cons_iff.mpr (.inr ⟨rfl, less⟩)⟩
            · exact .inr (.inl ⟨result, by rw [equal]⟩)
            · exact .inr (.inr
                ⟨result, List.cons_lt_cons_iff.mpr (.inr ⟨rfl, more⟩)⟩)
          · rw [compare_gt_iff_gt.mpr more]
            exact .inr (.inr ⟨rfl, List.cons_lt_cons_iff.mpr (.inl more)⟩)

/-! The tests the source makes on the result of `compare`. -/

@[simp] theorem compare_eq_lt {left right : Slice} :
    compare left right = .lt ↔ left < right := by
  rcases compare_spec left right with ⟨result, less⟩ | ⟨result, rfl⟩ | ⟨result, more⟩
  · simp [result, less]
  · simp [result]
  · simpa [result] using more.le

@[simp] theorem compare_eq_gt {left right : Slice} :
    compare left right = .gt ↔ right < left := by
  rcases compare_spec left right with ⟨result, less⟩ | ⟨result, rfl⟩ | ⟨result, more⟩
  · simpa [result] using less.le
  · simp [result]
  · simp [result, more]

@[simp] theorem compare_eq_eq {left right : Slice} :
    compare left right = .eq ↔ left = right := by
  rcases compare_spec left right with ⟨result, less⟩ | ⟨result, rfl⟩ | ⟨result, more⟩
  · simpa [result] using less.ne
  · simp [result]
  · simpa [result] using more.ne'

@[simp] theorem compare_isLT_eq_false {left right : Slice} :
    (compare left right).isLT = false ↔ right ≤ left := by
  rw [Bool.eq_false_iff, ne_eq, Ordering.isLT_iff_eq_lt, compare_eq_lt, not_lt]

@[simp] theorem compare_isLE {left right : Slice} :
    (compare left right).isLE = true ↔ left ≤ right := by
  rw [Ordering.isLE_iff_ne_gt, compare_eq_gt, not_lt]

@[simp] theorem compare_isGE {left right : Slice} :
    (compare left right).isGE = true ↔ right ≤ left := by
  rw [Ordering.isGE_iff_ne_lt, compare_eq_lt, not_lt]

/-- What follows two strings does not count when neither is a prefix of the other. -/
theorem compare_append {left right : Slice} (lefts rights : Slice)
    (notPrefix : ¬ left <+: right) (notPrefixed : ¬ right <+: left) :
    compare (left ++ lefts) (right ++ rights) = compare left right := by
  induction left generalizing right with
  | nil => exact absurd (List.nil_prefix) notPrefix
  | cons head tail ih =>
      cases right with
      | nil => exact absurd (List.nil_prefix) notPrefixed
      | cons other rest =>
          rw [List.cons_append, List.cons_append, compare_cons_cons, compare_cons_cons]
          cases result : Ord.compare head other with
          | lt => rfl
          | gt => rfl
          | eq =>
              have same : head = other := compare_eq_iff_eq.mp result
              subst same
              rw [List.prefix_cons_inj] at notPrefix notPrefixed
              exact ih notPrefix notPrefixed

/-- Cutting two strings to one length keeps their order. -/
theorem take_le_take {left right : Slice} (order : left ≤ right) (count : Nat) :
    left.take count ≤ right.take count := by
  rw [← not_lt] at order ⊢
  induction count generalizing left right with
  | zero => simp
  | succ count ih =>
      cases left with
      | nil => simp
      | cons head lefts =>
          cases right with
          | nil => exact absurd (List.nil_lt_cons head lefts) order
          | cons other rights =>
              rw [List.cons_lt_cons_iff, not_or] at order
              rw [List.take_succ_cons, List.take_succ_cons, List.cons_lt_cons_iff,
                not_or]
              refine ⟨order.1, ?_⟩
              rintro ⟨same, less⟩
              exact ih (fun more => order.2 ⟨same, more⟩) less

end Slice

end AhaTree
