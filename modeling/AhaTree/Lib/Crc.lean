import Mathlib.Data.Nat.Bitwise

/-!
# Cyclic redundancy checks

A message is a number whose low bits come first.  One step of the check takes
the lowest bit off a remainder and adds the generator in its place, so that
`advance` by the length of the message is the remainder of the message.  It is
linear for exclusive or, and on remainders it forgets nothing.
-/

namespace Lib

namespace Crc

/-- One bit of the division by the generator. -/
def bitStep (generator state : Nat) : Nat :=
  (state >>> 1) ^^^ (if state % 2 = 1 then generator else 0)

def advance (generator : Nat) : Nat → Nat → Nat
  | 0, state => state
  | bits + 1, state => advance generator bits (bitStep generator state)

variable {generator : Nat}

theorem bitStep_xor (left right : Nat) :
    bitStep generator (left ^^^ right) = bitStep generator left ^^^ bitStep generator right := by
  have swap : ∀ first second third : Nat,
      first ^^^ third ^^^ (second ^^^ third) = first ^^^ second := by
    intro first second third
    rw [Nat.xor_assoc, Nat.xor_comm third, Nat.xor_assoc, Nat.xor_self, Nat.xor_zero]
  simp only [bitStep, Nat.shiftRight_xor_distrib, Nat.xor_mod_two_eq_one]
  by_cases leftOdd : left % 2 = 1 <;> by_cases rightOdd : right % 2 = 1
  · simp [leftOdd, rightOdd, swap]
  · simp only [leftOdd, rightOdd, not_true_eq_false, not_false_eq_true, iff_false, if_true,
      if_false, Nat.xor_zero]
    rw [Nat.xor_assoc, Nat.xor_assoc, Nat.xor_comm generator]
  · simp [leftOdd, rightOdd, Nat.xor_assoc]
  · simp [leftOdd, rightOdd]

theorem advance_xor (bits left right : Nat) :
    advance generator bits (left ^^^ right) =
      advance generator bits left ^^^ advance generator bits right := by
  induction bits generalizing left right with
  | zero => rfl
  | succ bits ih => rw [advance, bitStep_xor, ih, advance, advance]

theorem advance_add (first second state : Nat) :
    advance generator (first + second) state =
      advance generator second (advance generator first state) := by
  induction first generalizing state with
  | zero => rw [Nat.zero_add, advance]
  | succ first ih => rw [Nat.succ_add, advance, ih, advance]

@[simp] theorem advance_zero (bits : Nat) : advance generator bits 0 = 0 := by
  induction bits with
  | zero => rfl
  | succ bits ih =>
      have step : bitStep generator 0 = 0 := Nat.xor_zero 0
      rw [advance, step, ih]

/-- Zero bits only move the rest of the message down. -/
theorem advance_shiftLeft (bits state : Nat) :
    advance generator bits (state <<< bits) = state := by
  induction bits with
  | zero => rfl
  | succ bits ih =>
      have halves : bitStep generator (state <<< (bits + 1)) = state <<< bits := by
        rw [bitStep, Nat.shiftLeft_succ, Nat.mul_mod_right, if_neg (by decide), Nat.xor_zero,
          Nat.shiftRight_one, Nat.mul_div_cancel_left _ (by decide)]
      rw [advance, halves, ih]

/-- What follows a block of the message may be added when the block has passed. -/
theorem advance_xor_shiftLeft (bits state later : Nat) :
    advance generator bits (state ^^^ later <<< bits) = advance generator bits state ^^^ later := by
  rw [advance_xor, advance_shiftLeft]

section Remainders

variable {width : Nat} (fits : generator < 2 ^ (width + 1)) (monic : generator.testBit width)

section

include fits

theorem bitStep_lt {state : Nat} (small : state < 2 ^ (width + 1)) :
    bitStep generator state < 2 ^ (width + 1) := by
  rw [bitStep]
  apply Nat.xor_lt_two_pow
  · exact Nat.lt_of_le_of_lt (Nat.shiftRight_le state 1) small
  · split
    · exact fits
    · exact Nat.two_pow_pos _

theorem advance_lt (bits : Nat) {state : Nat} (small : state < 2 ^ (width + 1)) :
    advance generator bits state < 2 ^ (width + 1) := by
  induction bits generalizing state with
  | zero => exact small
  | succ bits ih => exact ih (bitStep_lt fits small)

end

include monic

/-- A step that adds the generator sets the highest bit. -/
theorem eq_zero_of_bitStep {state : Nat} (small : state < 2 ^ (width + 1))
    (zero : bitStep generator state = 0) : state = 0 := by
  rw [bitStep] at zero
  by_cases odd : state % 2 = 1
  · rw [if_pos odd] at zero
    have high := congrArg (fun number => Nat.testBit number width) zero
    have clear : (state >>> 1).testBit width = false := by
      rw [Nat.testBit_shiftRight]
      exact Nat.testBit_lt_two_pow (Nat.lt_of_lt_of_le small
        (Nat.pow_le_pow_right (by decide) (by omega)))
    simp [Nat.testBit_xor, clear, monic] at high
  · rw [if_neg odd, Nat.xor_zero, Nat.shiftRight_one] at zero
    omega

include fits

theorem eq_zero_of_advance (bits : Nat) {state : Nat} (small : state < 2 ^ (width + 1))
    (zero : advance generator bits state = 0) : state = 0 := by
  induction bits generalizing state with
  | zero => exact zero
  | succ bits ih =>
      exact eq_zero_of_bitStep monic small (ih (bitStep_lt fits small) zero)

/-- Two messages that differ in one burst only, no longer than the generator, have different
remainders. -/
theorem advance_ne_of_burst {bits offset burst left right : Nat} (inside : offset ≤ bits)
    (short : burst < 2 ^ (width + 1)) (nonzero : burst ≠ 0)
    (differ : left ^^^ right = burst <<< offset) :
    advance generator bits left ≠ advance generator bits right := by
  intro same
  have together : advance generator bits (left ^^^ right) = 0 := by
    rw [advance_xor, same, Nat.xor_self]
  obtain ⟨rest, rfl⟩ := Nat.exists_eq_add_of_le inside
  rw [differ, advance_add, advance_shiftLeft] at together
  exact nonzero (eq_zero_of_advance fits monic rest short together)

end Remainders

end Crc

end Lib
