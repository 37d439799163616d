import Mathlib.Tactic.Common

/-!
# Bisection with an early exit

`probe index` compares a sought key with the entry at `index`: `.gt` means that
the key lies behind that entry.  Bisection stops at the first entry it finds
equal, or with the gap it has closed in on.  Nothing is assumed about the
entries here: the specification only says what the last probes on both sides of
the gap have answered, and what follows from it is up to the order of the
entries.
-/

namespace Lib

inductive Bisection where
  | hit (index : Nat)
  | gap (index : Nat)
  deriving DecidableEq, Repr

def bisect (probe : Nat → Ordering) : Nat → Nat → Nat → Bisection
  | 0, low, _ => .gap low
  | fuel + 1, low, high =>
      if low < high then
        let mid := low + (high - low) / 2
        match probe mid with
        | .eq => .hit mid
        | .gt => bisect probe fuel (mid + 1) high
        | .lt => bisect probe fuel low mid
      else .gap low

/-- What an outcome of a bisection between `low` and `high` tells. -/
def Bisected (probe : Nat → Ordering) (low high : Nat) : Bisection → Prop
  | .hit index => low ≤ index ∧ index < high ∧ probe index = .eq
  | .gap index =>
      low ≤ index ∧ index ≤ high ∧
        (index = low ∨ probe (index - 1) = .gt) ∧
        (index = high ∨ probe index = .lt)

theorem Bisected.of_upper {probe : Nat → Ordering} {low mid high : Nat}
    {outcome : Bisection} (inside : mid ≤ high) (answer : probe mid = .lt)
    (found : Bisected probe low mid outcome) :
    Bisected probe low high outcome := by
  cases outcome with
  | hit index =>
      obtain ⟨lower, upper, equal⟩ := found
      exact ⟨lower, by omega, equal⟩
  | gap index =>
      obtain ⟨lower, upper, before, behind⟩ := found
      refine ⟨lower, by omega, before, ?_⟩
      rcases behind with rfl | less
      · exact .inr answer
      · exact .inr less

theorem Bisected.of_lower {probe : Nat → Ordering} {low mid high : Nat}
    {outcome : Bisection} (inside : low ≤ mid) (answer : probe mid = .gt)
    (found : Bisected probe (mid + 1) high outcome) :
    Bisected probe low high outcome := by
  cases outcome with
  | hit index =>
      obtain ⟨lower, upper, equal⟩ := found
      exact ⟨by omega, upper, equal⟩
  | gap index =>
      obtain ⟨lower, upper, before, behind⟩ := found
      refine ⟨by omega, upper, .inr ?_, behind⟩
      rcases before with rfl | more
      · simpa using answer
      · exact more

/-- With fuel for the width of the interval, bisection ends with an outcome
that the probes justify. -/
theorem bisect_spec (probe : Nat → Ordering) {fuel low high : Nat}
    (ordered : low ≤ high) (enough : high - low ≤ fuel) :
    Bisected probe low high (bisect probe fuel low high) := by
  induction fuel generalizing low high with
  | zero =>
      have same : low = high := by omega
      simp [bisect, Bisected, same]
  | succ fuel ih =>
      rw [bisect]
      by_cases wide : low < high
      · rw [if_pos wide]
        have midLow : low ≤ low + (high - low) / 2 := by omega
        have midHigh : low + (high - low) / 2 < high := by omega
        cases answer : probe (low + (high - low) / 2) with
        | eq => simpa only [answer] using ⟨midLow, midHigh, answer⟩
        | gt =>
            simp only [answer]
            exact (ih (by omega) (by omega)).of_lower midLow answer
        | lt =>
            simp only [answer]
            exact (ih (by omega) (by omega)).of_upper (Nat.le_of_lt midHigh) answer
      · rw [if_neg wide]
        have same : low = high := by omega
        simp [Bisected, same]

/-- Where a new key goes in: in front of the last entry that has been compared, or
behind it. -/
def Bisection.settle (probe : Nat → Ordering) : Bisection → Nat
  | .hit index => index
  | .gap index => if (probe index).isGT then index + 1 else index

/-- The entries that a search for the place of a key compares it with. -/
def asked (probe : Nat → Ordering) : Nat → Nat → Nat → List Nat
  | 0, low, _ => [low]
  | fuel + 1, low, high =>
      if low < high then
        let mid := low + (high - low) / 2
        mid ::
          match probe mid with
          | .eq => []
          | .gt => asked probe fuel (mid + 1) high
          | .lt => asked probe fuel low mid
      else [low]

theorem asked_le {probe : Nat → Ordering} {fuel low high index : Nat} (ordered : low ≤ high)
    (member : index ∈ asked probe fuel low high) : index ≤ high := by
  induction fuel generalizing low high with
  | zero =>
      rw [asked, List.mem_singleton] at member
      omega
  | succ fuel ih =>
      rw [asked] at member
      split_ifs at member with wide
      · rcases List.mem_cons.mp member with rfl | later
        · omega
        · cases answer : probe (low + (high - low) / 2) with
          | eq =>
              rw [answer] at later
              cases later
          | gt =>
              rw [answer] at later
              exact ih (by omega) later
          | lt =>
              rw [answer] at later
              have bound := ih (by omega) later
              omega
      · rw [List.mem_singleton] at member
        omega

section settle

variable {probe : Nat → Ordering} {low high : Nat} {outcome : Bisection}

theorem Bisected.settle_le (found : Bisected probe low high outcome) :
    low ≤ outcome.settle probe ∧ outcome.settle probe ≤ high + 1 := by
  cases outcome with
  | hit index =>
      obtain ⟨lower, upper, -⟩ := found
      simp only [Bisection.settle]
      omega
  | gap index =>
      obtain ⟨lower, upper, -⟩ := found
      simp only [Bisection.settle]
      split_ifs
      · omega
      · omega

/-- In front of an entry that lies behind the key. -/
theorem Bisected.settle_le_of_lt (found : Bisected probe low high outcome)
    (answer : probe high = .lt) : outcome.settle probe ≤ high := by
  cases outcome with
  | hit index => exact Nat.le_of_lt found.2.1
  | gap index =>
      obtain ⟨lower, upper, -, behind⟩ := found
      simp only [Bisection.settle]
      split_ifs with more
      · rcases behind with rfl | less
        · simp [answer] at more
        · simp [less] at more
      · exact upper

/-- What an entry answers when the place of the key is known. -/
def side (position index : Nat) : Ordering := if index < position then .gt else .lt

theorem settle_gap_iff (different : ∀ index, probe index ≠ .eq) {position : Nat}
    (lower : low ≤ position) (upper : position ≤ low + 1) :
    (Bisection.gap low).settle probe = position ↔
      ∀ index ∈ [low], probe index = side position index := by
  simp only [Bisection.settle, List.mem_singleton, forall_eq, side]
  cases answer : probe low with
  | eq => exact absurd answer (different low)
  | gt =>
      simp only [Ordering.isGT_gt, if_true]
      split_ifs
      · simp; omega
      · simp; omega
  | lt =>
      simp only [Ordering.isGT_lt, Bool.false_eq_true, if_false]
      split_ifs
      · simp; omega
      · simp; omega

/-- The search finds the place of the key exactly when all entries it asks tell the
side they are on. -/
theorem settle_eq_iff (different : ∀ index, probe index ≠ .eq) {fuel position : Nat}
    (ordered : low ≤ high) (enough : high - low ≤ fuel) (lower : low ≤ position)
    (upper : position ≤ high + 1) :
    (bisect probe fuel low high).settle probe = position ↔
      ∀ index ∈ asked probe fuel low high, probe index = side position index := by
  induction fuel generalizing low high with
  | zero => exact settle_gap_iff different lower (by omega)
  | succ fuel ih =>
      rw [bisect, asked]
      by_cases wide : low < high
      · rw [if_pos wide, if_pos wide]
        generalize isMid : low + (high - low) / 2 = mid
        cases answer : probe mid with
        | eq => exact absurd answer (different mid)
        | gt =>
            simp only [answer, List.forall_mem_cons, side]
            split_ifs with before
            · simp only [true_and]
              exact ih (by omega) (by omega) (by omega) upper
            · have bounds := (@bisect_spec probe fuel (mid + 1) high (by omega)
                (by omega)).settle_le
              simp only [false_and, iff_false]
              omega
        | lt =>
            simp only [answer, List.forall_mem_cons, side]
            split_ifs with before
            · have bound := (@bisect_spec probe fuel low mid (by omega)
                (by omega)).settle_le_of_lt answer
              simp only [false_and, iff_false]
              omega
            · simp only [true_and]
              exact ih (by omega) (by omega) lower (by omega)
      · rw [if_neg wide, if_neg wide]
        exact settle_gap_iff different lower (by omega)

end settle

end Lib
