import Mathlib.Order.Lattice
import Mathlib.Data.List.Basic

/-!
# Shares between limits

Items that come in ascending order are put into shares, one of which is open.  A
share must not have items on both sides of a limit.  It is enough to keep count
of the limits that all items of the open share have reached, to close the share
when an item reaches the next limit, and to move on by one limit at a time: as
long as the count lags behind, every item closes the share of the one before.
-/

namespace Lib

variable {κ item : Type*} [LinearOrder κ]

/-- No limit parts the items of the share. -/
def Within (key : item → κ) (limits : List κ) (share : List item) : Prop :=
  ∀ limit ∈ limits, ∀ low ∈ share, ∀ high ∈ share, key low < limit → key high < limit

/-- The shares so far, and the open one, whose items have all reached the first
`index` limits. -/
structure Guarded (key : item → κ) (limits : List κ) (closed : List (List item))
    (current : List item) (index : Nat) : Prop where
  closedWithin : ∀ share ∈ closed, Within key limits share
  within : Within key limits current
  reached : ∀ limit ∈ limits.take index, ∀ member ∈ current, limit ≤ key member

variable {key : item → κ} {limits : List κ} {closed : List (List item)}
  {current : List item} {index : Nat} {next : item}

theorem within_nil : Within key limits [] := by
  intro limit _ low member
  cases member

theorem within_singleton : Within key limits [next] := by
  intro limit _ low isLow high isHigh less
  rw [List.mem_singleton.mp isHigh]
  rwa [List.mem_singleton.mp isLow] at less

/-- A share that no limit parts lies between two neighbouring limits. -/
theorem Within.exists_index {share : List item} (within : Within key limits share)
    (ascending : limits.Pairwise (· < ·)) {first : item} (isFirst : first ∈ share) :
    ∃ index ≤ limits.length,
      (∀ limit ∈ limits.take index, ∀ member ∈ share, limit ≤ key member) ∧
        ∀ limit ∈ limits.drop index, ∀ member ∈ share, key member < limit := by
  induction limits with
  | nil => exact ⟨0, Nat.le_refl _, by simp, by simp⟩
  | cons limit limits ih =>
      obtain ⟨above, others⟩ := List.pairwise_cons.mp ascending
      by_cases reached : limit ≤ key first
      · obtain ⟨index, inside, passed, ahead⟩ := ih
          (fun other isOther => within other (List.mem_cons_of_mem _ isOther)) others
        refine ⟨index + 1, Nat.succ_le_succ inside, ?_, ahead⟩
        intro other isOther member isMember
        rcases List.mem_cons.mp isOther with rfl | later
        · by_contra below
          exact absurd (within other List.mem_cons_self member isMember first isFirst
            (not_le.mp below)) (not_lt.mpr reached)
        · exact passed other later member isMember
      · refine ⟨0, Nat.zero_le _, by simp, ?_⟩
        intro other isOther member isMember
        have below := within limit List.mem_cons_self first isFirst member isMember
          (not_le.mp reached)
        rcases List.mem_cons.mp isOther with rfl | later
        · exact below
        · exact below.trans (above other later)

namespace Guarded

theorem start : Guarded key limits [] ([] : List item) index where
  closedWithin _ member := by cases member
  within := within_nil
  reached _ _ _ member := by cases member

/-- Without an open share the count may be set at will. -/
theorem move (guarded : Guarded key limits closed [] index) (other : Nat) :
    Guarded key limits closed [] other where
  closedWithin := guarded.closedWithin
  within := within_nil
  reached _ _ _ member := by cases member

theorem close (guarded : Guarded key limits closed current index) :
    Guarded key limits (closed ++ [current]) [] index where
  closedWithin share member := by
    rcases List.mem_append.mp member with older | last
    · exact guarded.closedWithin share older
    · rw [List.mem_singleton.mp last]
      exact guarded.within
  within := within_nil
  reached _ _ _ member := by cases member

/-- An item in front of the next limit joins the open share. -/
theorem add (guarded : Guarded key limits closed current index)
    (ascending : limits.Pairwise (· < ·))
    (behind : ∀ member ∈ current, key member ≤ key next)
    (before : ∀ limit ∈ limits[index]?, key next < limit)
    (reached : ∀ limit ∈ limits.take index, limit ≤ key next) :
    Guarded key limits closed (current ++ [next]) index := by
  have all : ∀ member ∈ current ++ [next], key member ≤ key next := by
    intro member inside
    rcases List.mem_append.mp inside with older | last
    · exact behind member older
    · rw [List.mem_singleton.mp last]
  have known : ∀ limit ∈ limits.take index, ∀ member ∈ current ++ [next],
      limit ≤ key member := by
    intro limit isLimit member inside
    rcases List.mem_append.mp inside with older | last
    · exact guarded.reached limit isLimit member older
    · rw [List.mem_singleton.mp last]
      exact reached limit isLimit
  refine ⟨guarded.closedWithin, ?_, known⟩
  intro limit isLimit low isLow high isHigh less
  rcases List.mem_append.mp ((List.take_append_drop index limits).symm ▸ isLimit) with
    passed | ahead
  · exact absurd (known limit passed low isLow) (not_le.mpr less)
  · refine (all high isHigh).trans_lt ?_
    -- the next limit is the smallest one ahead
    cases rest : limits.drop index with
    | nil =>
        rw [rest] at ahead
        cases ahead
    | cons first others =>
        have isNext : limits[index]? = some first := by
          rw [← List.head?_drop, rest]
          rfl
        have below := before first (Option.mem_def.mpr isNext)
        rw [rest] at ahead
        rcases List.mem_cons.mp ahead with rfl | later
        · exact below
        · have sorted : (first :: others).Pairwise (· < ·) :=
            rest ▸ ascending.sublist (List.drop_sublist _ _)
          exact below.trans ((List.pairwise_cons.mp sorted).1 limit later)

/-- An item that reaches the next limit starts a new share. -/
theorem pass (guarded : Guarded key limits closed [] index) {limit : κ}
    (isNext : limits[index]? = some limit) (reaches : limit ≤ key next)
    (reached : ∀ limit ∈ limits.take index, limit ≤ key next) :
    Guarded key limits closed [next] (index + 1) ∧
      ∀ limit ∈ limits.take (index + 1), limit ≤ key next := by
  have known : ∀ limit ∈ limits.take (index + 1), limit ≤ key next := by
    intro other member
    rw [List.take_add_one, isNext] at member
    rcases List.mem_append.mp member with older | last
    · exact reached other older
    · rw [List.mem_singleton.mp last]
      exact reaches
  refine ⟨⟨guarded.closedWithin, within_singleton, ?_⟩, known⟩
  intro other isOther member inside
  rw [List.mem_singleton.mp inside]
  exact known other isOther

end Guarded

end Lib
