import Mathlib.Data.List.Basic
import Mathlib.Algebra.BigOperators.Group.List.Basic
import Mathlib.Algebra.Order.Group.Nat
import Mathlib.Algebra.GroupWithZero.Nat
import Mathlib.Order.Interval.Finset.Nat
import Mathlib.Tactic.Common

/-!
# Tilings of an interval

Spans in any order tile an interval when they can be laid out one behind the
other from its start to its stop.  What this says of the spans themselves does
not depend on the order: they lie in the interval, no two of them overlap, and
their sizes sum up to its length.
-/

namespace Lib

structure Span where
  start : Nat
  size : Nat
  deriving DecidableEq, Repr

namespace Span

def stop (span : Span) : Nat := span.start + span.size

def shift (distance : Nat) (span : Span) : Span :=
  { span with start := span.start + distance }

/-- One of the spans ends before the other one starts. -/
def Apart (first second : Span) : Prop :=
  first.stop ≤ second.start ∨ second.stop ≤ first.start

theorem Apart.symm {first second : Span} (apart : first.Apart second) :
    second.Apart first := Or.symm apart

end Span

/-- The spans follow one another from `start` to `stop`. -/
def Chain (start stop : Nat) : List Span → Prop
  | [] => start = stop
  | span :: rest => span.start = start ∧ Chain span.stop stop rest

/-- The spans tile the interval, in some order. -/
def Tiles (start stop : Nat) (spans : List Span) : Prop :=
  ∃ layout : List Span, layout.Perm spans ∧ Chain start stop layout

namespace Chain

variable {start middle stop : Nat} {layout front back : List Span}

theorem sum (chain : Chain start stop layout) :
    start + (layout.map Span.size).sum = stop := by
  induction layout generalizing start with
  | nil => exact chain
  | cons span rest ih =>
      obtain ⟨rfl, later⟩ := chain
      have summed := ih later
      simp only [Span.stop] at summed
      simp only [List.map_cons, List.sum_cons]
      omega

theorem le (chain : Chain start stop layout) : start ≤ stop :=
  chain.sum ▸ Nat.le_add_right ..

theorem inside (chain : Chain start stop layout) {span : Span} (member : span ∈ layout) :
    start ≤ span.start ∧ span.stop ≤ stop := by
  induction layout generalizing start with
  | nil => cases member
  | cons head rest ih =>
      obtain ⟨rfl, later⟩ := chain
      rcases List.mem_cons.mp member with rfl | inRest
      · exact ⟨le_rfl, later.le⟩
      · obtain ⟨lower, upper⟩ := ih later inRest
        exact ⟨(Nat.le_add_right ..).trans lower, upper⟩

theorem apart (chain : Chain start stop layout) : layout.Pairwise Span.Apart := by
  induction layout generalizing start with
  | nil => exact List.Pairwise.nil
  | cons head rest ih =>
      obtain ⟨rfl, later⟩ := chain
      exact List.pairwise_cons.mpr
        ⟨fun span inRest => .inl (later.inside inRest).1, ih later⟩

theorem split (chain : Chain start stop (front ++ back)) :
    ∃ middle, Chain start middle front ∧ Chain middle stop back := by
  induction front generalizing start with
  | nil => exact ⟨start, rfl, chain⟩
  | cons head rest ih =>
      obtain ⟨rfl, later⟩ := chain
      obtain ⟨middle, first, second⟩ := ih later
      exact ⟨middle, ⟨rfl, first⟩, second⟩

theorem append (first : Chain start middle front) (second : Chain middle stop back) :
    Chain start stop (front ++ back) := by
  induction front generalizing start with
  | nil =>
      obtain rfl : start = middle := first
      exact second
  | cons head rest ih =>
      obtain ⟨rfl, later⟩ := first
      exact ⟨rfl, ih later⟩

theorem shift (chain : Chain start stop layout) (distance : Nat) :
    Chain (start + distance) (stop + distance) (layout.map (Span.shift distance)) := by
  induction layout generalizing start with
  | nil => exact congrArg (· + distance) chain
  | cons head rest ih =>
      obtain ⟨rfl, later⟩ := chain
      refine ⟨rfl, ?_⟩
      have shifted := ih later
      have isStop : (Span.shift distance head).stop = head.stop + distance :=
        Nat.add_right_comm ..
      rwa [isStop]

end Chain

namespace Tiles

variable {start stop : Nat} {spans others : List Span} {span : Span}

theorem perm (tiles : Tiles start stop spans) (isPerm : spans.Perm others) :
    Tiles start stop others := by
  obtain ⟨layout, isLayout, chain⟩ := tiles
  exact ⟨layout, isLayout.trans isPerm, chain⟩

theorem sum (tiles : Tiles start stop spans) :
    start + (spans.map Span.size).sum = stop := by
  obtain ⟨layout, isLayout, chain⟩ := tiles
  rw [← (isLayout.map Span.size).sum_eq]
  exact chain.sum

theorem inside (tiles : Tiles start stop spans) (member : span ∈ spans) :
    start ≤ span.start ∧ span.stop ≤ stop := by
  obtain ⟨layout, isLayout, chain⟩ := tiles
  exact chain.inside (isLayout.mem_iff.mpr member)

theorem apart (tiles : Tiles start stop spans) : spans.Pairwise Span.Apart := by
  obtain ⟨layout, isLayout, chain⟩ := tiles
  exact (isLayout.pairwise_iff Span.Apart.symm).mp chain.apart

theorem nil (start : Nat) : Tiles start start [] := ⟨[], .nil, rfl⟩

/-- A span in front of a tiled interval. -/
theorem cons (tiles : Tiles start stop spans) (span : Span) (ends : span.stop = start) :
    Tiles span.start stop (span :: spans) := by
  obtain ⟨layout, isLayout, chain⟩ := tiles
  exact ⟨span :: layout, isLayout.cons span, rfl, ends ▸ chain⟩

/-- Some span starts where the interval does. -/
theorem exists_first (tiles : Tiles start stop spans) (nonempty : spans ≠ []) :
    ∃ first ∈ spans, first.start = start := by
  obtain ⟨layout, isLayout, chain⟩ := tiles
  cases layout with
  | nil => exact absurd isLayout.symm.eq_nil nonempty
  | cons first rest =>
      exact ⟨first, isLayout.mem_iff.mp List.mem_cons_self, chain.1⟩

/-- A span goes, and what lies in front of it moves up to close the gap. -/
theorem close (tiles : Tiles start stop (span :: spans))
    (positive : ∀ other ∈ spans, 0 < other.size) :
    Tiles (start + span.size) stop (spans.map fun other =>
      if other.start < span.start then other.shift span.size else other) := by
  obtain ⟨layout, isLayout, chain⟩ := tiles
  obtain ⟨front, back, rfl⟩ := List.append_of_mem
    (isLayout.mem_iff.mpr List.mem_cons_self)
  have isRest : (front ++ back).Perm spans :=
    (List.perm_middle.symm.trans isLayout).cons_inv
  obtain ⟨middle, first, isStart, second⟩ := chain.split
  subst isStart
  refine ⟨front.map (Span.shift span.size) ++ back, ?_, ?_⟩
  · refine List.Perm.trans ?_ (isRest.map _)
    rw [List.map_append]
    have inFront : ∀ other ∈ front, Span.shift span.size other =
        if other.start < span.start then other.shift span.size else other := by
      intro other member
      have before : other.start + other.size ≤ span.start := (first.inside member).2
      have size := positive other (isRest.mem_iff.mp (List.mem_append_left _ member))
      rw [if_pos (by omega)]
    have inBack : ∀ other ∈ back, other =
        if other.start < span.start then other.shift span.size else other := by
      intro other member
      have behind : span.start + span.size ≤ other.start := (second.inside member).1
      rw [if_neg (by omega)]
    rw [List.map_congr_left inFront, ← List.map_congr_left inBack, List.map_id']
  · exact (first.shift span.size).append second

/-- A span that comes to the end of the interval, while the others stay where they are,
has the size of the one it replaces. -/
theorem size_eq_of_last {first last : Nat} {old new : Span}
    (before : Tiles first stop (old :: spans)) (after : Tiles last stop (new :: spans))
    (isLast : new.stop = stop) (nonempty : spans ≠ [])
    (positive : ∀ other ∈ new :: spans, 0 < other.size) : new.size = old.size := by
  have sumBefore := before.sum
  have sumAfter := after.sum
  simp only [List.map_cons, List.sum_cons] at sumBefore sumAfter
  have newSize := positive new List.mem_cons_self
  obtain ⟨lowest, member, isLowest⟩ := after.exists_first (List.cons_ne_nil _ _)
  have stays : lowest ∈ spans := by
    rcases List.mem_cons.mp member with rfl | stays
    · obtain ⟨other, rest, rfl⟩ := List.exists_cons_of_ne_nil nonempty
      have size := positive other (List.mem_cons_of_mem _ List.mem_cons_self)
      simp only [List.map_cons, List.sum_cons] at sumAfter
      unfold Span.stop at isLast
      omega
    · exact stays
  have lower := (before.inside (List.mem_cons_of_mem old stays)).1
  have size := positive lowest (List.mem_cons_of_mem new stays)
  obtain ⟨start, startMember, isStart⟩ := before.exists_first (List.cons_ne_nil _ _)
  rcases List.mem_cons.mp startMember with rfl | startStays
  · rcases (List.pairwise_cons.mp before.apart).1 lowest stays with apart | apart
    · unfold Span.stop at apart
      omega
    · unfold Span.stop at apart
      omega
  · have upper := (after.inside (List.mem_cons_of_mem new startStays)).1
    omega

end Tiles

/-! ## Counting cells -/

/-- The cells of a span. -/
def Span.cells (span : Span) : Finset Nat := Finset.Ico span.start span.stop

def covered (spans : List Span) : Finset Nat :=
  spans.foldr (fun span cells => span.cells ∪ cells) ∅

theorem mem_covered {spans : List Span} {address : Nat} :
    address ∈ covered spans ↔ ∃ span ∈ spans, address ∈ span.cells := by
  induction spans with
  | nil => simp [covered]
  | cons head rest ih =>
      change address ∈ head.cells ∪ covered rest ↔ _
      rw [Finset.mem_union, ih]
      simp

/-- Spans apart from one another have as many cells as their sizes say. -/
theorem card_covered {spans : List Span} (apart : spans.Pairwise Span.Apart) :
    (covered spans).card = (spans.map Span.size).sum := by
  induction spans with
  | nil => rfl
  | cons head rest ih =>
      obtain ⟨fromRest, later⟩ := List.pairwise_cons.mp apart
      have disjoint : Disjoint head.cells (covered rest) := by
        refine Finset.disjoint_left.mpr fun address isHead isCovered => ?_
        obtain ⟨span, member, isSpan⟩ := mem_covered.mp isCovered
        obtain ⟨lower, upper⟩ := Finset.mem_Ico.mp isHead
        obtain ⟨spanLower, spanUpper⟩ := Finset.mem_Ico.mp isSpan
        rcases fromRest span member with before | behind
        · omega
        · omega
      have size : head.cells.card = head.size := by
        rw [Span.cells, Nat.card_Ico, Span.stop, Nat.add_sub_cancel_left]
      change (head.cells ∪ covered rest).card = _
      rw [Finset.card_union_of_disjoint disjoint, ih later, size, List.map_cons, List.sum_cons]

/-- Spans apart from one another in an interval are together no longer than it. -/
theorem sum_size_le {spans : List Span} {start stop : Nat} (apart : spans.Pairwise Span.Apart)
    (inside : ∀ span ∈ spans, start ≤ span.start ∧ span.stop ≤ stop) :
    (spans.map Span.size).sum ≤ stop - start := by
  rw [← card_covered apart, ← Nat.card_Ico]
  refine Finset.card_le_card fun address isCovered => ?_
  obtain ⟨span, member, isSpan⟩ := mem_covered.mp isCovered
  obtain ⟨lower, upper⟩ := Finset.mem_Ico.mp isSpan
  obtain ⟨first, last⟩ := inside span member
  exact Finset.mem_Ico.mpr ⟨by omega, by omega⟩

end Lib
