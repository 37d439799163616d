import Mathlib.Data.List.Basic
import Mathlib.Data.List.Nodup

/-!
# Linked nodes

Nodes that are linked one behind the other, starting at a head, and the two
assignments that link another node between two of them.
-/

namespace Lib

variable {node : Type} {next : node → Option node}

/-- The link leads through the nodes, and ends there. -/
def Linked (next : node → Option node) : Option node → List node → Prop
  | link, [] => link = none
  | link, first :: nodes => link = some first ∧ Linked next (next first) nodes

/-- The last of some nodes behind a head. -/
def lastOf (head : node) (nodes : List node) : node := nodes.getLast?.getD head

@[simp] theorem lastOf_nil (head : node) : lastOf head [] = head := rfl

@[simp] theorem lastOf_cons (head first : node) (nodes : List node) :
    lastOf head (first :: nodes) = lastOf first nodes := by
  cases nodes with
  | nil => rfl
  | cons second nodes =>
      rw [lastOf, lastOf, List.getLast?_cons_cons,
        List.getLast?_eq_getLast_of_ne_nil (List.cons_ne_nil second nodes)]
      rfl

@[simp] theorem lastOf_concat (head last : node) (nodes : List node) :
    lastOf head (nodes ++ [last]) = last := by
  rw [lastOf, List.getLast?_concat]
  rfl

theorem lastOf_mem (head : node) (nodes : List node) :
    lastOf head nodes = head ∨ lastOf head nodes ∈ nodes := by
  cases last : nodes.getLast? with
  | none => exact .inl (by rw [lastOf, last]; rfl)
  | some found =>
      rw [lastOf, last]
      exact .inr (List.mem_of_getLast? last)

namespace Linked

theorem link_eq {link : Option node} {nodes : List node} (linked : Linked next link nodes) :
    link = nodes.head? := by
  cases nodes with
  | nil => exact linked
  | cons first nodes => exact linked.1

theorem unique {link : Option node} {nodes others : List node} (linked : Linked next link nodes)
    (linkedToo : Linked next link others) : nodes = others := by
  induction nodes generalizing link others with
  | nil =>
      cases others with
      | nil => rfl
      | cons first others =>
          exact absurd (linked.symm.trans linkedToo.1) (Option.some_ne_none _).symm
  | cons first nodes ih =>
      cases others with
      | nil => exact absurd (linked.1.symm.trans linkedToo) (Option.some_ne_none _)
      | cons other others =>
          have same := Option.some.inj (linked.1.symm.trans linkedToo.1)
          subst same
          rw [ih linked.2 linkedToo.2]

/-- Behind a part of the nodes stands the first of the rest. -/
theorem next_lastOf {head : node} {front back : List node}
    (linked : Linked next (next head) (front ++ back)) :
    next (lastOf head front) = back.head? := by
  induction front generalizing head with
  | nil => exact linked.link_eq
  | cons first front ih =>
      rw [lastOf_cons]
      exact ih linked.2

theorem congr {next' : node → Option node} {link : Option node} {nodes : List node}
    (linked : Linked next link nodes) (same : ∀ member ∈ nodes, next' member = next member) :
    Linked next' link nodes := by
  induction nodes generalizing link with
  | nil => exact linked
  | cons first nodes ih =>
      refine ⟨linked.1, ?_⟩
      rw [same first List.mem_cons_self]
      exact ih linked.2 fun member isMember => same member (List.mem_cons_of_mem _ isMember)

/-- The new node takes over the link of the one in front of it, which then leads to it. -/
theorem insert {next' : node → Option node} {head new : node} {front back : List node}
    (linked : Linked next (next head) (front ++ back))
    (distinct : (head :: (front ++ back)).Nodup)
    (same : ∀ member ∈ head :: (front ++ back), member ≠ lastOf head front →
      next' member = next member)
    (published : next' (lastOf head front) = some new)
    (copied : next' new = next (lastOf head front)) :
    Linked next' (next' head) (front ++ new :: back) := by
  induction front generalizing head with
  | nil =>
      refine ⟨published, ?_⟩
      rw [copied]
      apply linked.congr
      intro member isMember
      apply same member (List.mem_cons_of_mem _ isMember)
      rintro rfl
      exact (List.nodup_cons.mp distinct).1 isMember
  | cons first front ih =>
      rw [lastOf_cons] at same published copied
      obtain ⟨notMember, distinctRest⟩ := List.nodup_cons.mp distinct
      have notLast : head ≠ lastOf first front := by
        intro isLast
        rcases lastOf_mem first front with isFirst | inFront
        · exact notMember ((isLast.trans isFirst) ▸ List.mem_cons_self)
        · exact notMember (List.mem_cons_of_mem _ (List.mem_append_left _ (isLast ▸ inFront)))
      refine ⟨(same head List.mem_cons_self notLast).trans linked.1, ?_⟩
      exact ih linked.2 distinctRest
        (fun member isMember => same member (List.mem_cons_of_mem _ isMember)) published copied

end Linked

end Lib
