import AhaTree.Lib.Cursor
import AhaTree.Lib.Links
import Mathlib.Logic.Function.Basic
import Mathlib.Data.List.Sort

/-!
# Skip lists

The model of `skiplist.h`.  Nodes have numbers, and the head has the number 0.
At every level the nodes that are high enough are linked in ascending order of
their keys.  All searches are one loop: it moves on in a level as long as the
next node comes before what is sought, and else goes down a level.
-/

namespace AhaTree

open Lib (Cursor Linked lastOf lastOf_nil lastOf_concat lastOf_mem)

def kMaxHeight : Nat := 12

/-- `next` has a link for every node and level. -/
structure SkipList (κ : Type) where
  count : Nat
  key : Nat → κ
  next : Nat → Nat → Option Nat
  maxHeight : Nat

namespace SkipList

variable {κ : Type}

/-- The key of the head is never looked at. -/
def new (anyKey : κ) : SkipList κ where
  count := 1
  key _ := anyKey
  next _ _ := none
  maxHeight := 1

/-! ## Searching -/

/-- Where a search stands, and the nodes at which it left the levels above. -/
structure Search where
  x : Nat
  level : Nat
  prev : Nat → Nat

structure Found where
  x : Nat
  next : Option Nat
  prev : Nat → Nat

namespace Search

def start (height : Nat) : Search := ⟨0, height - 1, fun _ => 0⟩

/-- The level is done. -/
def leave (standing : Search) (next : Option Nat) : Search ⊕ Found :=
  let prev := Function.update standing.prev standing.level standing.x
  if standing.level = 0 then .inr ⟨standing.x, next, prev⟩
  else .inl ⟨standing.x, standing.level - 1, prev⟩

end Search

variable (list : SkipList κ)

/-- A turn of the loop; a node that is `before` the end of the search is passed. -/
def turn (before : κ → Bool) (standing : Search) : Search ⊕ Found :=
  let next := list.next standing.x standing.level
  match next.filter fun node => before (list.key node) with
  | some node => .inl { standing with x := node }
  | none => standing.leave next

/-- The loop; there is no answer when the fuel runs out. -/
def search (before : κ → Bool) : Nat → Search → Option Found
  | 0, _ => none
  | fuel + 1, standing =>
      match list.turn before standing with
      | .inl standing => search before fuel standing
      | .inr found => some found

/-- No level has more links than there are nodes. -/
def fuel : Nat := kMaxHeight * (list.count + 1)

def find (before : κ → Bool) : Option Found :=
  list.search before list.fuel (Search.start list.maxHeight)

variable (cmp : κ → κ → Ordering)

/-- `KeyIsAfterNode`, for a node that is not null. -/
def keyIsAfterNode (key nodeKey : κ) : Bool := (cmp nodeKey key).isLT

def findGreaterOrEqual (key : κ) : Option Nat :=
  (list.find (keyIsAfterNode cmp key)).bind Found.next

/-- The head counts as no node. -/
def unlessHead (node : Nat) : Option Nat := if node = 0 then none else some node

def findLessThan (key : κ) : Option Nat :=
  (list.find (keyIsAfterNode cmp key)).bind fun found => unlessHead found.x

def findLast : Option Nat := (list.find fun _ => true).bind fun found => unlessHead found.x

def contains (key : κ) : Bool :=
  match list.findGreaterOrEqual cmp key with
  | some node => cmp key (list.key node) = .eq
  | none => false

/-- The iterator, on a list that does not change. -/
def cursor : Cursor (Option Nat) κ κ where
  current node := node.map list.key
  seekToFirst _ := list.next 0 0
  seekToLast _ := list.findLast
  seek target _ := list.findGreaterOrEqual cmp target
  next node := node.bind fun x => list.next x 0
  prev node := node.bind fun x => list.findLessThan cmp (list.key x)

/-! ## Inserting -/

/-- Where the new node goes at every level. -/
def prevs (key : κ) : Nat → Nat :=
  match list.find (keyIsAfterNode cmp key) with
  | some found => fun level => if level < list.maxHeight then found.prev level else 0
  | none => fun _ => 0

def raise (height : Nat) : SkipList κ := { list with maxHeight := max list.maxHeight height }

def newNode (key : κ) : SkipList κ :=
  { list with
    count := list.count + 1
    key := Function.update list.key list.count key }

/-- `NoBarrier_SetNext` and `SetNext`. -/
def setNext (node level : Nat) (target : Option Nat) : SkipList κ :=
  { list with
    next := Function.update list.next node (Function.update (list.next node) level target) }

/-- The two assignments of a turn of the loop that links the new node. -/
def copyNext (x : Nat) (prev : Nat → Nat) (level : Nat) : SkipList κ :=
  list.setNext x level (list.next (prev level) level)

def publish (x : Nat) (prev : Nat → Nat) (level : Nat) : SkipList κ :=
  list.setNext (prev level) level (some x)

def link (x : Nat) (prev : Nat → Nat) (height : Nat) : SkipList κ :=
  (List.range height).foldl
    (fun list level => (list.copyNext x prev level).publish x prev level) list

/-- The height of the new node is random. -/
def insert (key : κ) (height : Nat) : SkipList κ :=
  ((list.raise height).newNode key).link list.count (list.prevs cmp key) height

/-! ## The levels -/

/-- Every level links some of the nodes of the level below. -/
structure Shape (cmp : κ → κ → Ordering) (list : SkipList κ) (levels : Nat → List Nat) : Prop where
  linked : ∀ level, Linked (list.next · level) (list.next 0 level) (levels level)
  subset : ∀ level, levels (level + 1) ⊆ levels level
  ascending : ∀ level,
    (levels level).Pairwise fun left right => cmp (list.key left) (list.key right) = .lt
  head : 0 < list.count
  inside : ∀ node ∈ levels 0, 0 < node ∧ node < list.count
  height : 0 < list.maxHeight ∧ list.maxHeight ≤ kMaxHeight
  empty : ∀ level, list.maxHeight ≤ level → levels level = []

theorem new_shape (anyKey : κ) : (new anyKey).Shape cmp fun _ => [] where
  linked := fun _ => rfl
  subset := fun _ => List.Subset.refl _
  ascending := fun _ => .nil
  head := Nat.one_pos
  inside := by simp
  height := ⟨Nat.one_pos, (by decide : 1 ≤ kMaxHeight)⟩
  empty := fun _ _ => rfl

namespace Shape

variable {cmp list} {levels : Nat → List Nat} (shape : list.Shape cmp levels)
include shape

theorem subset_zero (level : Nat) : levels level ⊆ levels 0 := by
  induction level with
  | zero => exact List.Subset.refl _
  | succ level ih => exact fun _ member => ih (shape.subset level member)

theorem inside_at {node level : Nat} (member : node ∈ levels level) :
    0 < node ∧ node < list.count :=
  shape.inside node (shape.subset_zero level member)

theorem nodup [Std.ReflCmp cmp] (level : Nat) : (levels level).Nodup := by
  apply (shape.ascending level).imp
  rintro left _ less rfl
  rw [(Std.ReflCmp.compare_self : cmp (list.key left) (list.key left) = .eq)] at less
  cases less

theorem nodup_cons [Std.ReflCmp cmp] (level : Nat) : (0 :: levels level).Nodup :=
  List.nodup_cons.mpr ⟨fun member => Nat.lt_irrefl 0 (shape.inside_at member).1, shape.nodup level⟩

theorem length_le [Std.ReflCmp cmp] (level : Nat) : (levels level).length ≤ list.count := by
  have inRange : levels level ⊆ List.range list.count :=
    fun _ member => List.mem_range.mpr (shape.inside_at member).2
  have short := (List.subperm_of_subset (shape.nodup level) inRange).length_le
  rwa [List.length_range] at short

end Shape

/-! ## What a search finds -/

/-- What comes before the end of a search comes before it together with all smaller keys. -/
def Initial (cmp : κ → κ → Ordering) (before : κ → Bool) : Prop :=
  ∀ ⦃left right⦄, cmp left right = .lt → before right = true → before left = true

/-- The nodes of a level that are before the end of the search. -/
def beforeOf (before : κ → Bool) (nodes : List Nat) : List Nat :=
  nodes.filter fun node => before (list.key node)

def behindOf (before : κ → Bool) (nodes : List Nat) : List Nat :=
  nodes.filter fun node => !before (list.key node)

/-- The last node of a level before the end of the search, or the head. -/
def lastBefore (before : κ → Bool) (nodes : List Nat) : Nat :=
  lastOf 0 (list.beforeOf before nodes)

/-- The first node of a level that is not before the end of the search. -/
def firstBehind (before : κ → Bool) (nodes : List Nat) : Option Nat :=
  nodes.find? fun node => !before (list.key node)

theorem firstBehind_key (before : κ → Bool) (nodes : List Nat) :
    (list.firstBehind before nodes).map list.key =
      (nodes.map list.key).find? fun key => !before key := by
  rw [firstBehind, List.find?_map]
  rfl

/-- A search is on the head or on a node of its level before its end. -/
def Stands (levels : Nat → List Nat) (before : κ → Bool) (x level : Nat) : Prop :=
  x = 0 ∨ (x ∈ levels level ∧ before (list.key x) = true)

namespace Shape

variable {cmp list} {levels : Nat → List Nat} {before : κ → Bool} {x level : Nat}
  (shape : list.Shape cmp levels)

/-- What is in front of a search, and what is behind it. -/
structure Split (list : SkipList κ) (before : κ → Bool) (nodes : List Nat) (x : Nat)
    (passed rest : List Nat) : Prop where
  whole : nodes = passed ++ rest
  before : ∀ node ∈ passed, before (list.key node) = true
  last : x = lastOf 0 passed

include shape

theorem exists_split (initial : Initial cmp before) (stands : list.Stands levels before x level) :
    ∃ passed rest, Split list before (levels level) x passed rest := by
  rcases stands with rfl | ⟨member, isBefore⟩
  · exact ⟨[], levels level, rfl, by simp, rfl⟩
  · obtain ⟨front, rest, whole⟩ := List.append_of_mem member
    refine ⟨front ++ [x], rest, by simp [whole], ?_, by rw [lastOf_concat]⟩
    intro node inPassed
    rcases List.mem_append.mp inPassed with inFront | isX
    · have ascending := shape.ascending level
      rw [whole] at ascending
      exact initial ((List.pairwise_append.mp ascending).2.2 node inFront x List.mem_cons_self)
        isBefore
    · rwa [List.mem_singleton.mp isX]

theorem next_eq {passed rest : List Nat}
    (split : Split list before (levels level) x passed rest) :
    list.next x level = rest.head? := by
  have linked := shape.linked level
  rw [split.whole] at linked
  rw [split.last]
  exact @Linked.next_lastOf _ (list.next · level) 0 passed rest linked

theorem behind (initial : Initial cmp before) {passed rest : List Nat} {first : Nat}
    (split : Split list before (levels level) x passed (first :: rest))
    (isBehind : before (list.key first) = false) :
    ∀ node ∈ first :: rest, before (list.key node) = false := by
  have ascending := shape.ascending level
  rw [split.whole] at ascending
  intro node member
  rcases List.mem_cons.mp member with rfl | later
  · exact isBehind
  · have less := (List.pairwise_cons.mp (List.pairwise_append.mp ascending).2.1).1 node later
    by_contra isBefore
    rw [initial less (by simpa using isBefore)] at isBehind
    cases isBehind

end Shape

/-- The rest of a level is behind the end of the search. -/
theorem Shape.Split.ended {list : SkipList κ} {before : κ → Bool} {nodes passed rest : List Nat}
    {x : Nat} (split : Split list before nodes x passed rest)
    (behind : ∀ node ∈ rest, before (list.key node) = false) :
    x = list.lastBefore before nodes ∧ rest.head? = list.firstBehind before nodes := by
  have passedAll : passed.filter (fun node => before (list.key node)) = passed :=
    List.filter_eq_self.mpr split.before
  have restNone : rest.filter (fun node => before (list.key node)) = [] :=
    List.filter_eq_nil_iff.mpr fun node member => by rw [behind node member]; decide
  have passedNone : passed.find? (fun node => !before (list.key node)) = none :=
    List.find?_eq_none.mpr fun node member => by rw [split.before node member]; decide
  refine ⟨?_, ?_⟩
  · rw [lastBefore, beforeOf, split.whole, List.filter_append, passedAll, restNone, List.append_nil,
      split.last]
  · rw [firstBehind, split.whole, List.find?_append, passedNone, Option.none_or]
    cases rest with
    | nil => rfl
    | cons first rest =>
        rw [List.find?_cons, behind first List.mem_cons_self]
        rfl

namespace Shape.Split

variable {list} {before : κ → Bool} {nodes passed rest : List Nat} {x node : Nat}

theorem stands {levels : Nat → List Nat} {level : Nat}
    (split : Split list before (levels level) x passed rest) :
    list.Stands levels before x level := by
  rcases lastOf_mem 0 passed with isHead | isPassed
  · exact .inl (split.last.trans isHead)
  · rw [← split.last] at isPassed
    exact .inr ⟨split.whole ▸ List.mem_append_left rest isPassed, split.before x isPassed⟩

theorem pass (split : Split list before nodes x passed (node :: rest))
    (isBefore : before (list.key node) = true) :
    Split list before nodes node (passed ++ [node]) rest where
  whole := by rw [split.whole, List.append_assoc, List.singleton_append]
  before := by
    intro member isMember
    rcases List.mem_append.mp isMember with isPassed | isNode
    · exact split.before member isPassed
    · rwa [List.mem_singleton.mp isNode]
  last := (lastOf_concat 0 node passed).symm

end Shape.Split

namespace Shape

variable {cmp list} {levels : Nat → List Nat} {before : κ → Bool} {x level : Nat}
  {prev : Nat → Nat} (shape : list.Shape cmp levels) (initial : Initial cmp before)
include shape initial

/-- A turn passes the next node, or the level is done. -/
theorem turn_cases {passed rest : List Nat}
    (split : Split list before (levels level) x passed rest) :
    (∃ node later, rest = node :: later ∧ before (list.key node) = true ∧
        list.turn before ⟨x, level, prev⟩ = .inl ⟨node, level, prev⟩) ∨
      (x = list.lastBefore before (levels level) ∧
        list.turn before ⟨x, level, prev⟩ =
          Search.leave ⟨x, level, prev⟩ (list.firstBehind before (levels level))) := by
  have next := shape.next_eq split
  cases rest with
  | nil =>
      have ended := split.ended (by simp)
      refine .inr ⟨ended.1, ?_⟩
      rw [← ended.2, turn, next]
      rfl
  | cons node later =>
      by_cases isBefore : before (list.key node) = true
      · refine .inl ⟨node, later, rfl, isBefore, ?_⟩
        rw [turn, next, List.head?_cons, Option.filter_some, if_pos isBefore]
      · have ended := split.ended (shape.behind initial split (by simpa using isBefore))
        refine .inr ⟨ended.1, ?_⟩
        rw [← ended.2]
        simp only [turn, next, List.head?_cons, Option.filter_some, if_neg isBefore]

/-- The loop ends where the search should, at every level that it looked at. -/
theorem search_finds [Std.ReflCmp cmp] {fuel : Nat} {passed rest : List Nat}
    (split : Split list before (levels level) x passed rest)
    (enough : rest.length + level * (list.count + 1) < fuel) :
    ∃ found, list.search before fuel ⟨x, level, prev⟩ = some found ∧
      found.x = list.lastBefore before (levels 0) ∧
      found.next = list.firstBehind before (levels 0) ∧
      (∀ lower ≤ level, found.prev lower = list.lastBefore before (levels lower)) ∧
      ∀ upper, level < upper → found.prev upper = prev upper := by
  induction fuel generalizing x level prev passed rest with
  | zero => omega
  | succ fuel ih =>
      rcases @turn_cases _ _ _ _ _ _ _ prev shape initial _ _ split with
        ⟨node, later, rfl, isBefore, turned⟩ | ⟨ended, turned⟩
      · rw [search, turned]
        apply ih (split.pass isBefore)
        rw [List.length_cons] at enough
        omega
      · rw [search, turned, Search.leave]
        cases level with
        | zero =>
            refine ⟨_, rfl, ended, rfl, ?_, ?_⟩
            · intro lower low
              rw [Nat.le_zero.mp low]
              exact (Function.update_self 0 x prev).trans ended
            · intro upper above
              exact Function.update_of_ne above.ne' ..
        | succ level =>
            have stands : list.Stands levels before x level :=
              split.stands.imp_right fun found => ⟨shape.subset level found.1, found.2⟩
            obtain ⟨passed, rest, split⟩ := shape.exists_split initial stands
            have short : rest.length ≤ list.count :=
              le_trans (by rw [split.whole, List.length_append]; omega) (shape.length_le level)
            have room : rest.length + level * (list.count + 1) < fuel := by
              rw [Nat.add_mul, Nat.one_mul] at enough
              omega
            obtain ⟨found, searched, last, next, prevs, kept⟩ :=
              @ih x level (Function.update prev (level + 1) x) passed rest split room
            refine ⟨found, searched, last, next, ?_, ?_⟩
            · intro lower low
              rcases Nat.lt_or_eq_of_le low with less | same
              · exact prevs lower (Nat.lt_succ_iff.mp less)
              · rw [kept lower (by omega), same, Function.update_self]
                exact ended
            · intro upper above
              rw [kept upper (by omega)]
              exact Function.update_of_ne (by omega) ..

/-- The search from the top. -/
theorem find_finds [Std.ReflCmp cmp] :
    ∃ found, list.find before = some found ∧
      found.x = list.lastBefore before (levels 0) ∧
      found.next = list.firstBehind before (levels 0) ∧
      ∀ level < list.maxHeight, found.prev level = list.lastBefore before (levels level) := by
  obtain ⟨positive, low⟩ := shape.height
  have split : Split list before (levels (list.maxHeight - 1)) 0 [] (levels (list.maxHeight - 1)) :=
    ⟨rfl, by simp, rfl⟩
  have short := shape.length_le (list.maxHeight - 1)
  have enough :
      (levels (list.maxHeight - 1)).length + (list.maxHeight - 1) * (list.count + 1) <
        list.fuel := by
    have most : (list.maxHeight - 1 + 1) * (list.count + 1) ≤ list.fuel :=
      Nat.mul_le_mul_right _ (by omega)
    rw [Nat.add_mul, Nat.one_mul] at most
    omega
  obtain ⟨found, searched, last, next, prevs, -⟩ :=
    @search_finds _ _ _ _ _ _ _ (fun _ => 0) shape initial _ _ _ _ split enough
  exact ⟨found, searched, last, next, fun level inside => prevs level (by omega)⟩

end Shape

section Searches

variable {cmp list} {levels : Nat → List Nat} [Std.TransCmp cmp]

theorem keyIsAfterNode_initial (key : κ) : Initial cmp (keyIsAfterNode cmp key) := by
  intro left right less isBefore
  rw [keyIsAfterNode, Ordering.isLT_iff_eq_lt] at isBefore ⊢
  exact Std.TransCmp.lt_trans less isBefore

theorem Shape.findGreaterOrEqual (shape : list.Shape cmp levels) (key : κ) :
    list.findGreaterOrEqual cmp key =
      list.firstBehind (keyIsAfterNode cmp key) (levels 0) := by
  obtain ⟨found, searched, -, next, -⟩ := shape.find_finds (keyIsAfterNode_initial key)
  rw [SkipList.findGreaterOrEqual, searched, Option.bind_some, next]

theorem Shape.findLessThan (shape : list.Shape cmp levels) (key : κ) :
    list.findLessThan cmp key =
      unlessHead (list.lastBefore (keyIsAfterNode cmp key) (levels 0)) := by
  obtain ⟨found, searched, last, -⟩ := shape.find_finds (keyIsAfterNode_initial key)
  rw [SkipList.findLessThan, searched, Option.bind_some, last]

theorem Shape.findLast (shape : list.Shape cmp levels) :
    list.findLast = unlessHead (list.lastBefore (fun _ => true) (levels 0)) := by
  obtain ⟨found, searched, last, -⟩ :=
    @find_finds _ _ cmp _ (fun _ => true) shape (fun _ _ _ _ => rfl) _
  rw [SkipList.findLast, searched, Option.bind_some, last]

/-- Above the list the new node goes behind the head. -/
theorem Shape.prevs (shape : list.Shape cmp levels) (key : κ) (level : Nat) :
    list.prevs cmp key level = list.lastBefore (keyIsAfterNode cmp key) (levels level) := by
  obtain ⟨found, searched, -, -, prevs⟩ := shape.find_finds (keyIsAfterNode_initial key)
  rw [SkipList.prevs, searched]
  by_cases inside : level < list.maxHeight
  · exact (if_pos inside).trans (prevs level inside)
  · rw [shape.empty level (Nat.not_lt.mp inside)]
    exact if_neg inside

theorem Shape.contains_iff (shape : list.Shape cmp levels) {key : κ} :
    list.contains cmp key = true ↔ ∃ node ∈ levels 0, cmp key (list.key node) = .eq := by
  rw [SkipList.contains, shape.findGreaterOrEqual, firstBehind]
  cases first : (levels 0).find? fun node => !keyIsAfterNode cmp key (list.key node) with
  | none =>
      refine iff_of_false Bool.false_ne_true ?_
      rintro ⟨node, member, same⟩
      apply List.find?_eq_none.mp first node member
      rw [keyIsAfterNode, Std.OrientedCmp.eq_symm same]
      rfl
  | some found =>
      obtain ⟨notBefore, front, back, whole, inFront⟩ := List.find?_eq_some_iff_append.mp first
      rw [decide_eq_true_iff]
      refine ⟨fun same => ⟨found, List.mem_of_find?_eq_some first, same⟩, ?_⟩
      rintro ⟨node, member, same⟩
      have ascending := shape.ascending 0
      rw [whole] at ascending member
      have equal := Std.OrientedCmp.eq_symm same
      rcases List.mem_append.mp member with isFront | isBehind
      · have isBefore := inFront node isFront
        rw [keyIsAfterNode, equal] at isBefore
        exact absurd isBefore Bool.false_ne_true
      · rcases List.mem_cons.mp isBehind with rfl | isBehind
        · exact same
        · have less :=
            (List.pairwise_cons.mp (List.pairwise_append.mp ascending).2.1).1 node isBehind
          rw [keyIsAfterNode, Std.TransCmp.lt_of_lt_of_eq less equal] at notBefore
          exact absurd notBefore Bool.false_ne_true

end Searches

/-! ## What an insertion does -/

@[simp] theorem setNext_same (node level : Nat) (target : Option Nat) :
    (list.setNext node level target).next node level = target := by
  simp only [setNext, Function.update_self]

theorem setNext_of_ne {node level other otherLevel : Nat} (target : Option Nat)
    (differs : other ≠ node ∨ otherLevel ≠ level) :
    (list.setNext node level target).next other otherLevel = list.next other otherLevel := by
  by_cases same : other = node
  · subst same
    simp only [setNext, Function.update_self]
    exact Function.update_of_ne (differs.resolve_left fun isSame => isSame rfl) ..
  · exact congrFun (Function.update_of_ne same ..) otherLevel

/-- A level with another node at its place. -/
def placed (before : κ → Bool) (x : Nat) (nodes : List Nat) : List Nat :=
  list.beforeOf before nodes ++ x :: list.behindOf before nodes

theorem mem_placed {before : κ → Bool} {x node : Nat} {nodes : List Nat} :
    node ∈ list.placed before x nodes ↔ node = x ∨ node ∈ nodes := by
  simp only [placed, beforeOf, behindOf, List.mem_append, List.mem_cons, List.mem_filter]
  cases isBefore : before (list.key node) <;> simp
  exact or_comm

theorem mem_update_placed {before : κ → Bool} {levels : Nat → List Nat}
    {x node level lvl : Nat} :
    node ∈ Function.update levels level (list.placed before x (levels level)) lvl ↔
      (lvl = level ∧ node = x) ∨ node ∈ levels lvl := by
  by_cases same : lvl = level
  · subst same
    rw [Function.update_self, mem_placed]
    simp
  · rw [Function.update_of_ne same]
    simp [same]

section Inserting

variable {cmp list} {levels : Nat → List Nat} {x height level : Nat} {prev : Nat → Nat}

theorem beforeOf_append_behindOf {before : κ → Bool} (initial : Initial cmp before)
    {nodes : List Nat}
    (ascending : nodes.Pairwise fun left right => cmp (list.key left) (list.key right) = .lt) :
    list.beforeOf before nodes ++ list.behindOf before nodes = nodes := by
  induction nodes with
  | nil => rfl
  | cons node nodes ih =>
      obtain ⟨first, rest⟩ := List.pairwise_cons.mp ascending
      by_cases isBefore : before (list.key node) = true
      · simpa [beforeOf, behindOf, isBefore] using ih rest
      · have behind : ∀ later ∈ node :: nodes, before (list.key later) = false := by
          intro later member
          rcases List.mem_cons.mp member with rfl | member
          · simpa using isBefore
          · by_contra laterBefore
            exact isBefore (initial (first later member) (by simpa using laterBefore))
        have noneBefore : list.beforeOf before (node :: nodes) = [] :=
          List.filter_eq_nil_iff.mpr fun later member => by rw [behind later member]; decide
        have allBehind : list.behindOf before (node :: nodes) = node :: nodes :=
          List.filter_eq_self.mpr fun later member => by rw [behind later member]; rfl
        rw [noneBefore, allBehind, List.nil_append]

theorem keyIsAfterNode_of_behind [Std.OrientedCmp cmp] {key nodeKey : κ}
    (differs : cmp nodeKey key ≠ .eq) (behind : keyIsAfterNode cmp key nodeKey = false) :
    cmp key nodeKey = .lt := by
  rw [keyIsAfterNode] at behind
  cases order : cmp nodeKey key with
  | lt => simp [order] at behind
  | eq => exact absurd order differs
  | gt => exact Std.OrientedCmp.gt_iff_lt.mp order

theorem placed_ascending [Std.TransCmp cmp] {nodes : List Nat}
    (ascending : nodes.Pairwise fun left right => cmp (list.key left) (list.key right) = .lt)
    (fresh : ∀ node ∈ nodes, cmp (list.key node) (list.key x) ≠ .eq) :
    (list.placed (keyIsAfterNode cmp (list.key x)) x nodes).Pairwise
      fun left right => cmp (list.key left) (list.key right) = .lt := by
  have inFront : ∀ node ∈ list.beforeOf (keyIsAfterNode cmp (list.key x)) nodes,
      cmp (list.key node) (list.key x) = .lt :=
    fun node member => Ordering.isLT_iff_eq_lt.mp (List.mem_filter.mp member).2
  have behind : ∀ node ∈ list.behindOf (keyIsAfterNode cmp (list.key x)) nodes,
      cmp (list.key x) (list.key node) = .lt := by
    intro node member
    obtain ⟨member, isBehind⟩ := List.mem_filter.mp member
    exact keyIsAfterNode_of_behind (fresh node member) (by simpa using isBehind)
  refine List.pairwise_append.mpr ⟨ascending.filter _, ?_, ?_⟩
  · exact List.pairwise_cons.mpr ⟨behind, ascending.filter _⟩
  · intro left isLeft right isRight
    rcases List.mem_cons.mp isRight with rfl | isRight
    · exact inFront left isLeft
    · exact Std.TransCmp.lt_trans (inFront left isLeft) (behind right isRight)

/-- The new node is linked in the levels below `level`. -/
structure Linking (cmp : κ → κ → Ordering) (list : SkipList κ) (levels : Nat → List Nat)
    (x height : Nat) (prev : Nat → Nat) (level : Nat) : Prop where
  shape : list.Shape cmp levels
  allocated : 0 < x ∧ x < list.count
  low : height ≤ list.maxHeight
  present : ∀ lower < level, x ∈ levels lower
  absent : ∀ upper, level ≤ upper → x ∉ levels upper
  fresh : ∀ node ∈ levels 0, node ≠ x → cmp (list.key node) (list.key x) ≠ .eq
  prevs : ∀ upper, level ≤ upper →
    prev upper = list.lastBefore (keyIsAfterNode cmp (list.key x)) (levels upper)

namespace Linking

variable (linking : Linking cmp list levels x height prev level)
include linking

theorem prev_cases : prev level = 0 ∨ prev level ∈ levels level := by
  rw [linking.prevs level (Nat.le_refl level)]
  exact (lastOf_mem 0 _).imp_right fun member => (List.mem_filter.mp member).1

theorem prev_ne : prev level ≠ x := by
  rcases linking.prev_cases with isHead | member
  · rw [isHead]
    exact linking.allocated.1.ne
  · rintro same
    exact linking.absent level (Nat.le_refl level) (same ▸ member)

/-- A node that is not yet linked at a level may be given any link there. -/
theorem copyNext :
    Linking cmp (list.copyNext x prev level) levels x height prev level ∧
      (list.copyNext x prev level).next x level =
        (list.copyNext x prev level).next (prev level) level := by
  have kept : ∀ node lvl, (node = 0 ∨ node ∈ levels lvl) →
      (list.copyNext x prev level).next node lvl = list.next node lvl := by
    intro node lvl stands
    apply setNext_of_ne
    by_cases sameLevel : lvl = level
    · subst sameLevel
      left
      rintro rfl
      rcases stands with isHead | member
      · exact linking.allocated.1.ne' isHead
      · exact linking.absent lvl (Nat.le_refl lvl) member
    · exact .inr sameLevel
  refine ⟨{ linking with shape := { linking.shape with linked := ?_ } }, ?_⟩
  · intro lvl
    rw [kept 0 lvl (.inl rfl)]
    exact (linking.shape.linked lvl).congr fun node member => kept node lvl (.inr member)
  · rw [kept (prev level) level linking.prev_cases, SkipList.copyNext, setNext_same]

/-- The level that now leads to the new node. -/
theorem linked_publish [Std.TransCmp cmp]
    (copied : list.next x level = list.next (prev level) level) :
    Linked ((list.publish x prev level).next · level) ((list.publish x prev level).next 0 level)
      (list.placed (keyIsAfterNode cmp (list.key x)) x (levels level)) := by
  have whole : list.beforeOf (keyIsAfterNode cmp (list.key x)) (levels level) ++
      list.behindOf (keyIsAfterNode cmp (list.key x)) (levels level) = levels level :=
    beforeOf_append_behindOf (keyIsAfterNode_initial _) (linking.shape.ascending level)
  have last := linking.prevs level (Nat.le_refl level)
  rw [lastBefore] at last
  have linked := linking.shape.linked level
  have distinct := linking.shape.nodup_cons level
  rw [← whole] at linked distinct
  apply @Linked.insert _ (list.next · level) ((list.publish x prev level).next · level) 0 x _ _
    linked distinct
  · intro member _ isOther
    rw [← last] at isOther
    exact list.setNext_of_ne (some x) (.inl isOther)
  · rw [← last]
    exact list.setNext_same (prev level) level (some x)
  · rw [← last, ← copied]
    exact list.setNext_of_ne (some x) (.inl linking.prev_ne.symm)

/-- The level has the new node, and the other levels are as before. -/
theorem publish [Std.TransCmp cmp] (inside : level < height)
    (copied : list.next x level = list.next (prev level) level) :
    Linking cmp (list.publish x prev level)
      (Function.update levels level
        (list.placed (keyIsAfterNode cmp (list.key x)) x (levels level)))
      x height prev (level + 1) := by
  have other : ∀ {lvl}, lvl ≠ level →
      Function.update levels level
        (list.placed (keyIsAfterNode cmp (list.key x)) x (levels level)) lvl = levels lvl :=
    fun differs => Function.update_of_ne differs ..
  refine ⟨⟨?_, ?_, ?_, linking.shape.head, ?_, linking.shape.height, ?_⟩, linking.allocated,
    linking.low, ?_, ?_, ?_, ?_⟩
  · intro lvl
    by_cases same : lvl = level
    · subst same
      rw [Function.update_self]
      exact linking.linked_publish copied
    · have kept : ∀ node, (list.publish x prev level).next node lvl = list.next node lvl :=
        fun node => list.setNext_of_ne (some x) (.inr same)
      rw [other same, kept 0]
      exact (linking.shape.linked lvl).congr fun node _ => kept node
  · intro lvl node isMember
    rcases (mem_update_placed list).mp isMember with ⟨isLevel, rfl⟩ | isMember
    · exact (mem_update_placed list).mpr (.inr (linking.present lvl (by omega)))
    · exact (mem_update_placed list).mpr (.inr (linking.shape.subset lvl isMember))
  · intro lvl
    by_cases same : lvl = level
    · subst same
      rw [Function.update_self]
      apply placed_ascending (linking.shape.ascending lvl)
      intro node isMember
      apply linking.fresh node (linking.shape.subset_zero lvl isMember)
      rintro rfl
      exact linking.absent lvl (Nat.le_refl lvl) isMember
    · rw [other same]
      exact linking.shape.ascending lvl
  · intro node isMember
    rcases (mem_update_placed list).mp isMember with ⟨-, rfl⟩ | isMember
    · exact linking.allocated
    · exact linking.shape.inside node isMember
  · intro lvl above
    rw [other (by have low := linking.low; have : list.maxHeight ≤ lvl := above; omega)]
    exact linking.shape.empty lvl above
  · intro lower low
    rcases Nat.lt_succ_iff_lt_or_eq.mp low with below | same
    · exact (mem_update_placed list).mpr (.inr (linking.present lower below))
    · exact (mem_update_placed list).mpr (.inl ⟨same, rfl⟩)
  · intro upper above isMember
    rw [other (by omega)] at isMember
    exact linking.absent upper (by omega) isMember
  · intro node isMember isOther
    rcases (mem_update_placed list).mp isMember with ⟨-, isX⟩ | isMember
    · exact absurd isX isOther
    · exact linking.fresh node isMember isOther
  · intro upper above
    rw [other (by omega)]
    exact linking.prevs upper (by omega)

end Linking

theorem Shape.raise (shape : list.Shape cmp levels) (low : height ≤ kMaxHeight) :
    (list.raise height).Shape cmp levels :=
  { shape with
    height := ⟨lt_of_lt_of_le shape.height.1 (Nat.le_max_left ..),
      Nat.max_le.mpr ⟨shape.height.2, low⟩⟩
    empty := fun level above => shape.empty level ((Nat.le_max_left ..).trans above) }

theorem Shape.newNode_key {key : κ} (shape : list.Shape cmp levels) {node : Nat}
    (member : node ∈ levels level) : (list.newNode key).key node = list.key node :=
  Function.update_of_ne (shape.inside_at member).2.ne ..

/-- The new node, which no level has. -/
theorem Shape.newNode {key : κ} (shape : list.Shape cmp levels) (low : height ≤ list.maxHeight)
    (fresh : ∀ node ∈ levels 0, cmp (list.key node) key ≠ .eq)
    (prevs : ∀ level, prev level = list.lastBefore (keyIsAfterNode cmp key) (levels level)) :
    Linking cmp (list.newNode key) levels list.count height prev 0 := by
  have newKey : (list.newNode key).key list.count = key := Function.update_self ..
  have absent : ∀ level, list.count ∉ levels level :=
    fun level member => Nat.lt_irrefl _ (shape.inside_at member).2
  refine ⟨⟨shape.linked, shape.subset, ?_, Nat.succ_pos _, ?_, shape.height, shape.empty⟩,
    ⟨shape.head, Nat.lt_succ_self _⟩, low, ?_, fun level _ => absent level, ?_, ?_⟩
  · intro level
    apply (shape.ascending level).imp_of_mem
    intro left right isLeft isRight less
    rwa [shape.newNode_key isLeft, shape.newNode_key isRight]
  · intro node member
    exact ⟨(shape.inside node member).1, Nat.lt_succ_of_lt (shape.inside node member).2⟩
  · exact fun level below => absurd below (Nat.not_lt_zero level)
  · intro node member _
    rw [newKey, shape.newNode_key member]
    exact fresh node member
  · intro level _
    rw [prevs level, newKey, lastBefore, lastBefore, beforeOf, beforeOf]
    apply congrArg
    apply List.filter_congr
    intro node member
    rw [shape.newNode_key member]

/-- Every turn of the loop links the node in one more level. -/
theorem Linking.link [Std.TransCmp cmp] (linking : Linking cmp list levels x height prev 0)
    {count : Nat} (inside : count ≤ height) :
    ∃ linked, Linking cmp (list.link x prev count) linked x height prev count ∧
      (linked 0 = if count = 0 then levels 0
        else list.placed (keyIsAfterNode cmp (list.key x)) x (levels 0)) ∧
      (list.link x prev count).key = list.key := by
  induction count with
  | zero => exact ⟨levels, linking, rfl, rfl⟩
  | succ count ih =>
      obtain ⟨linked, before, bottom, sameKey⟩ := ih (Nat.le_of_succ_le inside)
      obtain ⟨copied, sameLink⟩ := before.copyNext
      have turned : list.link x prev (count + 1) =
          ((list.link x prev count).copyNext x prev count).publish x prev count := by
        rw [SkipList.link, List.range_succ, List.foldl_concat]
        rfl
      rw [turned]
      refine ⟨_, copied.publish inside sameLink, ?_, sameKey⟩
      rw [if_neg (Nat.succ_ne_zero count)]
      cases count with
      | zero => rw [Function.update_self, bottom, if_pos rfl]; rfl
      | succ count =>
          rw [Function.update_of_ne (Nat.succ_ne_zero count).symm, bottom,
            if_neg (Nat.succ_ne_zero count)]

/-- Where a key belongs among keys in ascending order. -/
def insertKey (cmp : κ → κ → Ordering) (key : κ) (keys : List κ) : List κ :=
  keys.filter (keyIsAfterNode cmp key) ++
    key :: keys.filter fun other => !keyIsAfterNode cmp key other

theorem insertKey_perm (cmp : κ → κ → Ordering) (key : κ) (keys : List κ) :
    (insertKey cmp key keys).Perm (key :: keys) :=
  List.perm_middle.trans ((List.filter_append_perm (keyIsAfterNode cmp key) keys).cons key)

theorem insertKey_map {α : Type} {read : α → κ} {cmpRead : α → α → Ordering} {key : α}
    {keys : List α} (agrees : ∀ other ∈ keys, cmp (read other) (read key) = cmpRead other key) :
    insertKey cmp (read key) (keys.map read) = (insertKey cmpRead key keys).map read := by
  have same : ∀ other ∈ keys,
      keyIsAfterNode cmp (read key) (read other) = keyIsAfterNode cmpRead key other :=
    fun other member => congrArg Ordering.isLT (agrees other member)
  have front : keys.filter (keyIsAfterNode cmp (read key) ∘ read) =
      keys.filter (keyIsAfterNode cmpRead key) :=
    List.filter_congr same
  have back : keys.filter ((fun other => !keyIsAfterNode cmp (read key) other) ∘ read) =
      keys.filter fun other => !keyIsAfterNode cmpRead key other :=
    List.filter_congr fun other member => congrArg (!·) (same other member)
  rw [insertKey, insertKey, List.map_append, List.map_cons, List.filter_map, List.filter_map, front,
    back]

theorem placed_keys {nodes : List Nat} :
    (list.placed (keyIsAfterNode cmp (list.key x)) x nodes).map list.key =
      insertKey cmp (list.key x) (nodes.map list.key) := by
  rw [placed, beforeOf, behindOf, insertKey, List.map_append, List.map_cons, List.filter_map,
    List.filter_map]
  rfl

/-- The insertion puts the key at its place. -/
theorem Shape.insert [Std.TransCmp cmp] {key : κ} (shape : list.Shape cmp levels)
    (positive : 0 < height) (low : height ≤ kMaxHeight)
    (fresh : ∀ node ∈ levels 0, cmp (list.key node) key ≠ .eq) :
    ∃ linked, (list.insert cmp key height).Shape cmp linked ∧
      (linked 0).map (list.insert cmp key height).key =
        insertKey cmp key ((levels 0).map list.key) := by
  have raised := shape.raise low
  have begun : Linking cmp ((list.raise height).newNode key) levels list.count height
      (list.prevs cmp key) 0 :=
    raised.newNode (Nat.le_max_right ..) fresh (shape.prevs key)
  obtain ⟨linked, linking, bottom, sameKey⟩ := begun.link (Nat.le_refl height)
  refine ⟨linked, linking.shape, ?_⟩
  rw [if_neg positive.ne'] at bottom
  have newKey : ((list.raise height).newNode key).key list.count = key := Function.update_self ..
  have older : (levels 0).map ((list.raise height).newNode key).key = (levels 0).map list.key :=
    List.map_congr_left fun node member => raised.newNode_key member
  rw [SkipList.insert, sameKey, bottom]
  exact placed_keys.trans (by rw [newKey, older])

end Inserting

/-! ## Iterating -/

section Iterating

variable {cmp list} {levels : Nat → List Nat}

/-- Where an iterator is. -/
def At (nodes : List Nat) (node index : Option Nat) : Prop :=
  node = index.bind (nodes[·]?) ∧ ∀ place ∈ index, place < nodes.length

theorem at_place {nodes : List Nat} {keys : List κ} (sameLength : keys.length = nodes.length)
    (index : Nat) : At nodes nodes[index]? (Cursor.place keys index) := by
  by_cases inside : index < nodes.length
  · rw [Cursor.place_of_lt (sameLength ▸ inside)]
    exact ⟨rfl, fun place isPlace => Option.mem_some_iff.mp isPlace ▸ inside⟩
  · have outside := Nat.not_lt.mp inside
    rw [Cursor.place_of_ge (sameLength ▸ outside), List.getElem?_eq_none outside]
    exact ⟨rfl, fun _ isPlace => absurd isPlace (Option.not_mem_none _)⟩

theorem lastOf_take {nodes : List Nat} {index : Nat} (inside : index < nodes.length) :
    lastOf 0 (nodes.take (index + 1)) = nodes[index] := by
  rw [List.take_succ_eq_append_getElem inside, lastOf_concat]

theorem at_before {nodes : List Nat} (positive : ∀ node ∈ nodes, 0 < node) {index : Nat}
    (inside : index ≤ nodes.length) :
    At nodes (unlessHead (lastOf 0 (nodes.take index))) (Cursor.before index) := by
  cases index with
  | zero => exact ⟨rfl, fun _ isPlace => absurd isPlace (Option.not_mem_none _)⟩
  | succ index =>
      have notHead : nodes[index] ≠ 0 := (positive _ (List.getElem_mem inside)).ne'
      refine ⟨?_, fun place isPlace => Option.mem_some_iff.mp isPlace ▸ inside⟩
      rw [lastOf_take inside, unlessHead, if_neg notHead]
      exact (List.getElem?_eq_getElem inside).symm

theorem firstBehind_eq (before : κ → Bool) (nodes : List Nat) :
    list.firstBehind before nodes =
      nodes[(nodes.map list.key).findIdx fun key => !before key]? := by
  rw [firstBehind, List.find?_eq_getElem?_findIdx, List.findIdx_map]
  rfl

namespace Shape

variable (shape : list.Shape cmp levels)
include shape

theorem next_getElem {index : Nat} (inside : index < (levels 0).length) :
    list.next (levels 0)[index] 0 = (levels 0)[index + 1]? := by
  have linked := shape.linked 0
  rw [← List.take_append_drop (index + 1) (levels 0)] at linked
  have next := linked.next_lastOf
  rwa [lastOf_take inside, List.head?_drop] at next

theorem beforeOf_getElem [Std.TransCmp cmp] {index : Nat} (inside : index < (levels 0).length) :
    list.beforeOf (keyIsAfterNode cmp (list.key (levels 0)[index])) (levels 0) =
      (levels 0).take index := by
  have ordered := List.pairwise_iff_getElem.mp (shape.ascending 0)
  have front : list.beforeOf (keyIsAfterNode cmp (list.key (levels 0)[index]))
      ((levels 0).take index) = (levels 0).take index := by
    apply List.filter_eq_self.mpr
    intro node member
    obtain ⟨earlier, less, rfl⟩ := List.mem_take_iff_getElem.mp member
    exact Ordering.isLT_iff_eq_lt.mpr (ordered earlier index _ inside (by omega))
  have back : list.beforeOf (keyIsAfterNode cmp (list.key (levels 0)[index]))
      ((levels 0).drop index) = [] := by
    apply List.filter_eq_nil_iff.mpr
    intro node member isBefore
    obtain ⟨later, less, rfl⟩ := List.mem_drop_iff_getElem.mp member
    have before := Ordering.isLT_iff_eq_lt.mp isBefore
    rcases Nat.eq_zero_or_pos later with rfl | positive
    · have same : cmp (list.key (levels 0)[index]) (list.key (levels 0)[index]) = .eq :=
        Std.ReflCmp.compare_self
      exact Ordering.noConfusion (same.symm.trans before)
    · exact Std.OrientedCmp.not_lt_of_lt before (ordered index (index + later) inside _ (by omega))
  have whole : list.beforeOf (keyIsAfterNode cmp (list.key (levels 0)[index]))
      ((levels 0).take index ++ (levels 0).drop index) = (levels 0).take index ++ [] := by
    rw [beforeOf, List.filter_append, ← beforeOf, ← beforeOf, front, back]
  rwa [List.take_append_drop, List.append_nil] at whole

/-- An iterator on a list that does not change walks over its keys. -/
theorem walks [Std.TransCmp cmp] :
    Cursor.Walks (list.cursor cmp) ((levels 0).map list.key) (keyIsAfterNode cmp)
      (At (levels 0)) where
  current := by
    rintro node index ⟨rfl, -⟩
    cases index with
    | none => rfl
    | some index => exact (List.getElem?_map ..).symm
  seekToFirst := by
    intro node index _
    have first := (shape.linked 0).link_eq
    rw [List.head?_eq_getElem?] at first
    change At (levels 0) (list.next 0 0) _
    rw [first]
    exact at_place (List.length_map _) 0
  seekToLast := by
    intro node index _
    have all : list.beforeOf (fun _ => true) (levels 0) = (levels 0).take (levels 0).length :=
      (List.filter_true _).trans List.take_length.symm
    change At (levels 0) list.findLast (Cursor.before ((levels 0).map list.key).length)
    rw [shape.findLast, lastBefore, all, List.length_map]
    exact at_before (fun node member => (shape.inside node member).1) (Nat.le_refl _)
  seek := by
    intro node index sought _
    change At (levels 0) (list.findGreaterOrEqual cmp sought) _
    rw [shape.findGreaterOrEqual, firstBehind_eq]
    exact at_place (List.length_map _) _
  next := by
    rintro node index ⟨rfl, inside⟩ _
    cases index with
    | none => exact ⟨rfl, inside⟩
    | some index =>
        have isNode := List.getElem?_eq_getElem (inside index rfl)
        change At (levels 0) ((levels 0)[index]?.bind fun x => list.next x 0) _
        rw [isNode, Option.bind_some, shape.next_getElem]
        exact at_place (List.length_map _) (index + 1)
  prev := by
    rintro node index ⟨rfl, inside⟩ _
    cases index with
    | none => exact ⟨rfl, inside⟩
    | some index =>
        have within := inside index rfl
        change At (levels 0)
          ((levels 0)[index]?.bind fun x => list.findLessThan cmp (list.key x)) _
        rw [List.getElem?_eq_getElem within, Option.bind_some, shape.findLessThan, lastBefore,
          shape.beforeOf_getElem within]
        exact at_before (fun node member => (shape.inside node member).1) within.le

end Shape

end Iterating

end SkipList

end AhaTree
