import AhaTree.Lib.Simulation
import AhaTree.SkipList

/-!
# Readers of a skip list that is being written

`Insert` is called by one thread at a time, while other threads iterate without
any lock.  The writer's stores and the readers' loads are single steps, in any
order.  A reader may load an old value of `max_height_`.
-/

namespace AhaTree

open Lib (Cursor Linked lastOf)

/-! ## The steps of the threads -/

/-- How far an insertion is. -/
inductive Insertion (κ : Type) where
  | idle
  | found (key : κ) (height : Nat) (prev : Nat → Nat)
  | raised (key : κ) (height : Nat) (prev : Nat → Nat)
  | linking (x height : Nat) (prev : Nat → Nat) (level : Nat)
  | copied (x height : Nat) (prev : Nat → Nat) (level : Nat)

/-- An iterator, between two moves or inside of one. -/
inductive Reader (κ : Type) where
  | standing (node : Option Nat)
  | searching (node : Option Nat) (move : Cursor.Move κ) (search : SkipList.Search)

structure SharedList (κ : Type) where
  list : SkipList κ
  writer : Insertion κ
  readers : Nat → Reader κ

namespace SharedList

variable {κ : Type}

inductive Act (κ : Type) where
  | insert (key : κ) (height : Nat)
  | store
  | call (reader : Nat) (move : Cursor.Move κ) (maxHeight : Nat)
  | load (reader : Nat)

/-- What the threads and their callers see: a key that is now in the list, and
what an iterator shows after a move. -/
inductive Event (κ : Type) where
  | inserted (key : κ)
  | moved (reader : Nat) (move : Cursor.Move κ) (shown : Option κ)

def new (anyKey : κ) : SharedList κ where
  list := SkipList.new anyKey
  writer := .idle
  readers _ := .standing none

variable (cmp : κ → κ → Ordering) (shared : SharedList κ)

/-- The search of the writer, which nobody disturbs. -/
def insert (key : κ) (height : Nat) : Option (SharedList κ) :=
  match shared.writer with
  | .idle =>
      if 0 < height ∧ height ≤ kMaxHeight ∧ shared.list.contains cmp key = false then
        some { shared with writer := .found key height (shared.list.prevs cmp key) }
      else none
  | _ => none

/-- The next store of the writer. -/
def store : Option (SharedList κ × Option (Event κ)) :=
  let list := shared.list
  match shared.writer with
  | .idle => none
  | .found key height prev =>
      some ({ shared with list := list.raise height, writer := .raised key height prev }, none)
  | .raised key height prev =>
      some ({ shared with
        list := list.newNode key
        writer := .linking list.count height prev 0 }, none)
  | .linking x height prev level =>
      some ({ shared with
        list := list.copyNext x prev level
        writer := .copied x height prev level }, none)
  | .copied x height prev level =>
      some ({ shared with
        list := list.publish x prev level
        writer := if level + 1 < height then .linking x height prev (level + 1) else .idle },
        if level = 0 then some (.inserted (list.key x)) else none)

def become (reader : Nat) (now : Reader κ) : SharedList κ :=
  { shared with readers := Function.update shared.readers reader now }

def answered (reader : Nat) (move : Cursor.Move κ) (node : Option Nat) :
    SharedList κ × Option (Event κ) :=
  (shared.become reader (.standing node), some (.moved reader move (node.map shared.list.key)))

/-- What a search passes. -/
def sought (node : Option Nat) : Cursor.Move κ → κ → Bool
  | .seek target => SkipList.keyIsAfterNode cmp target
  | .prev => fun key => node.any fun x => SkipList.keyIsAfterNode cmp (shared.list.key x) key
  | _ => fun _ => true

def result (found : SkipList.Found) : Cursor.Move κ → Option Nat
  | .seek _ => found.next
  | _ => SkipList.unlessHead found.x

/-- Only a search loads `max_height_`; the other moves need a single load. -/
def call (reader : Nat) (move : Cursor.Move κ) (maxHeight : Nat) :
    Option (SharedList κ × Option (Event κ)) :=
  match shared.readers reader with
  | .searching .. => none
  | .standing node =>
      match move, node with
      | .seekToFirst, _ => some (shared.answered reader move (shared.list.next 0 0))
      | .next, some x => some (shared.answered reader move (shared.list.next x 0))
      | .next, none | .prev, none => none
      | _, node =>
          if 0 < maxHeight ∧ maxHeight ≤ shared.list.maxHeight then
            some (shared.become reader (.searching node move (.start maxHeight)), none)
          else none

def load (reader : Nat) : Option (SharedList κ × Option (Event κ)) :=
  match shared.readers reader with
  | .standing _ => none
  | .searching node move search =>
      match shared.list.turn (shared.sought cmp node move) search with
      | .inl search => some (shared.become reader (.searching node move search), none)
      | .inr found => some (shared.answered reader move (result found move))

def step : Act κ → Option (SharedList κ × Option (Event κ))
  | .insert key height => (shared.insert cmp key height).map (·, none)
  | .store => shared.store
  | .call reader move maxHeight => shared.call reader move maxHeight
  | .load reader => shared.load cmp reader

/-! ## An ordered set with iterators -/

end SharedList

/-- The keys in ascending order, and what the iterators stand on. -/
structure OrderedSet (κ : Type) where
  keys : List κ
  standing : Nat → Option κ

namespace OrderedSet

open SkipList (keyIsAfterNode insertKey)

variable {κ : Type} (cmp : κ → κ → Ordering)

def empty : OrderedSet κ := ⟨[], fun _ => none⟩

/-- Where a move leads; from no key there is neither a next nor a previous one. -/
def answer (set : OrderedSet κ) (reader : Nat) : Cursor.Move κ → Option (Option κ)
  | .seekToFirst => some set.keys.head?
  | .seekToLast => some set.keys.getLast?
  | .seek target => some (set.keys.find? fun key => !keyIsAfterNode cmp target key)
  | .next => (set.standing reader).map fun key =>
      set.keys.find? fun other => (cmp key other).isLT
  | .prev => (set.standing reader).map fun key =>
      (set.keys.filter (keyIsAfterNode cmp key)).getLast?

/-- Every insertion and every move happens at one moment. -/
inductive Takes : OrderedSet κ → SharedList.Event κ → OrderedSet κ → Prop
  | inserted {set : OrderedSet κ} {key : κ} :
      (∀ other ∈ set.keys, cmp other key ≠ .eq) →
        Takes set (.inserted key) { set with keys := insertKey cmp key set.keys }
  | moved {set : OrderedSet κ} {reader : Nat} {move : Cursor.Move κ} {shown : Option κ} :
      set.answer cmp reader move = some shown →
        Takes set (.moved reader move shown)
          { set with standing := Function.update set.standing reader shown }

end OrderedSet

namespace SharedList

open SkipList (Shape Linking Initial keyIsAfterNode keyIsAfterNode_initial insertKey unlessHead)

variable {κ : Type} {cmp : κ → κ → Ordering} {shared after : SharedList κ}
  {levels : Nat → List Nat}

/-! ## What the steps keep -/

def InsertionHolds (cmp : κ → κ → Ordering) (list : SkipList κ) (levels : Nat → List Nat) :
    Insertion κ → Prop
  | .idle => True
  | .found key height prev =>
      (0 < height ∧ height ≤ kMaxHeight) ∧
      (∀ node ∈ levels 0, cmp (list.key node) key ≠ .eq) ∧
      ∀ level, prev level = list.lastBefore (keyIsAfterNode cmp key) (levels level)
  | .raised key height prev =>
      (0 < height ∧ height ≤ list.maxHeight) ∧
      (∀ node ∈ levels 0, cmp (list.key node) key ≠ .eq) ∧
      ∀ level, prev level = list.lastBefore (keyIsAfterNode cmp key) (levels level)
  | .linking x height prev level =>
      Linking cmp list levels x height prev level ∧ level < height
  | .copied x height prev level =>
      Linking cmp list levels x height prev level ∧ level < height ∧
        list.next x level = list.next (prev level) level

/-- The node of an iterator stays in the list, and a search is never beyond its end. -/
def ReaderHolds (cmp : κ → κ → Ordering) (shared : SharedList κ) (levels : Nat → List Nat) :
    Reader κ → Prop
  | .standing node => ∀ x ∈ node, x ∈ levels 0
  | .searching node move search =>
      (∀ x ∈ node, x ∈ levels 0) ∧ (move = .prev → node.isSome) ∧
        (move ≠ .seekToFirst ∧ move ≠ .next) ∧
        shared.list.Stands levels (shared.sought cmp node move) search.x search.level

structure Holds (cmp : κ → κ → Ordering) (shared : SharedList κ) (levels : Nat → List Nat) :
    Prop where
  shape : shared.list.Shape cmp levels
  writer : InsertionHolds cmp shared.list levels shared.writer
  readers : ∀ reader, ReaderHolds cmp shared levels (shared.readers reader)

/-- The node that an iterator stands on, or stood on before the move that it is in. -/
def nodeOf : Reader κ → Option Nat
  | .standing node => node
  | .searching node _ _ => node

/-- What the list is for its callers. -/
structure Shows (cmp : κ → κ → Ordering) (shared : SharedList κ) (set : OrderedSet κ) : Prop where
  holds : ∃ levels, Holds cmp shared levels ∧ set.keys = (levels 0).map shared.list.key
  standing : ∀ reader, set.standing reader = (nodeOf (shared.readers reader)).map shared.list.key

theorem Holds.nodeOf_mem (holds : Holds cmp shared levels) {reader x : Nat}
    (isNode : x ∈ nodeOf (shared.readers reader)) : x ∈ levels 0 := by
  have readerHolds := holds.readers reader
  cases standing : shared.readers reader with
  | standing node =>
      rw [standing] at readerHolds isNode
      exact readerHolds x isNode
  | searching node move search =>
      rw [standing] at readerHolds isNode
      exact readerHolds.1 x isNode

theorem new_shows (anyKey : κ) : Shows cmp (new anyKey) OrderedSet.empty where
  holds := by
    refine ⟨fun _ => [], ⟨SkipList.new_shape cmp anyKey, trivial, fun _ => ?_⟩, rfl⟩
    exact fun _ isNode => absurd isNode (Option.not_mem_none _)
  standing := fun _ => rfl

@[simp] theorem become_self (reader : Nat) (now : Reader κ) :
    (shared.become reader now).readers reader = now :=
  Function.update_self ..

@[simp] theorem become_of_ne {reader other : Nat} (differs : other ≠ reader) (now : Reader κ) :
    (shared.become reader now).readers other = shared.readers other :=
  Function.update_of_ne differs ..

theorem sought_congr {node : Option Nat} {move : Cursor.Move κ}
    (same : ∀ x ∈ node, after.list.key x = shared.list.key x) :
    after.sought cmp node move = shared.sought cmp node move := by
  cases move with
  | prev =>
      cases node with
      | none => rfl
      | some x =>
          funext key
          exact congrArg (fun nodeKey => keyIsAfterNode cmp nodeKey key) (same x rfl)
  | _ => rfl

/-! ## Stores -/

/-- The list has no fewer nodes, and their keys are the same. -/
structure Grown (cmp : κ → κ → Ordering) (shared after : SharedList κ)
    (levels grown : Nat → List Nat) : Prop where
  shape : after.list.Shape cmp grown
  writer : InsertionHolds cmp after.list grown after.writer
  more : ∀ level, levels level ⊆ grown level
  keys : ∀ node ∈ levels 0, after.list.key node = shared.list.key node
  readers : after.readers = shared.readers

namespace Grown

variable {grown : Nat → List Nat} (steps : Grown cmp shared after levels grown)
include steps

theorem readerHolds (shape : shared.list.Shape cmp levels) {reader : Reader κ}
    (holds : ReaderHolds cmp shared levels reader) : ReaderHolds cmp after grown reader := by
  cases reader with
  | standing node => exact fun x isNode => steps.more 0 (holds x isNode)
  | searching node move search =>
      obtain ⟨inList, hasNode, isSearch, stands⟩ := holds
      refine ⟨fun x isNode => steps.more 0 (inList x isNode), hasNode, isSearch, ?_⟩
      rw [sought_congr fun x isNode => steps.keys x (inList x isNode)]
      rcases stands with isHead | ⟨member, isBefore⟩
      · exact .inl isHead
      · refine .inr ⟨steps.more search.level member, ?_⟩
        rwa [steps.keys _ (shape.subset_zero search.level member)]

theorem holds (before : Holds cmp shared levels) : Holds cmp after grown where
  shape := steps.shape
  writer := steps.writer
  readers reader := by
    rw [steps.readers]
    exact steps.readerHolds before.shape (before.readers reader)

end Grown

/-- A store changes what the list is for its callers only when it links the new node
at the lowest level. -/
theorem store_grown [Std.TransCmp cmp] (holds : Holds cmp shared levels)
    {event : Option (Event κ)} (stored : shared.store = some (after, event)) :
    ∃ grown, Grown cmp shared after levels grown ∧
      match event with
      | none => grown 0 = levels 0
      | some event => ∃ key, event = .inserted key ∧
          (∀ node ∈ levels 0, cmp (shared.list.key node) key ≠ .eq) ∧
          (grown 0).map after.list.key = insertKey cmp key ((levels 0).map shared.list.key) := by
  have writer := holds.writer
  rw [store] at stored
  cases standing : shared.writer with
  | idle =>
      rw [standing] at stored
      cases stored
  | found key height prev =>
      rw [standing] at stored writer
      cases stored
      obtain ⟨⟨positive, low⟩, fresh, prevs⟩ := writer
      refine ⟨levels, ⟨holds.shape.raise low, ?_, fun _ => List.Subset.refl _, fun _ _ => rfl, rfl⟩,
        rfl⟩
      exact ⟨⟨positive, Nat.le_max_right ..⟩, fresh, prevs⟩
  | raised key height prev =>
      rw [standing] at stored writer
      cases stored
      obtain ⟨⟨positive, low⟩, fresh, prevs⟩ := writer
      have linking := holds.shape.newNode low fresh prevs
      exact ⟨levels, ⟨linking.shape, ⟨linking, positive⟩, fun _ => List.Subset.refl _,
        fun _ member => holds.shape.newNode_key member, rfl⟩, rfl⟩
  | linking x height prev level =>
      rw [standing] at stored writer
      cases stored
      obtain ⟨copied, sameLink⟩ := writer.1.copyNext
      exact ⟨levels, ⟨copied.shape, ⟨copied, writer.2, sameLink⟩, fun _ => List.Subset.refl _,
        fun _ _ => rfl, rfl⟩, rfl⟩
  | copied x height prev level =>
      rw [standing] at stored writer
      cases stored
      obtain ⟨linking, inside, sameLink⟩ := writer
      have published := linking.publish inside sameLink
      refine ⟨_, ⟨published.shape, ?_, ?_, fun _ _ => rfl, rfl⟩, ?_⟩
      · split
        · exact ⟨published, ‹_›⟩
        · exact trivial
      · exact fun lvl node member => (SkipList.mem_update_placed shared.list).mpr (.inr member)
      · cases level with
        | zero =>
            refine ⟨shared.list.key x, rfl, ?_, ?_⟩
            · intro node member
              apply linking.fresh node member
              rintro rfl
              exact linking.absent 0 (Nat.le_refl 0) member
            · rw [Function.update_self]
              exact SkipList.placed_keys
        | succ level => exact Function.update_of_ne (Nat.succ_ne_zero level).symm ..

/-! ## Answers -/

section Answers

variable {list : SkipList κ} (shape : list.Shape cmp levels)
include shape

/-- Behind a node stands the first key that is greater. -/
theorem next_eq [Std.TransCmp cmp] {x : Nat} (member : x ∈ levels 0) :
    list.next x 0 =
      list.firstBehind (fun key => !(cmp (list.key x) key).isLT) (levels 0) := by
  have initial : Initial cmp fun key => !(cmp (list.key x) key).isLT := by
    intro left right less notBehind
    rw [Bool.not_eq_true', ← Bool.not_eq_true, Ordering.isLT_iff_eq_lt] at notBehind ⊢
    exact fun isBehind => notBehind (Std.TransCmp.lt_trans isBehind less)
  have same : cmp (list.key x) (list.key x) = .eq := Std.ReflCmp.compare_self
  have stands : list.Stands levels (fun key => !(cmp (list.key x) key).isLT) x 0 :=
    .inr ⟨member, by simp [same]⟩
  obtain ⟨passed, rest, split⟩ := shape.exists_split initial stands
  rw [shape.next_eq split]
  refine (split.ended ?_).2
  intro node later
  have ascending := shape.ascending 0
  rw [split.whole] at ascending
  have isPassed : x ∈ passed := by
    rcases Lib.lastOf_mem 0 passed with isHead | isPassed
    · exact absurd (split.last.trans isHead) (shape.inside x member).1.ne'
    · rwa [← split.last] at isPassed
  rw [(List.pairwise_append.mp ascending).2.2 x isPassed node later]
  rfl

theorem unlessHead_lastBefore (before : κ → Bool) :
    unlessHead (list.lastBefore before (levels 0)) =
      (list.beforeOf before (levels 0)).getLast? := by
  rw [SkipList.lastBefore, lastOf]
  cases last : (list.beforeOf before (levels 0)).getLast? with
  | none => rfl
  | some x =>
      have member := (List.mem_filter.mp (List.mem_of_getLast? last)).1
      exact if_neg (shape.inside x member).1.ne'

theorem lastBefore_key (before : κ → Bool) :
    (unlessHead (list.lastBefore before (levels 0))).map list.key =
      (((levels 0).map list.key).filter before).getLast? := by
  rw [unlessHead_lastBefore shape, List.filter_map, List.getLast?_map]
  rfl

end Answers

section Moves

variable {set : OrderedSet κ} {reader : Nat} {move : Cursor.Move κ}

/-- The readers that a step of one of them leaves alone. -/
theorem Holds.become (holds : Holds cmp shared levels) {now : Reader κ}
    (readerHolds : ReaderHolds cmp shared levels now) :
    Holds cmp (shared.become reader now) levels where
  shape := holds.shape
  writer := holds.writer
  readers other := by
    by_cases same : other = reader
    · subst same
      rw [become_self]
      exact readerHolds
    · rw [become_of_ne same]
      exact holds.readers other

/-- The last load of a move is the moment of its answer. -/
theorem answered_takes (holds : Holds cmp shared levels)
    (keys : set.keys = (levels 0).map shared.list.key)
    (standing : ∀ other, set.standing other =
      (nodeOf (shared.readers other)).map shared.list.key)
    {node : Option Nat} (inList : ∀ x ∈ node, x ∈ levels 0)
    (answer : set.answer cmp reader move = some (node.map shared.list.key)) :
    ∃ later, set.Takes cmp (.moved reader move (node.map shared.list.key)) later ∧
      Shows cmp (shared.answered reader move node).1 later := by
  refine ⟨_, .moved answer, ⟨levels, holds.become inList, keys⟩, ?_⟩
  intro other
  by_cases same : other = reader
  · subst same
    rw [answered, become_self]
    exact Function.update_self ..
  · rw [answered, become_of_ne same]
    exact (Function.update_of_ne same ..).trans (standing other)

/-- A search stands at the end of a level, or goes on. -/
theorem load_cases [Std.TransCmp cmp] (shape : shared.list.Shape cmp levels)
    {before : κ → Bool} (initial : Initial cmp before) {search : SkipList.Search}
    (stands : shared.list.Stands levels before search.x search.level) :
    (∃ further, shared.list.turn before search = .inl further ∧
        shared.list.Stands levels before further.x further.level) ∨
      ∃ found, shared.list.turn before search = .inr found ∧
        found.x = shared.list.lastBefore before (levels 0) ∧
        found.next = shared.list.firstBehind before (levels 0) := by
  obtain ⟨x, level, prev⟩ := search
  obtain ⟨passed, rest, split⟩ := shape.exists_split initial stands
  rcases @Shape.turn_cases _ _ _ _ _ _ _ prev shape initial _ _ split with
    ⟨node, later, rfl, isBefore, turned⟩ | ⟨ended, turned⟩
  · refine .inl ⟨_, turned, .inr ⟨?_, isBefore⟩⟩
    rw [split.whole]
    exact List.mem_append_right passed List.mem_cons_self
  · rw [turned, SkipList.Search.leave]
    cases level with
    | zero => exact .inr ⟨_, rfl, ended, rfl⟩
    | succ level =>
        refine .inl ⟨_, rfl, stands.imp_right fun found => ?_⟩
        exact ⟨shape.subset level found.1, found.2⟩

theorem sought_initial [Std.TransCmp cmp] (node : Option Nat) :
    Initial cmp (shared.sought cmp node move) := by
  cases move with
  | seek target => exact keyIsAfterNode_initial target
  | prev =>
      cases node with
      | none => exact fun _ _ _ isBefore => absurd isBefore Bool.false_ne_true
      | some x => exact keyIsAfterNode_initial (shared.list.key x)
  | _ => exact fun _ _ _ _ => rfl

/-- The answer of a search that has come to its end. -/
theorem result_answer [Std.TransCmp cmp] {node : Option Nat} {found : SkipList.Found}
    (holds : Holds cmp shared levels) (keys : set.keys = (levels 0).map shared.list.key)
    (standing : set.standing reader = node.map shared.list.key)
    (hasNode : move = .prev → node.isSome) (isSearch : move ≠ .seekToFirst ∧ move ≠ .next)
    (last : found.x = shared.list.lastBefore (shared.sought cmp node move) (levels 0))
    (next : found.next = shared.list.firstBehind (shared.sought cmp node move) (levels 0)) :
    (∀ x ∈ result found move, x ∈ levels 0) ∧
      set.answer cmp reader move = some ((result found move).map shared.list.key) := by
  have lastMem : ∀ x ∈ unlessHead found.x, x ∈ levels 0 := by
    intro x isLast
    rw [last, unlessHead_lastBefore holds.shape] at isLast
    exact (List.mem_filter.mp (List.mem_of_getLast? isLast)).1
  have lastKey := lastBefore_key holds.shape (shared.sought cmp node move)
  rw [← last, ← keys] at lastKey
  cases move with
  | seekToFirst => exact absurd rfl isSearch.1
  | next => exact absurd rfl isSearch.2
  | seek target =>
      refine ⟨fun x isNext => List.mem_of_find?_eq_some (next.symm.trans isNext), ?_⟩
      have nextKey := shared.list.firstBehind_key (shared.sought cmp node (.seek target)) (levels 0)
      rw [← next, ← keys] at nextKey
      exact congrArg some nextKey.symm
  | seekToLast =>
      refine ⟨lastMem, ?_⟩
      simp only [result, lastKey]
      exact congrArg (fun keys => some (List.getLast? keys)) (List.filter_true set.keys).symm
  | prev =>
      refine ⟨lastMem, ?_⟩
      obtain ⟨x, rfl⟩ := Option.isSome_iff_exists.mp (hasNode rfl)
      simp only [result, lastKey, OrderedSet.answer, standing]
      rfl

end Moves

/-! ## The list is an ordered set -/

section Steps

variable [Std.TransCmp cmp] {set : OrderedSet κ} {reader : Nat} {move : Cursor.Move κ}
  {event : Option (Event κ)}

/-- A step is a step of the set, or is not seen. -/
def Mirrors (cmp : κ → κ → Ordering) (set : OrderedSet κ) (after : SharedList κ) :
    Option (Event κ) → Prop
  | none => Shows cmp after set
  | some event => ∃ later, set.Takes cmp event later ∧ Shows cmp after later

theorem store_mirrors (shows : Shows cmp shared set)
    (stored : shared.store = some (after, event)) : Mirrors cmp set after event := by
  obtain ⟨⟨levels, holds, keys⟩, standing⟩ := shows
  obtain ⟨grown, steps, bottom⟩ := store_grown holds stored
  have stays : ∀ other, set.standing other =
      (nodeOf (after.readers other)).map after.list.key := by
    intro other
    rw [standing other, steps.readers]
    apply Option.map_congr
    intro x isNode
    exact (steps.keys x (holds.nodeOf_mem isNode)).symm
  cases event with
  | none =>
      refine ⟨⟨grown, steps.holds holds, ?_⟩, stays⟩
      rw [keys, bottom]
      exact List.map_congr_left fun node member => (steps.keys node member).symm
  | some event =>
      obtain ⟨key, rfl, fresh, inserted⟩ := bottom
      refine ⟨_, .inserted ?_, ⟨grown, steps.holds holds, ?_⟩, stays⟩
      · rw [keys]
        exact List.forall_mem_map.mpr fresh
      · rw [inserted, keys]

theorem insert_mirrors {key : κ} {height : Nat} (shows : Shows cmp shared set)
    (inserts : shared.insert cmp key height = some after) : Shows cmp after set := by
  obtain ⟨⟨levels, holds, keys⟩, standing⟩ := shows
  rw [insert] at inserts
  split at inserts
  · obtain ⟨⟨positive, low, notContained⟩, same⟩ := Option.ite_none_right_eq_some.mp inserts
    cases same
    refine ⟨⟨levels, ⟨holds.shape, ?_, holds.readers⟩, keys⟩, standing⟩
    refine ⟨⟨positive, low⟩, ?_, holds.shape.prevs key⟩
    intro node member same
    have contained := holds.shape.contains_iff.mpr ⟨node, member, Std.OrientedCmp.eq_symm same⟩
    rw [notContained] at contained
    cases contained
  · cases inserts

omit [Std.TransCmp cmp] in
/-- A search begins at the head. -/
theorem searching_shows {node : Option Nat} {maxHeight : Nat} (shows : Shows cmp shared set)
    (standing : shared.readers reader = .standing node) (hasNode : move = .prev → node.isSome)
    (isSearch : move ≠ .seekToFirst ∧ move ≠ .next) :
    Shows cmp (shared.become reader (.searching node move (.start maxHeight))) set := by
  obtain ⟨⟨levels, holds, keys⟩, same⟩ := shows
  have inList := holds.readers reader
  rw [standing] at inList
  refine ⟨⟨levels, holds.become ⟨inList, hasNode, isSearch, .inl rfl⟩, keys⟩, ?_⟩
  intro other
  rw [same other]
  by_cases isReader : other = reader
  · subst isReader
    rw [become_self, standing]
    rfl
  · rw [become_of_ne isReader]
    rfl

theorem call_mirrors {maxHeight : Nat} (shows : Shows cmp shared set)
    (called : shared.call reader move maxHeight = some (after, event)) :
    Mirrors cmp set after event := by
  obtain ⟨⟨levels, holds, keys⟩, standing⟩ := id shows
  have inList := holds.readers reader
  have shown := standing reader
  cases stands : shared.readers reader with
  | searching node going search =>
      rw [call, stands] at called
      cases called
  | standing node =>
      rw [stands] at inList shown
      rw [call, stands] at called
      have begins : ∀ {going}, (going = .prev → node.isSome) →
          (going ≠ .seekToFirst ∧ going ≠ .next) →
          (if 0 < maxHeight ∧ maxHeight ≤ shared.list.maxHeight then
              some (shared.become reader (.searching node going (.start maxHeight)), none)
            else none) = some (after, event) → Mirrors cmp set after event := by
        intro going hasNode isSearch begun
        obtain ⟨-, same⟩ := Option.ite_none_right_eq_some.mp begun
        cases same
        exact searching_shows shows stands hasNode isSearch
      cases move with
      | seekToFirst =>
          cases called
          have first := (holds.shape.linked 0).link_eq
          apply answered_takes holds keys standing
          · intro x isFirst
            rw [first] at isFirst
            exact List.mem_of_head? isFirst
          · rw [first, ← List.head?_map, ← keys]
            rfl
      | seekToLast => exact begins (by simp) (by simp) called
      | seek target => exact begins (by simp) (by simp) called
      | next =>
          cases node with
          | none => cases called
          | some x =>
              cases called
              have next := next_eq holds.shape (inList x rfl)
              apply answered_takes holds keys standing
              · intro y isNext
                rw [next] at isNext
                exact List.mem_of_find?_eq_some isNext
              · rw [next, SkipList.firstBehind_key, ← keys, OrderedSet.answer, shown]
                simp only [Bool.not_not]
                rfl
      | prev =>
          cases node with
          | none => cases called
          | some x => exact begins (fun _ => rfl) (by simp) called

theorem load_mirrors (shows : Shows cmp shared set)
    (loaded : shared.load cmp reader = some (after, event)) : Mirrors cmp set after event := by
  obtain ⟨⟨levels, holds, keys⟩, standing⟩ := shows
  have readerHolds := holds.readers reader
  have shown := standing reader
  cases stands : shared.readers reader with
  | standing node =>
      rw [load, stands] at loaded
      cases loaded
  | searching node move search =>
      rw [stands] at readerHolds shown
      rw [load, stands] at loaded
      obtain ⟨inList, hasNode, isSearch, isBefore⟩ := readerHolds
      rcases load_cases holds.shape (sought_initial node) isBefore with
        ⟨further, turned, stillBefore⟩ | ⟨found, turned, last, next⟩
      · simp only [turned, Option.some.injEq, Prod.mk.injEq] at loaded
        obtain ⟨rfl, rfl⟩ := loaded
        refine ⟨⟨levels, holds.become ⟨inList, hasNode, isSearch, stillBefore⟩, keys⟩, ?_⟩
        intro other
        rw [standing other]
        by_cases isReader : other = reader
        · subst isReader
          rw [become_self, stands]
          rfl
        · rw [become_of_ne isReader]
          rfl
      · simp only [turned, Option.some.injEq] at loaded
        obtain ⟨found, answer⟩ :=
          result_answer holds keys shown hasNode isSearch last next
        cases loaded
        exact answered_takes holds keys standing found answer

/-- Every step of a thread is a step of the ordered set, or is not seen. -/
theorem step_mirrors {act : Act κ} (shows : Shows cmp shared set)
    (stepped : shared.step cmp act = some (after, event)) : Mirrors cmp set after event := by
  cases act with
  | insert key height =>
      obtain ⟨found, inserts, same⟩ := Option.map_eq_some_iff.mp stepped
      cases same
      exact insert_mirrors shows inserts
  | store => exact store_mirrors shows stepped
  | call reader move maxHeight => exact call_mirrors shows stepped
  | load reader => exact load_mirrors shows stepped

theorem refines : Lib.Refines (step cmp) (OrderedSet.Takes cmp) (Shows cmp) where
  silent shows stepped := step_mirrors shows stepped
  visible shows stepped := step_mirrors shows stepped

/-- What all threads see of a list that is written and read at the same time could have
happened at an ordered set, one move after the other. -/
theorem trace_accepted (anyKey : κ) {acts : List (Act κ)} {events : List (Event κ)}
    (ran : Lib.trace (step cmp) (new anyKey) acts = some (after, events)) :
    ∃ set, Lib.Accepts (OrderedSet.Takes cmp) OrderedSet.empty events set ∧
      Shows cmp after set :=
  refines.trace (new_shows anyKey) ran

/-- The key is published while the search is under way. -/
theorem trace_accepted_seek_during_insert : ∃ after set,
    Lib.Accepts (OrderedSet.Takes Ord.compare) OrderedSet.empty
      [.inserted 5, .moved 0 (.seek 4) (some 5)] set ∧
        Shows (Ord.compare : Nat → Nat → Ordering) after set :=
  ⟨_, @trace_accepted Nat Ord.compare _ _ 0
    [.insert 5 2, .store, .store, .call 0 (.seek 4) 1, .store, .store, .load 0, .store, .store]
    _ rfl⟩

end Steps

/-! ## How long a move takes -/

section Loads

variable {set : OrderedSet κ} {reader : Nat} {move : Cursor.Move κ}
  {event : Option (Event κ)} {start loads : Nat}

theorem call_become {maxHeight : Nat}
    (called : shared.call reader move maxHeight = some (after, event)) :
    ∃ now, after = shared.become reader now := by
  rw [call] at called
  split at called
  · cases called
  · split at called
    · cases called
      exact ⟨_, rfl⟩
    · cases called
      exact ⟨_, rfl⟩
    · cases called
    · cases called
    · obtain ⟨-, same⟩ := Option.ite_none_right_eq_some.mp called
      cases same
      exact ⟨_, rfl⟩

theorem load_become (loaded : shared.load cmp reader = some (after, event)) :
    ∃ now, after = shared.become reader now := by
  rw [load] at loaded
  split at loaded
  · cases loaded
  · split at loaded
    · cases loaded
      exact ⟨_, rfl⟩
    · cases loaded
      exact ⟨_, rfl⟩

/-- The search of a reader has passed some nodes, one behind the other. -/
structure Passing (cmp : κ → κ → Ordering) (shared : SharedList κ) (levels : Nat → List Nat)
    (reader start loads : Nat) (passed : List Nat) : Prop where
  searching : ∃ node move search, shared.readers reader = .searching node move search ∧
    search.x = lastOf 0 passed ∧ loads + search.level ≤ passed.length + start
  ascending : passed.Pairwise fun left right =>
    cmp (shared.list.key left) (shared.list.key right) = .lt
  inList : passed ⊆ levels 0

def isLoad (reader : Nat) : Act κ → Bool
  | .load other => other = reader
  | _ => false

def isAnswer (reader : Nat) : Event κ → Bool
  | .moved other _ _ => other = reader
  | .inserted _ => false

namespace Passing

variable {grown : Nat → List Nat} {passed : List Nat}
  (passing : Passing cmp shared levels reader start loads passed)
include passing

theorem kept (same : after.readers reader = shared.readers reader)
    (keys : ∀ node ∈ levels 0, after.list.key node = shared.list.key node)
    (more : levels 0 ⊆ grown 0) : Passing cmp after grown reader start loads passed where
  searching := by
    rw [same]
    exact passing.searching
  ascending := by
    apply passing.ascending.imp_of_mem
    intro left right isLeft isRight less
    rwa [keys left (passing.inList isLeft), keys right (passing.inList isRight)]
  inList := fun _ member => more (passing.inList member)

theorem length_le [Std.ReflCmp cmp] : passed.length ≤ (levels 0).length := by
  have distinct : passed.Nodup := by
    apply passing.ascending.imp
    rintro left _ less rfl
    rw [(Std.ReflCmp.compare_self : cmp (shared.list.key left) (shared.list.key left) = .eq)]
      at less
    cases less
  exact (List.subperm_of_subset distinct passing.inList).length_le

/-- The next node of a level is behind all that were passed. -/
theorem pass [Std.TransCmp cmp] (shape : shared.list.Shape cmp levels) {before : κ → Bool}
    {x node level : Nat}
    {front back : List Nat} (isLast : x = lastOf 0 passed)
    (split : Shape.Split shared.list before (levels level) x front (node :: back)) :
    ∀ member ∈ passed, cmp (shared.list.key member) (shared.list.key node) = .lt := by
  rcases List.eq_nil_or_concat passed with rfl | ⟨earlier, last, rfl⟩
  · simp
  · rw [List.concat_eq_append, Lib.lastOf_concat] at isLast
    subst isLast
    have less : cmp (shared.list.key x) (shared.list.key node) = .lt := by
      have ascending := shape.ascending level
      rw [split.whole] at ascending
      apply (List.pairwise_append.mp ascending).2.2 x _ node List.mem_cons_self
      rcases Lib.lastOf_mem 0 front with isHead | isFront
      · have member : x ∈ levels 0 := passing.inList (by simp)
        exact absurd (split.last.trans isHead) (shape.inside x member).1.ne'
      · rwa [← split.last] at isFront
    intro member isPassed
    rcases List.mem_append.mp (List.concat_eq_append .. ▸ isPassed) with isEarlier | isLast
    · have ascending := passing.ascending
      rw [List.concat_eq_append] at ascending
      have before := (List.pairwise_append.mp ascending).2.2 member isEarlier x (by simp)
      exact Std.TransCmp.lt_trans before less
    · rwa [List.mem_singleton.mp isLast]

theorem load [Std.TransCmp cmp] (holds : Holds cmp shared levels)
    (loaded : shared.load cmp reader = some (after, event))
    (unanswered : ∀ seen ∈ event, isAnswer reader seen = false) :
    ∃ more, Passing cmp after levels reader start (loads + 1) more := by
  obtain ⟨node, move, ⟨x, level, prev⟩, stands, isLast, bound⟩ := passing.searching
  have readerHolds := holds.readers reader
  rw [stands] at readerHolds
  obtain ⟨-, -, -, isBefore⟩ := readerHolds
  obtain ⟨front, back, split⟩ := holds.shape.exists_split (sought_initial node) isBefore
  rw [SharedList.load, stands] at loaded
  rcases @Shape.turn_cases _ _ _ _ _ _ _ prev holds.shape (sought_initial node) _ _ split with
    ⟨further, later, rfl, -, turned⟩ | ⟨-, turned⟩
  · simp only [turned, Option.some.injEq, Prod.mk.injEq] at loaded
    obtain ⟨rfl, rfl⟩ := loaded
    have isNode : further ∈ levels level :=
      split.whole ▸ List.mem_append_right front List.mem_cons_self
    refine ⟨passed ++ [further], ⟨node, move, _, become_self .., ?_, ?_⟩, ?_, ?_⟩
    · exact (Lib.lastOf_concat 0 further passed).symm
    · rw [List.length_append]
      simp only [List.length_singleton] at bound ⊢
      omega
    · refine List.pairwise_append.mpr ⟨passing.ascending, List.pairwise_singleton .., ?_⟩
      intro member isPassed other isFurther
      rw [List.mem_singleton.mp isFurther]
      exact passing.pass holds.shape isLast split member isPassed
    · intro member isMember
      rcases List.mem_append.mp isMember with isPassed | isFurther
      · exact passing.inList isPassed
      · rw [List.mem_singleton.mp isFurther]
        exact holds.shape.subset_zero level isNode
  · cases level with
    | zero =>
        simp only [turned, SkipList.Search.leave, if_pos, answered, Option.some.injEq,
          Prod.mk.injEq] at loaded
        obtain ⟨-, rfl⟩ := loaded
        have answers := unanswered _ rfl
        simp [isAnswer] at answers
    | succ level =>
        simp only [turned, SkipList.Search.leave, Nat.succ_ne_zero, if_false, Option.some.injEq,
          Prod.mk.injEq] at loaded
        obtain ⟨rfl, rfl⟩ := loaded
        refine ⟨passed, ⟨node, move, _, become_self .., isLast, ?_⟩, passing.ascending,
          passing.inList⟩
        simp only at bound ⊢
        omega

end Passing

theorem Holds.shows (holds : Holds cmp shared levels) :
    ∃ set, Shows cmp shared set ∧ set.keys = (levels 0).map shared.list.key :=
  ⟨⟨(levels 0).map shared.list.key,
    fun reader => (nodeOf (shared.readers reader)).map shared.list.key⟩,
    ⟨⟨levels, holds, rfl⟩, fun _ => rfl⟩, rfl⟩

theorem Mirrors.holds (mirrors : Mirrors cmp set after event) : ∃ grown, Holds cmp after grown := by
  cases event with
  | none => exact mirrors.holds.imp fun _ holds => holds.1
  | some event =>
      obtain ⟨later, -, shows⟩ := mirrors
      exact shows.holds.imp fun _ holds => holds.1

/-- The levels are what the links make of them. -/
theorem Holds.of_list {grown : Nat → List Nat} (holds : Holds cmp shared levels)
    (later : Holds cmp after grown) (same : after.list = shared.list) :
    Holds cmp after levels := by
  have sameLevels : grown = levels := by
    funext level
    have linked := later.shape.linked level
    rw [same] at linked
    exact linked.unique (holds.shape.linked level)
  rwa [← sameLevels]

theorem insert_same {key : κ} {height : Nat} (inserts : shared.insert cmp key height = some after) :
    after.list = shared.list ∧ after.readers = shared.readers := by
  rw [insert] at inserts
  split at inserts
  · obtain ⟨-, same⟩ := Option.ite_none_right_eq_some.mp inserts
    cases same
    exact ⟨rfl, rfl⟩
  · cases inserts

/-- Whatever a thread does, the loads of a search are paid by the nodes that it passes. -/
theorem step_passing [Std.TransCmp cmp] {act : Act κ} {passed : List Nat}
    (holds : Holds cmp shared levels)
    (passing : Passing cmp shared levels reader start loads passed)
    (stepped : shared.step cmp act = some (after, event))
    (unanswered : ∀ seen ∈ event, isAnswer reader seen = false) :
    ∃ grown more, Holds cmp after grown ∧
      Passing cmp after grown reader start (loads + if isLoad reader act then 1 else 0) more := by
  obtain ⟨set, shows, -⟩ := holds.shows
  obtain ⟨grown, later⟩ := (step_mirrors shows stepped).holds
  have sameLevels := fun same : after.list = shared.list => holds.of_list later same
  cases act with
  | insert key height =>
      obtain ⟨found, inserts, same⟩ := Option.map_eq_some_iff.mp stepped
      cases same
      obtain ⟨sameList, sameReaders⟩ := insert_same inserts
      exact ⟨levels, passed, sameLevels sameList, passing.kept (by rw [sameReaders])
        (fun node _ => by rw [sameList]) (List.Subset.refl _)⟩
  | store =>
      obtain ⟨grown, steps, -⟩ := store_grown holds stepped
      exact ⟨grown, passed, steps.holds holds,
        passing.kept (by rw [steps.readers]) steps.keys (steps.more 0)⟩
  | call other move maxHeight =>
      have notReader : reader ≠ other := by
        rintro rfl
        obtain ⟨node, going, search, stands, -⟩ := passing.searching
        simp only [step, call, stands] at stepped
        cases stepped
      obtain ⟨now, rfl⟩ := call_become stepped
      exact ⟨levels, passed, sameLevels rfl,
        passing.kept (become_of_ne notReader now) (fun _ _ => rfl) (List.Subset.refl _)⟩
  | load other =>
      by_cases isReader : other = reader
      · subst isReader
        obtain ⟨more, loaded⟩ := passing.load holds stepped unanswered
        obtain ⟨now, rfl⟩ := load_become stepped
        refine ⟨levels, more, sameLevels rfl, ?_⟩
        simpa [isLoad] using loaded
      · obtain ⟨now, rfl⟩ := load_become stepped
        refine ⟨levels, passed, sameLevels rfl, ?_⟩
        have kept : Passing cmp (shared.become other now) levels reader start loads passed :=
          passing.kept (become_of_ne (Ne.symm isReader) now) (fun _ _ => rfl) (List.Subset.refl _)
        simpa [isLoad, isReader] using kept

theorem trace_passing [Std.TransCmp cmp] {acts : List (Act κ)} {events : List (Event κ)}
    {passed : List Nat} (holds : Holds cmp shared levels)
    (passing : Passing cmp shared levels reader start loads passed)
    (ran : Lib.trace (step cmp) shared acts = some (after, events))
    (unanswered : ∀ seen ∈ events, isAnswer reader seen = false) :
    ∃ grown more, Holds cmp after grown ∧
      Passing cmp after grown reader start (loads + acts.countP (isLoad reader)) more := by
  induction acts generalizing shared levels loads events passed with
  | nil =>
      cases ran
      exact ⟨levels, passed, holds, passing⟩
  | cons act acts ih =>
      obtain ⟨⟨middle, first⟩, stepped, ran⟩ := Option.bind_eq_some_iff.mp ran
      obtain ⟨⟨last, more⟩, ranOn, same⟩ := Option.map_eq_some_iff.mp ran
      cases same
      obtain ⟨grown, passedMore, holds, passing⟩ :=
        step_passing holds passing stepped fun seen isSeen =>
          unanswered seen (List.mem_append_left more (Option.mem_toList.mpr isSeen))
      obtain ⟨last, passedLast, holds, passing⟩ := ih holds passing ranOn fun seen isSeen =>
        unanswered seen (List.mem_append_right _ isSeen)
      refine ⟨last, passedLast, holds, ?_⟩
      rwa [List.countP_cons, Nat.add_comm (acts.countP _), ← Nat.add_assoc]

theorem call_searching {maxHeight : Nat}
    (called : shared.call reader move maxHeight = some (after, none)) :
    0 < maxHeight ∧ ∃ node, after.readers reader = .searching node move (.start maxHeight) := by
  rw [call] at called
  split at called
  · cases called
  · split at called
    · cases called
    · cases called
    · cases called
    · cases called
    · obtain ⟨allowed, same⟩ := Option.ite_none_right_eq_some.mp called
      cases same
      exact ⟨allowed.1, _, become_self ..⟩

/-- Readers never wait: as long as a move has no answer, its loads are fewer than the levels
and the keys of the list together, whatever the other threads do. -/
theorem loads_lt [Std.TransCmp cmp] (anyKey : κ) {earlier acts : List (Act κ)}
    {seen events : List (Event κ)} {called : SharedList κ} {maxHeight : Nat}
    (reached : Lib.trace (step cmp) (new anyKey) earlier = some (shared, seen))
    (begun : shared.call reader move maxHeight = some (called, none))
    (ran : Lib.trace (step cmp) called acts = some (after, events))
    (unanswered : ∀ answer ∈ events, isAnswer reader answer = false) :
    ∃ set, Shows cmp after set ∧
      acts.countP (isLoad reader) < maxHeight + set.keys.length := by
  obtain ⟨set, -, shows⟩ := refines.trace (new_shows anyKey) reached
  obtain ⟨levels, holds⟩ := (call_mirrors shows begun).holds
  obtain ⟨positive, node, searching⟩ := call_searching begun
  have passing : Passing cmp called levels reader (maxHeight - 1) 0 [] :=
    ⟨⟨node, move, _, searching, rfl, by simp [SkipList.Search.start]⟩, .nil,
      List.nil_subset _⟩
  obtain ⟨grown, passed, holds, passing⟩ := trace_passing holds passing ran unanswered
  obtain ⟨set, shows, keys⟩ := holds.shows
  refine ⟨set, shows, ?_⟩
  obtain ⟨_, _, _, -, -, bound⟩ := passing.searching
  have most := passing.length_le
  rw [keys, List.length_map]
  omega

theorem loads_lt_during_insert : ∃ after set,
    Shows (Ord.compare : Nat → Nat → Ordering) after set ∧ 1 < 2 + set.keys.length :=
  ⟨_, @loads_lt Nat Ord.compare _ _ 0 (.seek 4) _ 0
    [.insert 5 2, .store, .store] [.store, .load 0, .store] [] [.inserted 5] _ 2 rfl rfl rfl
    (by simp [isAnswer])⟩

end Loads

end SharedList

end AhaTree
