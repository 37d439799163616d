import AhaTree.Lib.Run
import Mathlib.Data.Finset.Insert
import Mathlib.Data.Finset.Erase

/-!
# The queue of nodes to adapt

`PriorityNoDupAdapt` under any number of threads.  `work_set_` is guarded by
`adapt_mutex_`, and the priority queue is changed outside of it, except by
`ClearWorkQueue`.  A step is a critical section or one operation on the queue;
clearing keeps the mutex over its two operations.
-/

namespace AhaTree.AdaptQueue

open Lib (Reaches)

/-! ## The priority queue -/

/-- The level of a node and its id. -/
abbrev WeightNodePair := Int × Int

/-- `CompareWeight`: whether `v` comes out of the queue before `u`. -/
def compareWeight (u v : WeightNodePair) : Bool :=
  if u.1 > v.1 then true
  else if u.1 < v.1 then false
  else decide (u.2 < v.2)

/-- The entry that no other one comes before. -/
def top : List WeightNodePair → Option WeightNodePair
  | [] => none
  | head :: rest =>
      match top rest with
      | none => some head
      | some best => if compareWeight best head then some head else some best

/-- `try_pop`: the entry on top, and what stays in the queue. -/
def tryPop (queue : List WeightNodePair) :
    Option (WeightNodePair × List WeightNodePair) :=
  (top queue).map fun best => (best, queue.erase best)

theorem compareWeight_eq_false_iff (u v : WeightNodePair) :
    compareWeight u v = false ↔ u.1 < v.1 ∨ u.1 = v.1 ∧ v.2 ≤ u.2 := by
  unfold compareWeight
  split_ifs with higher lower
  · simp only [false_iff]
    omega
  · simp [lower]
  · have sameLevel : u.1 = v.1 := by omega
    simp [sameLevel]

theorem compareWeight_trans {u v w : WeightNodePair}
    (first : compareWeight u v = false) (second : compareWeight v w = false) :
    compareWeight u w = false := by
  rw [compareWeight_eq_false_iff] at first second ⊢
  omega

theorem top_spec {queue : List WeightNodePair} {best : WeightNodePair}
    (onTop : top queue = some best) :
    best ∈ queue ∧ ∀ other ∈ queue, compareWeight best other = false := by
  induction queue generalizing best with
  | nil => cases onTop
  | cons head rest ih =>
      cases later : top rest with
      | none =>
          have isNil : rest = [] := by
            cases rest with
            | nil => rfl
            | cons second others =>
                simp only [top] at later
                split at later
                · cases later
                · split_ifs at later
          subst isNil
          cases onTop
          simp [compareWeight_eq_false_iff]
      | some candidate =>
          obtain ⟨member, least⟩ := ih later
          simp only [top, later] at onTop
          split_ifs at onTop with before
          · cases onTop
            have headFirst : compareWeight head candidate = false := by
              rw [compareWeight_eq_false_iff]
              have candidateAfter := mt (compareWeight_eq_false_iff candidate head).mpr
                (by simp [before])
              omega
            refine ⟨List.mem_cons_self, fun other isOther => ?_⟩
            rcases List.mem_cons.mp isOther with rfl | inRest
            · simp [compareWeight_eq_false_iff]
            · exact compareWeight_trans headFirst (least other inRest)
          · cases onTop
            refine ⟨List.mem_cons_of_mem head member, fun other isOther => ?_⟩
            rcases List.mem_cons.mp isOther with rfl | inRest
            · simpa using before
            · exact least other inRest

theorem tryPop_spec {queue rest : List WeightNodePair} {popped : WeightNodePair}
    (pops : tryPop queue = some (popped, rest)) :
    popped ∈ queue ∧ rest = queue.erase popped ∧
      ∀ other ∈ queue, compareWeight popped other = false := by
  obtain ⟨best, onTop, isPair⟩ := Option.map_eq_some_iff.mp pops
  obtain ⟨rfl, rfl⟩ := Prod.mk.inj isPair
  exact ⟨(top_spec onTop).1, rfl, (top_spec onTop).2⟩

/-! ## Threads -/

variable {thread : Type} [DecidableEq thread]

/-- What a thread is in the middle of. -/
inductive Place where
  | idle
  /-- In `AddWorkToQueue`, with the id in the set and not yet in the queue. -/
  | adding (work : WeightNodePair)
  /-- In `GetWorkFromQueue`, with the id out of the queue, before it is erased. -/
  | erasing (nodeId : Int)
  /-- In `ClearWorkQueue`, with the queue empty and the set not yet. -/
  | clearing
  deriving DecidableEq, Repr

structure State (thread : Type) where
  workPriorityQueue : List WeightNodePair
  workSet : Finset Int
  adaptMutex : Option thread
  place : thread → Place

inductive Act (thread : Type) where
  | addWork (caller : thread) (nodeId nodeLevel : Int)
  | emplace (caller : thread)
  | tryPop (caller : thread)
  | eraseWork (caller : thread)
  | clearQueue (caller : thread)
  | clearSet (caller : thread)
  deriving DecidableEq, Repr

def initial : State thread where
  workPriorityQueue := []
  workSet := ∅
  adaptMutex := none
  place := fun _ => .idle

namespace State

def ids (state : State thread) : List Int := state.workPriorityQueue.map Prod.snd

def setPlace (state : State thread) (caller : thread) (place : Place) : State thread :=
  { state with place := Function.update state.place caller place }

section setPlace

variable (state : State thread) (caller : thread) (place : Place)

@[simp, grind =] theorem setPlace_place (other : thread) :
    (state.setPlace caller place).place other =
      if other = caller then place else state.place other := by
  simp only [setPlace, Function.update_apply]

@[simp, grind =] theorem setPlace_ids : (state.setPlace caller place).ids = state.ids := rfl

@[simp, grind =] theorem setPlace_workSet :
    (state.setPlace caller place).workSet = state.workSet := rfl

@[simp, grind =] theorem setPlace_workPriorityQueue :
    (state.setPlace caller place).workPriorityQueue = state.workPriorityQueue := rfl

@[simp, grind =] theorem setPlace_adaptMutex :
    (state.setPlace caller place).adaptMutex = state.adaptMutex := rfl

end setPlace

def step (state : State thread) : Act thread → Option (State thread)
  | .addWork caller nodeId nodeLevel =>
      if state.place caller = .idle ∧ state.adaptMutex = none then
        some (if nodeId ∈ state.workSet then state
          else { state with workSet := insert nodeId state.workSet }.setPlace caller
            (.adding (nodeLevel, nodeId)))
      else none
  | .emplace caller =>
      match state.place caller with
      | .adding work =>
          some ({ state with
            workPriorityQueue := work :: state.workPriorityQueue }.setPlace caller .idle)
      | _ => none
  | .tryPop caller =>
      if state.place caller = .idle then
        match AdaptQueue.tryPop state.workPriorityQueue with
        | none => some state
        | some (popped, rest) =>
            some ({ state with workPriorityQueue := rest }.setPlace caller
              (.erasing popped.2))
      else none
  | .eraseWork caller =>
      match state.place caller with
      | .erasing nodeId =>
          if state.adaptMutex = none then
            some ({ state with workSet := state.workSet.erase nodeId }.setPlace
              caller .idle)
          else none
      | _ => none
  | .clearQueue caller =>
      if state.place caller = .idle ∧ state.adaptMutex = none then
        some ({ state with
          workPriorityQueue := [], adaptMutex := some caller }.setPlace caller .clearing)
      else none
  | .clearSet caller =>
      if state.adaptMutex = some caller then
        some ({ state with workSet := ∅, adaptMutex := none }.setPlace caller .idle)
      else none

end State

/-- No `ClearWorkQueue` begins while an id is in the set and not yet in the queue,
and no id comes into the set while a thread has popped it and has yet to erase it. -/
def Timely (state : State thread) : Act thread → Prop
  | .clearQueue _ => ∀ caller work, state.place caller ≠ .adding work
  | .addWork _ nodeId _ =>
      nodeId ∉ state.workSet → ∀ caller, state.place caller ≠ .erasing nodeId
  | _ => True

/-! ## The invariant -/

/-- A thread has yet to bring the id into the queue or to erase it from the set. -/
def Pending (state : State thread) (nodeId : Int) : Prop :=
  (∃ caller work, state.place caller = .adding work ∧ work.2 = nodeId) ∨
    ∃ caller, state.place caller = .erasing nodeId

/-- No two entries or threads bring the same id into the queue, and every id of the
set is in the queue or pending. -/
structure Consistent (state : State thread) : Prop where
  nodup : state.ids.Nodup
  adding : ∀ caller work, state.place caller = .adding work → work.2 ∉ state.ids
  addingOnce : ∀ first second firstWork secondWork,
    state.place first = .adding firstWork → state.place second = .adding secondWork →
      firstWork.2 = secondWork.2 → first = second
  erasing : ∀ caller nodeId, state.place caller = .erasing nodeId → nodeId ∉ state.ids
  apart : ∀ first second nodeId work, state.place first = .erasing nodeId →
    state.place second = .adding work → work.2 ≠ nodeId
  clearing : ∀ owner, state.adaptMutex = some owner → state.place owner = .clearing ∧
    state.workPriorityQueue = [] ∧ ∀ caller work, state.place caller ≠ .adding work
  queued : ∀ nodeId ∈ state.ids, nodeId ∈ state.workSet
  added : ∀ caller work, state.place caller = .adding work → work.2 ∈ state.workSet
  accounted : state.adaptMutex = none → ∀ nodeId ∈ state.workSet,
    nodeId ∈ state.ids ∨ Pending state nodeId

omit [DecidableEq thread] in
theorem consistent_initial : Consistent (initial : State thread) := by
  constructor <;> simp [initial, State.ids]

/-- What other threads have pending stays so when a thread goes on. -/
theorem Pending.setPlace {before after : State thread} {caller : thread} {place : Place}
    {nodeId : Int} (pending : Pending before nodeId)
    (sameElsewhere : after.place = before.place)
    (notAdded : ∀ work, before.place caller = .adding work → work.2 ≠ nodeId)
    (notErased : before.place caller ≠ .erasing nodeId) :
    Pending (after.setPlace caller place) nodeId := by
  rcases pending with ⟨adder, work, isAdding, isNode⟩ | ⟨eraser, isErasing⟩
  · have other : adder ≠ caller := by
      rintro rfl
      exact notAdded work isAdding isNode
    exact .inl ⟨adder, work, by simpa [other, sameElsewhere] using isAdding, isNode⟩
  · have other : eraser ≠ caller := by
      rintro rfl
      exact notErased isErasing
    exact .inr ⟨eraser, by simpa [other, sameElsewhere] using isErasing⟩

namespace Consistent

variable {state : State thread}

/-- A new id is neither queued nor about to be, for these ids are in the set. -/
theorem addWork (consistent : Consistent state) {caller : thread} {nodeId level : Int}
    (isIdle : state.place caller = .idle) (unlocked : state.adaptMutex = none)
    (isNew : nodeId ∉ state.workSet)
    (timely : ∀ other, state.place other ≠ .erasing nodeId) :
    Consistent ({ state with workSet := insert nodeId state.workSet }.setPlace caller
      (.adding (level, nodeId))) := by
  have notQueued : nodeId ∉ state.ids := fun queued => isNew (consistent.queued _ queued)
  have notAdded : ∀ other work, state.place other = .adding work → work.2 ≠ nodeId :=
    fun other work isAdding same => isNew (same ▸ consistent.added other work isAdding)
  constructor
  case accounted =>
      intro _ other inSet
      rcases Finset.mem_insert.mp inSet with rfl | before
      · exact .inr (.inl ⟨caller, (level, other), by simp, rfl⟩)
      · rcases consistent.accounted unlocked other before with queued | pending
        · exact .inl queued
        · exact .inr (pending.setPlace rfl (by simp [isIdle]) (by simp [isIdle]))
  all_goals
    obtain ⟨nodup, adding, addingOnce, erasing, apart, clearing, queued, added, _⟩ :=
      consistent
    grind [State.ids]

theorem emplace (consistent : Consistent state) {caller : thread} {work : WeightNodePair}
    (isAdding : state.place caller = .adding work) :
    Consistent ({ state with
      workPriorityQueue := work :: state.workPriorityQueue }.setPlace caller .idle) := by
  have notQueued : work.2 ∉ state.ids := consistent.adding caller work isAdding
  have unlocked : ∀ owner, state.adaptMutex ≠ some owner := fun owner locked =>
    (consistent.clearing owner locked).2.2 caller work isAdding
  constructor
  case accounted =>
      intro free nodeId inSet
      by_cases isWork : work.2 = nodeId
      · exact .inl (isWork ▸ List.mem_cons_self)
      · rcases consistent.accounted free nodeId inSet with queued | pending
        · exact .inl (List.mem_cons_of_mem _ queued)
        · refine .inr (pending.setPlace rfl (fun other isOther => ?_) (by simp [isAdding]))
          rw [isAdding] at isOther
          cases isOther
          exact isWork
  all_goals
    obtain ⟨nodup, adding, addingOnce, erasing, apart, clearing, queued, added, _⟩ :=
      consistent
    grind [State.ids]

theorem pop (consistent : Consistent state) {caller : thread} {popped : WeightNodePair}
    {rest : List WeightNodePair} (isIdle : state.place caller = .idle)
    (pops : tryPop state.workPriorityQueue = some (popped, rest)) :
    Consistent ({ state with workPriorityQueue := rest }.setPlace caller
      (.erasing popped.2)) := by
  obtain ⟨member, rfl, _⟩ := tryPop_spec pops
  have perm : state.ids.Perm
      (popped.2 :: (state.workPriorityQueue.erase popped).map Prod.snd) :=
    (List.perm_cons_erase member).map Prod.snd
  have distinct := perm.nodup_iff.mp consistent.nodup
  have split : ∀ nodeId, nodeId ∈ state.ids ↔ nodeId = popped.2 ∨
      nodeId ∈ (state.workPriorityQueue.erase popped).map Prod.snd := fun nodeId => by
    rw [perm.mem_iff, List.mem_cons]
  rw [List.nodup_cons] at distinct
  constructor
  case accounted =>
      intro free nodeId inSet
      rcases consistent.accounted free nodeId inSet with queued | pending
      · rcases (split nodeId).mp queued with rfl | stays
        · exact .inr (.inr ⟨caller, by simp⟩)
        · exact .inl stays
      · exact .inr (pending.setPlace rfl (by simp [isIdle]) (by simp [isIdle]))
  all_goals
    obtain ⟨nodup, adding, addingOnce, erasing, apart, clearing, queued, added, _⟩ :=
      consistent
    grind [State.ids]

theorem eraseWork (consistent : Consistent state) {caller : thread} {nodeId : Int}
    (isErasing : state.place caller = .erasing nodeId)
    (unlocked : state.adaptMutex = none) :
    Consistent ({ state with workSet := state.workSet.erase nodeId }.setPlace
      caller .idle) := by
  constructor
  case accounted =>
      intro _ other inSet
      obtain ⟨isOther, before⟩ := Finset.mem_erase.mp inSet
      rcases consistent.accounted unlocked other before with queued | pending
      · exact .inl queued
      · exact .inr (pending.setPlace rfl (by simp [isErasing])
          (by simpa [isErasing] using isOther.symm))
  all_goals
    obtain ⟨nodup, adding, addingOnce, erasing, apart, clearing, queued, added, _⟩ :=
      consistent
    grind [State.ids]

theorem clearQueue (consistent : Consistent state) {caller : thread}
    (timely : ∀ other work, state.place other ≠ .adding work) :
    Consistent ({ state with
      workPriorityQueue := [], adaptMutex := some caller }.setPlace caller .clearing) := by
  obtain ⟨_, _, _, _, apart, _, _, _, _⟩ := consistent
  constructor <;> grind [State.ids]

theorem clearSet (consistent : Consistent state) {caller : thread}
    (locked : state.adaptMutex = some caller) :
    Consistent ({ state with workSet := ∅, adaptMutex := none }.setPlace caller .idle) := by
  obtain ⟨isClearing, isEmpty, notAdding⟩ := consistent.clearing caller locked
  constructor <;> grind [State.ids]

theorem step (consistent : Consistent state) {taken : Act thread} {after : State thread}
    (timely : Timely state taken) (stepped : state.step taken = some after) :
    Consistent after := by
  cases taken with
  | addWork caller nodeId nodeLevel =>
      obtain ⟨⟨isIdle, unlocked⟩, ⟨⟩⟩ := Option.ite_none_right_eq_some.mp stepped
      split_ifs with present
      · exact consistent
      · exact consistent.addWork isIdle unlocked present (timely present)
  | emplace caller =>
      rcases isPlace : state.place caller with _ | work | _ | _
      all_goals simp only [State.step, isPlace, reduceCtorEq, Option.some.injEq] at stepped
      subst stepped
      exact consistent.emplace isPlace
  | tryPop caller =>
      obtain ⟨isIdle, popped⟩ := Option.ite_none_right_eq_some.mp stepped
      rcases pops : tryPop state.workPriorityQueue with _ | ⟨best, rest⟩
      all_goals
        simp only [pops, Option.some.injEq] at popped
        subst popped
      · exact consistent
      · exact consistent.pop isIdle pops
  | eraseWork caller =>
      rcases isPlace : state.place caller with _ | _ | nodeId | _
      all_goals simp only [State.step, isPlace, reduceCtorEq] at stepped
      obtain ⟨unlocked, ⟨⟩⟩ := Option.ite_none_right_eq_some.mp stepped
      exact consistent.eraseWork isPlace unlocked
  | clearQueue caller =>
      obtain ⟨_, ⟨⟩⟩ := Option.ite_none_right_eq_some.mp stepped
      exact consistent.clearQueue timely
  | clearSet caller =>
      obtain ⟨locked, ⟨⟩⟩ := Option.ite_none_right_eq_some.mp stepped
      exact consistent.clearSet locked

end Consistent

/-! ## No duplicates -/

/-- What the name of `PriorityNoDupAdapt` and the order of its queue say. -/
structure NoDup (state : State thread) : Prop where
  nodup : state.ids.Nodup
  /-- When no call is in progress, the set has the ids of the queue. -/
  quiet : (∀ caller, state.place caller = .idle) →
    ∀ nodeId, nodeId ∈ state.workSet ↔ nodeId ∈ state.ids
  /-- The lowest level comes first, and on one level the highest id. -/
  ordered : ∀ popped rest, tryPop state.workPriorityQueue = some (popped, rest) →
    ∀ other ∈ rest, popped.1 < other.1 ∨ popped.1 = other.1 ∧ other.2 < popped.2

omit [DecidableEq thread] in
theorem Consistent.noDup {state : State thread} (consistent : Consistent state) :
    NoDup state where
  nodup := consistent.nodup
  quiet allIdle nodeId := by
    refine ⟨fun inSet => ?_, consistent.queued nodeId⟩
    have unlocked : state.adaptMutex = none := by
      rcases locked : state.adaptMutex with _ | owner
      · rfl
      · have isClearing := (consistent.clearing owner locked).1
        rw [allIdle owner] at isClearing
        cases isClearing
    rcases consistent.accounted unlocked nodeId inSet with queued | pending
    · exact queued
    · rcases pending with ⟨caller, work, isAdding, _⟩ | ⟨caller, isErasing⟩
      · rw [allIdle caller] at isAdding
        cases isAdding
      · rw [allIdle caller] at isErasing
        cases isErasing
  ordered popped rest pops other isRest := by
    obtain ⟨member, rfl, least⟩ := tryPop_spec pops
    have distinct := ((List.perm_cons_erase member).map Prod.snd).nodup_iff.mp
      consistent.nodup
    have different : other.2 ≠ popped.2 := fun same =>
      (List.nodup_cons.mp distinct).1 (same ▸ List.mem_map_of_mem isRest)
    have before := (compareWeight_eq_false_iff popped other).mp
      (least other (List.mem_of_mem_erase isRest))
    omega

/-- Runs in which nobody clears between the halves of another call keep the queue
free of duplicates. -/
theorem noDup_of_timely {reached : State thread}
    (ran : Reaches State.step Timely initial reached) : NoDup reached :=
  (ran.invariant Consistent consistent_initial
    fun _ _ _ consistent timely stepped => consistent.step timely stepped).noDup

/-- One thread adds a node and takes it out again. -/
theorem noDup_of_timely_pop : ∃ reached : State Bool,
    reached.place false = .erasing 5 ∧ NoDup reached :=
  ⟨_, rfl, noDup_of_timely (.next (.tryPop false) (.next (.emplace false)
    (.next (.addWork false 5 1) .start (by simp [Timely, initial]) rfl) trivial rfl)
    trivial rfl)⟩

/-- A `ClearWorkQueue` between the halves of an `AddWorkToQueue` empties the set, and
the node can be added once more. -/
theorem added_twice_around_clear : ¬ ∀ reached : State Bool,
    Reaches State.step (fun _ _ => True) initial reached → NoDup reached := by
  intro always
  obtain ⟨reached, ran, isTwice⟩ : ∃ reached : State Bool,
      Lib.run State.step (fun _ _ => true) initial
        [.addWork false 5 1, .clearQueue true, .clearSet true, .emplace false,
          .addWork false 5 1, .emplace false] = some reached ∧ reached.ids = [5, 5] :=
    ⟨_, rfl, rfl⟩
  have nodup := (always reached (Lib.reaches_of_run (fun _ _ _ => trivial) ran)).nodup
  rw [isTwice] at nodup
  exact absurd nodup (by decide)

end AhaTree.AdaptQueue
