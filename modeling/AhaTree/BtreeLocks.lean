import AhaTree.Btree
import Mathlib.Tactic.Ring

/-!
# Which locks the B-tree returns

`SearchDown` hands a stack of locked pages to its caller.  `Insert` releases
every page of it, on the path that finds room as on the one that splits pages;
`Query` and `Delete` return without a look at the stack.  Nothing here depends on
what the pages hold, so the accounts are kept over all answers that the
surroundings may give, and other threads may take steps in between.
-/

namespace AhaTree.Btree

open Lib (Program)
open Lib.Program (Nets nets_done nets_ask nets_bind nets_quiet nets_settled)

abbrev Event := Program.Event Ask Reply

/-- How often a page has been locked. -/
def locked (page : PageId) (log : List Event) : Nat :=
  log.countP (fun event => event.1 = .writeLock page)

def unlocked (page : PageId) (log : List Event) : Nat :=
  log.countP (fun event => event.1 = .writeUnlock page)

/-- The locks that an event adds to those on a page. -/
def weight (event : Event) (page : PageId) : ℤ :=
  match event.1 with
  | .writeLock id => if id = page then 1 else 0
  | .writeUnlock id => if id = page then -1 else 0
  | _ => 0

theorem net_eq (log : List Event) (page : PageId) :
    Program.net weight log page = locked page log - unlocked page log := by
  induction log with
  | nil => rfl
  | cons event log ih =>
      obtain ⟨ask, reply⟩ := event
      rw [Program.net, List.map_cons, List.sum_cons, ← Program.net, ih]
      cases ask with
      | writeLock id =>
          by_cases same : id = page
          · subst same
            simp [weight, locked, unlocked]
            ring
          · simp [weight, locked, unlocked, same]
      | writeUnlock id =>
          by_cases same : id = page
          · subst same
            simp [weight, locked, unlocked]
            ring
          · simp [weight, locked, unlocked, same]
      | _ => simp [weight, locked, unlocked]

/-! ## The pieces of the code -/

section Pieces

variable {α : Type} {gain : α → PageId → ℤ}

theorem nets_writeLock {id : PageId} {rest : Unit → Code α}
    (later : Nets weight (rest ())
      (fun result page => gain result page - if id = page then 1 else 0)) :
    Nets weight (writeLock id >>= rest) gain :=
  nets_ask (fun _ => later)

theorem nets_writeUnlock {id : PageId} {rest : Unit → Code α}
    (later : Nets weight (rest ())
      (fun result page => gain result page + if id = page then 1 else 0)) :
    Nets weight (writeUnlock id >>= rest) gain := by
  apply nets_ask
  intro answer
  apply later.congr
  intro result page
  simp only [weight]
  split
  · ring
  · ring

theorem nets_pin {id : PageId} {rest : Page → Code α}
    (later : ∀ page, Nets weight (rest page) gain) :
    Nets weight (pin id >>= rest) gain :=
  nets_quiet (fun _ _ => rfl) later

theorem nets_put {id : PageId} {page : Page} {rest : Unit → Code α}
    (later : Nets weight (rest ()) gain) : Nets weight (put id page >>= rest) gain :=
  nets_quiet (fun _ _ => rfl) (fun _ => later)

theorem nets_allocate {rest : PageId → Code α}
    (later : ∀ id, Nets weight (rest id) gain) :
    Nets weight (allocate >>= rest) gain :=
  nets_quiet (fun _ _ => rfl) later

theorem nets_allocateRoot {rest : PageId → Code α}
    (later : ∀ id, Nets weight (rest id) gain) :
    Nets weight (allocateRoot >>= rest) gain :=
  nets_quiet (fun _ _ => rfl) later

theorem nets_fail (failure : Failure) : Nets weight (fail failure : Code α) gain :=
  nets_ask (fun impossible => impossible.elim)

theorem nets_orAbort (outcome : Except Failure α) :
    Nets weight (orAbort outcome) (fun _ _ => 0) := by
  cases outcome with
  | ok result => exact nets_done (fun _ => rfl)
  | error failure => exact nets_fail failure

end Pieces

theorem nets_unlockParents (stack : List PageId) :
    Nets weight (unlockParents stack) (fun _ page => -(stack.count page : ℤ)) := by
  induction stack with
  | nil => exact nets_done (fun _ => rfl)
  | cons id stack ih =>
      rw [unlockParents]
      apply nets_writeUnlock
      apply ih.congr
      intro result page
      rw [List.count_cons]
      by_cases same : id = page
      · simp [same]
      · simp [same]

/-- The loop of `SearchDown` holds the locks on its stack, and no other. -/
theorem nets_searchLoop (key value : Slice) (ins : Bool) (fuel : Nat) (current : PageId)
    (page : Page) (stack : List PageId) :
    Nets weight (searchLoop key value ins fuel current page stack)
      (fun path id => (path.count id : ℤ) - stack.count id) := by
  induction fuel generalizing current page stack with
  | zero =>
      cases kind : page.items with
      | leaf items =>
          rw [searchLoop_leaf kind]
          exact nets_done (fun id => sub_self _)
      | index items =>
          rw [searchLoop_zero kind]
          exact nets_fail _
  | succ fuel ih =>
      cases kind : page.items with
      | leaf items =>
          rw [searchLoop_leaf kind]
          exact nets_done (fun id => sub_self _)
      | index items =>
          rw [searchLoop_succ kind]
          apply nets_settled
          · split
            · exact nets_put (nets_done (fun _ => rfl))
            · exact nets_done (fun _ => rfl)
          · intro _
            apply nets_writeLock
            apply nets_pin
            intro childPage
            split
            · apply nets_bind (nets_unlockParents stack)
              intro _
              apply (ih _ _ _).congr
              intro path id
              simp only [List.count_singleton, beq_iff_eq]
              split <;> push_cast <;> ring
            · apply (ih _ _ _).congr
              intro path id
              simp only [List.count_cons, beq_iff_eq]
              split <;> push_cast <;> ring

theorem nets_searchDown (fuel : Nat) (key value : Slice) (ins : Bool) :
    Nets weight (searchDown fuel key value ins) (fun path id => (path.count id : ℤ)) := by
  apply nets_writeLock
  apply nets_pin
  intro page
  apply (nets_searchLoop key value ins fuel rootPageId page [rootPageId]).congr
  intro path id
  simp [List.count_singleton]

theorem nets_tryInsertLeaf (id : PageId) (key value : Slice) :
    Nets weight (tryInsertLeaf id key value) (fun _ _ => 0) := by
  apply nets_pin
  intro page
  cases page.items with
  | index items => exact nets_fail _
  | leaf items =>
      simp only
      split
      · exact nets_done (fun _ => rfl)
      · apply nets_settled (nets_orAbort _)
        intro _
        exact nets_put (nets_done (fun _ => rfl))

/-- The new page is locked while it is filled. -/
theorem nets_insertAndSplitLeafPages (id : PageId) (key value : Slice) :
    Nets weight (insertAndSplitLeafPages id key value) (fun _ _ => 0) := by
  apply nets_pin
  intro page
  cases page.items with
  | index items => exact nets_fail _
  | leaf items =>
      apply nets_allocate
      intro child
      apply nets_writeLock
      apply nets_settled (nets_orAbort _)
      intro low
      apply nets_settled (nets_orAbort _)
      intro high
      apply nets_settled
      · split
        · exact nets_orAbort _
        · exact nets_done (fun _ => rfl)
      · intro low
        apply nets_settled
        · split
          · exact nets_done (fun _ => rfl)
          · exact nets_orAbort _
        · intro high
          apply nets_put
          apply nets_put
          apply nets_writeUnlock
          apply nets_done
          intro other
          ring

theorem nets_tryInsertInternal (id : PageId) (fresh : IndexItems) (old : PageId) :
    Nets weight (tryInsertInternal id fresh old) (fun _ _ => 0) := by
  apply nets_pin
  intro page
  cases page.items with
  | leaf items => exact nets_fail _
  | index items =>
      simp only
      split
      · exact nets_done (fun _ => rfl)
      · split
        · exact nets_fail _
        · apply nets_settled (nets_orAbort _)
          intro _
          exact nets_put (nets_done (fun _ => rfl))

theorem nets_insertAndSplitInternalPages (id old : PageId) (fresh : IndexItems) :
    Nets weight (insertAndSplitInternalPages id old fresh) (fun _ _ => 0) := by
  apply nets_pin
  intro page
  cases page.items with
  | leaf items => exact nets_fail _
  | index items =>
      simp only
      split
      · exact nets_fail _
      · apply nets_allocate
        intro child
        apply nets_settled (nets_orAbort _)
        intro low
        apply nets_settled (nets_orAbort _)
        intro high
        apply nets_settled
        · split
          · exact nets_orAbort _
          · exact nets_done (fun _ => rfl)
        · intro low
          apply nets_settled
          · split
            · exact nets_done (fun _ => rfl)
            · exact nets_orAbort _
          · intro high
            exact nets_put (nets_put (nets_done (fun _ => rfl)))

/-- The loop of `HandleOverflow` moves pages from one stack to the other. -/
theorem insertUpward_stacks (stack used : List PageId) (fresh : IndexItems)
    (obsolete : PageId) :
    Nets weight (insertUpward stack used fresh obsolete) (fun _ _ => 0) ∧
      ∀ log result, Program.Ends (insertUpward stack used fresh obsolete) log result →
        ∀ id, result.1.count id + result.2.1.count id = stack.count id + used.count id := by
  induction stack generalizing used fresh obsolete with
  | nil =>
      refine ⟨nets_done (fun _ => rfl), ?_⟩
      intro log result ended id
      obtain ⟨-, rfl⟩ := Program.Ends.done_iff.mp ended
      rfl
  | cons target stack ih =>
      rw [insertUpward]
      split
      · refine ⟨nets_done (fun _ => rfl), ?_⟩
        intro log result ended id
        obtain ⟨-, rfl⟩ := Program.Ends.done_iff.mp ended
        rfl
      · constructor
        · apply nets_settled (nets_tryInsertInternal target fresh obsolete)
          intro inserted
          apply nets_settled
          · split
            · exact nets_done (fun _ => rfl)
            · exact nets_insertAndSplitInternalPages target obsolete fresh
          · intro later
            exact (ih (target :: used) later target).1
        · intro log result ended id
          obtain ⟨_, inserted, _, -, -, ended⟩ := Program.Ends.bind_iff.mp ended
          obtain ⟨_, later, _, -, -, ended⟩ := Program.Ends.bind_iff.mp ended
          have moved := (ih (target :: used) later target).2 _ result ended id
          simp only [List.count_cons] at moved ⊢
          omega

theorem nets_splitRoot (fresh : IndexItems) :
    Nets weight (splitRoot fresh) (fun _ _ => 0) := by
  apply nets_allocateRoot
  intro newId
  apply nets_writeLock
  apply nets_pin
  intro low
  apply nets_put
  apply nets_pin
  intro high
  apply nets_put
  apply nets_pin
  intro root
  apply nets_settled (nets_orAbort _)
  intro items
  apply nets_put
  apply nets_writeUnlock
  apply nets_quiet (fun _ _ => rfl)
  intro _
  apply nets_done
  intro id
  ring

theorem nets_handleOverflow (target : PageId) (stack : List PageId) (key value : Slice) :
    Nets weight (handleOverflow target stack key value)
      (fun _ id => -((target :: stack).count id : ℤ)) := by
  apply nets_settled (nets_insertAndSplitLeafPages target key value)
  intro fresh log result ended id
  obtain ⟨first, ⟨left, used, waiting⟩, later, rfl, raised, ended⟩ :=
    Program.Ends.bind_iff.mp ended
  obtain ⟨quiet, moves⟩ := insertUpward_stacks stack [target] fresh target
  have none := quiet first _ raised id
  have moved := moves first _ raised id
  have released : Nets weight (do
      (if waiting = [] then pure () else splitRoot waiting : Code Unit)
      unlockParents left
      unlockParents used) (fun _ id => -(left.count id : ℤ) - used.count id) := by
    apply nets_settled
    · split
      · exact nets_done (fun _ => rfl)
      · exact nets_splitRoot waiting
    · intro _
      apply nets_bind (nets_unlockParents left)
      intro _
      apply (nets_unlockParents used).congr
      intro result id
      ring
  have last := released later result ended id
  rw [Program.net] at none last ⊢
  rw [List.map_append, List.sum_append, none, last]
  simp only [List.count_cons, List.count_nil] at moved ⊢
  omega

theorem nets_insertOnPath (key value : Slice) (path : List PageId) :
    Nets weight (insertOnPath key value path) (fun _ id => -(path.count id : ℤ)) := by
  cases path with
  | nil => exact nets_fail _
  | cons target stack =>
      apply nets_settled (nets_tryInsertLeaf target key value)
      intro inserted
      split
      · exact nets_unlockParents _
      · exact nets_handleOverflow target stack key value

theorem nets_insert (fuel : Nat) (key value : Slice) :
    Nets weight (insert fuel key value) (fun _ _ => 0) := by
  apply nets_bind (nets_searchDown fuel key value true)
  intro path
  apply nets_bind (nets_insertOnPath key value path)
  intro _
  apply nets_done
  intro id
  ring

/-! ## Calls that take turns -/

/-- The page is locked by the call with this log. -/
def Holds (page : PageId) (log : List Event) : Prop :=
  unlocked page log < locked page log

/-- What a call leaves of its locks when it has returned, in the state that the
calls have reached. -/
structure ReturnsLocks (log : List (Nat × Event)) (now : Nat → Code Answer) (turn : Nat) :
    Prop where
  balanced : ∀ page, unlocked page (Program.own turn log) = locked page (Program.own turn log)
  blocksNone : ∀ other page next, now other = .ask (.writeLock page) next →
    ¬ Holds page (Program.own turn log)

/-- The calls that change a value. -/
def Call.Writes : Call → Prop
  | .insert _ _ => True
  | .update _ _ => True
  | .query _ => False
  | .delete _ => False

/-- Without a look at the stack, the leaf on its top stays locked. -/
theorem leaks_of_search {fuel : Nat} {key value : Slice} {ins : Bool}
    {rest : List PageId → Code Answer} {log : List Event} {answer : Answer}
    (needsTop : rest [] = fail .emptyStack)
    (settled : ∀ id stack, Nets weight (rest (id :: stack)) (fun _ _ => 0))
    (ended : Program.Ends (searchDown fuel key value ins >>= rest) log answer) :
    ∃ page, Holds page log := by
  obtain ⟨first, path, later, rfl, searched, ended⟩ := Program.Ends.bind_iff.mp ended
  cases path with
  | nil =>
      rw [needsTop] at ended
      obtain ⟨impossible, -⟩ := Program.Ends.ask_iff.mp ended
      exact impossible.elim
  | cons id stack =>
      refine ⟨id, ?_⟩
      have taken := nets_searchDown fuel key value ins first _ searched id
      have kept := settled id stack later answer ended id
      rw [net_eq] at taken kept
      simp only [List.count_cons_self] at taken
      simp only [Holds, locked, unlocked, List.countP_append] at taken kept ⊢
      omega

theorem nets_queryLeaf (id : PageId) (key : Slice) :
    Nets weight (queryLeaf id key) (fun _ _ => 0) := by
  apply nets_pin
  intro page
  cases page.items with
  | index items => exact nets_fail _
  | leaf items =>
      apply nets_settled (nets_orAbort _)
      intro value
      split
      · exact nets_done (fun _ => rfl)
      · exact nets_done (fun _ => rfl)

theorem nets_deleteEntry (id : PageId) (key : Slice) :
    Nets weight (deleteEntry id key) (fun _ _ => 0) := by
  apply nets_pin
  intro page
  cases page.items with
  | index items => exact nets_fail _
  | leaf items =>
      simp only
      split
      · exact nets_done (fun _ => rfl)
      · exact nets_put (nets_done (fun _ => rfl))

theorem balanced_of_insert {fuel : Nat} {key value : Slice} {log : List Event}
    {answer : Answer} (ended : Program.Ends (insert fuel key value) log answer)
    (page : PageId) : unlocked page log = locked page log := by
  have settled := nets_insert fuel key value log answer ended page
  rw [net_eq] at settled
  exact Int.ofNat_inj.mp (sub_eq_zero.mp settled).symm

/-- A call has its locks back exactly if it is one that writes, whatever the pages
hold and whichever calls take steps in between. -/
theorem returnsLocks_iff (calls : Nat → Call) (fuels : Nat → Nat)
    {log : List (Nat × Event)} {now : Nat → Code Answer}
    (interleaved : Program.Interleaved (fun turn => (calls turn).code (fuels turn)) log now)
    {turn : Nat} {answer : Answer} (returned : now turn = .done answer) :
    ReturnsLocks log now turn ↔ (calls turn).Writes := by
  have ended : Program.Ends ((calls turn).code (fuels turn)) (Program.own turn log) answer := by
    rw [Program.Ends, ← returned]
    exact interleaved.after turn
  have fromBalance : (∀ page, unlocked page (Program.own turn log) =
      locked page (Program.own turn log)) → ReturnsLocks log now turn := by
    intro balanced
    refine ⟨balanced, ?_⟩
    intro other page next _ holds
    exact absurd (balanced page) (Nat.ne_of_lt holds)
  have leaking : (∃ page, Holds page (Program.own turn log)) → ¬ ReturnsLocks log now turn := by
    rintro ⟨page, holds⟩ returns
    exact absurd (returns.balanced page) (Nat.ne_of_lt holds)
  cases isCall : calls turn with
  | insert key value =>
      rw [isCall] at ended
      exact iff_of_true (fromBalance (balanced_of_insert ended)) True.intro
  | update key value =>
      rw [isCall] at ended
      exact iff_of_true (fromBalance (balanced_of_insert ended)) True.intro
  | query key =>
      rw [isCall] at ended
      exact iff_of_false (leaking (leaks_of_search rfl
        (fun id _ => nets_queryLeaf id key) ended)) id
  | delete key =>
      rw [isCall] at ended
      exact iff_of_false (leaking (leaks_of_search rfl
        (fun id _ => nets_deleteEntry id key) ended)) id

/-- A call that runs alone on a tree, before any other takes a step. -/
theorem interleaved_of_call {calls : Nat → Call} {fuels : Nat → Nat} {turn : Nat}
    {store after : Store} {answer : Answer}
    (ran : store.exec ((calls turn).code (fuels turn)) = .ok (answer, after)) :
    ∃ log now, Program.Interleaved (fun turn => (calls turn).code (fuels turn)) log now ∧
      now turn = .done answer ∧
      ∀ other, other ≠ turn → now other = (calls other).code (fuels other) := by
  obtain ⟨log, ended⟩ := Program.exists_ends_of_exec ran
  refine ⟨_, _, Program.Interleaved.alone .start turn ended, Function.update_self .., ?_⟩
  intro other different
  exact Function.update_of_ne different ..

/-- An insert into the empty tree. -/
theorem insert_returns_locks :
    ∃ log now, Program.Interleaved (fun _ : Nat => (Call.insert [0] [1]).code 1) log now ∧
      now 0 = .done .ok ∧ ReturnsLocks log now 0 := by
  obtain ⟨log, now, interleaved, returned, -⟩ := @interleaved_of_call
    (fun _ => .insert [0] [1]) (fun _ => 1) 0 Store.initial _ .ok rfl
  exact ⟨log, now, interleaved, returned,
    (returnsLocks_iff _ _ interleaved returned).mpr True.intro⟩

/-- The first call is a query, the others insert. -/
def queryFirst (turn : Nat) : Call :=
  if turn = 0 then .query [1] else .insert [2] [3]

/-- A query of the empty tree returns, and every later call waits for the lock on
the root that it has left. -/
theorem query_blocks_later_calls :
    ∃ log now, Program.Interleaved (fun turn => (queryFirst turn).code 1) log now ∧
      now 0 = .done .notFound ∧
      (∃ next, now 1 = .ask (.writeLock rootPageId) next) ∧
      Holds rootPageId (Program.own 0 log) ∧ ¬ ReturnsLocks log now 0 := by
  let root : Page := { pageInit with items := .leaf [] }
  have ended : Program.Ends ((queryFirst 0).code 1)
      [⟨.writeLock rootPageId, ()⟩, ⟨.pin rootPageId, root⟩, ⟨.pin rootPageId, root⟩]
      .notFound := by
    refine @Program.After.next Ask Reply _ (.writeLock rootPageId) _ () _ _ ?_
    refine @Program.After.next Ask Reply _ (.pin rootPageId) _ root _ _ ?_
    exact @Program.After.next Ask Reply _ (.pin rootPageId) _ root _ _ (.start _)
  have holds : Holds rootPageId (Program.own 0
      ([] ++ List.map (fun event => (0, event)) [⟨.writeLock rootPageId, ()⟩,
        ⟨.pin rootPageId, root⟩, ⟨.pin rootPageId, root⟩] : List (Nat × Event))) := by
    rw [List.nil_append, Program.own_map_same, Holds]
    decide
  refine ⟨_, _, Program.Interleaved.alone .start 0 ended, Function.update_self .., ⟨_, rfl⟩,
    holds, ?_⟩
  intro returns
  exact absurd (returns.balanced rootPageId) (Nat.ne_of_lt holds)

end AhaTree.Btree
