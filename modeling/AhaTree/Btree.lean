import AhaTree.BtreePage
import AhaTree.Lib.Program

/-!
# The B-tree

The operations of `btree.cc` as programs over pages and page locks.  A program
asks for a lock, for the contents of a page or for a new page, in the order of
the source; `Store` answers for a single thread, where every lock is free.
Pinning only keeps a page in memory and is not modelled beyond reading it.

The loop of `SearchDown` takes fuel: a call that finds no leaf in as many steps
ends with `loops`.
-/

namespace AhaTree.Btree

open Lib (Program)

inductive Ask where
  | writeLock (id : PageId)
  | writeUnlock (id : PageId)
  | pin (id : PageId)
  | put (id : PageId) (page : Page)
  | allocate
  | allocateRoot
  | heighten
  | fail (failure : Failure)
  deriving DecidableEq, Repr

def Reply : Ask → Type
  | .writeLock _ => Unit
  | .writeUnlock _ => Unit
  | .pin _ => Page
  | .put _ _ => Unit
  | .allocate => PageId
  | .allocateRoot => PageId
  | .heighten => Unit
  | .fail _ => Empty

abbrev Code := Program Ask Reply

def writeLock (id : PageId) : Code Unit := Program.perform (Ask.writeLock id)

def writeUnlock (id : PageId) : Code Unit := Program.perform (Ask.writeUnlock id)

def pin (id : PageId) : Code Page := Program.perform (Ask.pin id)

def put (id : PageId) (page : Page) : Code Unit := Program.perform (Ask.put id page)

def allocate : Code PageId := Program.perform Ask.allocate

/-- `AllocateRoot`: the root page moves to the new id and starts anew. -/
def allocateRoot : Code PageId := Program.perform Ask.allocateRoot

def heighten : Code Unit := Program.perform Ask.heighten

def fail {α : Type} (failure : Failure) : Code α :=
  .ask (.fail failure) (fun impossible => impossible.elim)

def orAbort {α : Type} : Except Failure α → Code α
  | .ok result => pure result
  | .error failure => fail failure

def rootPageId : PageId := 0

/-! ## Descent -/

/-- The stack has its top in front. -/
def unlockParents : List PageId → Code Unit
  | [] => pure ()
  | id :: stack => do
      writeUnlock id
      unlockParents stack

def safeNode (page : Page) (key value : Slice) : Bool :=
  match page.items with
  | .leaf _ => decide (leafSpace key value ≤ page.getFreeSpace)
  | .index _ => decide (key.length + 4 * itemIdSize ≤ page.getFreeSpace)

def mayUpdateHighkey (items : IndexItems) (key : Slice) : IndexItems :=
  if (Slice.compare (pageHighkey (pivots items)) key).isLT then pageUpdateHighkey items key
  else items

/-- `PageFindOffsetHighkey` and `PageReadChildAtOffset` on an index page. -/
def childFor (items : IndexItems) (key : Slice) : PageId :=
  pageReadChildAtOffset items (pageBinSearchHighkey (pivots items) key)

/-- The loop of `SearchDown`; `page` is the page at the top of the stack. -/
def searchLoop (key value : Slice) (ins : Bool) :
    Nat → PageId → Page → List PageId → Code (List PageId)
  | fuel, current, page, stack =>
      match page.items, fuel with
      | .leaf _, _ => pure stack
      | .index _, 0 => fail .loops
      | .index items, fuel + 1 => do
          let items := if ins then mayUpdateHighkey items key else items
          (if ins then put current { page with items := .index items } else pure () : Code Unit)
          let child := childFor items key
          writeLock child
          let childPage ← pin child
          if safeNode childPage key value then do
            unlockParents stack
            searchLoop key value ins fuel child childPage [child]
          else searchLoop key value ins fuel child childPage (child :: stack)

section SearchLoop

variable {key value : Slice} {ins : Bool} {fuel : Nat} {current : PageId} {page : Page}
  {stack : List PageId}

theorem searchLoop_leaf {items : LeafItems} (isLeaf : page.items = .leaf items) :
    searchLoop key value ins fuel current page stack = .done stack := by
  unfold searchLoop
  rw [isLeaf]
  rfl

theorem searchLoop_zero {items : IndexItems} (isIndex : page.items = .index items) :
    searchLoop key value ins 0 current page stack = fail .loops := by
  unfold searchLoop
  rw [isIndex]

theorem searchLoop_succ {items : IndexItems} (isIndex : page.items = .index items) :
    searchLoop key value ins (fuel + 1) current page stack = (do
      let items := if ins then mayUpdateHighkey items key else items
      (if ins then put current { page with items := .index items } else pure () : Code Unit)
      let child := childFor items key
      writeLock child
      let childPage ← pin child
      if safeNode childPage key value then do
        unlockParents stack
        searchLoop key value ins fuel child childPage [child]
      else searchLoop key value ins fuel child childPage (child :: stack)) := by
  rw [searchLoop.eq_def]
  simp only [isIndex]

end SearchLoop

/-- `SearchDown` from the root. -/
def searchDown (fuel : Nat) (key value : Slice) (ins : Bool) : Code (List PageId) := do
  writeLock rootPageId
  let page ← pin rootPageId
  searchLoop key value ins fuel rootPageId page [rootPageId]

/-! ## Inserting -/

def tryInsertLeaf (id : PageId) (key value : Slice) : Code Bool := do
  let page ← pin id
  match page.items with
  | .index _ => fail .wrongPage
  | .leaf items =>
      if leafFree items < leafSpace key value then pure false
      else do
        let items ← orAbort (pageInsertLeafEntry items key value)
        put id { page with items := .leaf items }
        pure true

/-- The pages that replace a page, each with its new pivot. -/
def insertAndSplitLeafPages (id : PageId) (key value : Slice) : Code IndexItems := do
  let page ← pin id
  match page.items with
  | .index _ => fail .wrongPage
  | .leaf items => do
      let middle := items.length / 2
      let belongLow :=
        (Slice.compare key (pageReadPivotAtOffset (leafKeys items) middle)).isLT
      let child ← allocate
      writeLock child
      let low ← orAbort (pageMoveLeafEntries items [] 0 middle)
      let high ← orAbort (pageMoveLeafEntries items [] middle items.length)
      let low ← (if belongLow then orAbort (pageInsertLeafEntry low key value) else pure low)
      let high ←
        (if belongLow then pure high else orAbort (pageInsertLeafEntry high key value))
      put id { items := .leaf low, left := 0, right := child }
      put child { items := .leaf high, left := 0, right := page.right }
      writeUnlock child
      pure [(pageHighkey (leafKeys low), id), (pageHighkey (leafKeys high), child)]

/-- One pivot goes and two come, so there must be space for one more. -/
def tryInsertInternal (id : PageId) (fresh : IndexItems) (old : PageId) : Code Bool := do
  let page ← pin id
  match page.items with
  | .leaf _ => fail .wrongPage
  | .index items =>
      let space := (pageReadPivotAtOffset (pivots fresh) 0).length + 4 * itemIdSize
      if indexFree items < space then pure false
      else
        match pageGetOffsetByChild items old with
        | none => fail .lostChild
        | some offset => do
            let items ← orAbort (pageInsertIndexEntries (items.eraseIdx offset) fresh)
            put id { page with items := .index items }
            pure true

def insertAndSplitInternalPages (id old : PageId) (fresh : IndexItems) : Code IndexItems := do
  let page ← pin id
  match page.items with
  | .leaf _ => fail .wrongPage
  | .index items =>
      match pageGetOffsetByChild items old with
      | none => fail .lostChild
      | some offset => do
          let rest := items.eraseIdx offset
          let middle := rest.length / 2
          let belongLow := decide (offset < middle)
          let child ← allocate
          let low ← orAbort (pageMoveIndexEntries rest [] 0 middle)
          let high ← orAbort (pageMoveIndexEntries rest [] middle rest.length)
          let low ← (if belongLow then orAbort (pageInsertIndexEntries low fresh) else pure low)
          let high ←
            (if belongLow then pure high else orAbort (pageInsertIndexEntries high fresh))
          put id { pageInit with items := .index low }
          put child { pageInit with items := .index high }
          pure [(pageHighkey (pivots low), id), (pageHighkey (pivots high), child)]

/-- The loop of `HandleOverflow`: what is left of the stack, the pages it has
used and the new pages that wait for a parent. -/
def insertUpward : List PageId → List PageId → IndexItems → PageId →
    Code (List PageId × List PageId × IndexItems)
  | [], used, fresh, _ => pure ([], used, fresh)
  | target :: stack, used, fresh, obsolete =>
      if fresh = [] then pure (target :: stack, used, fresh)
      else do
        let inserted ← tryInsertInternal target fresh obsolete
        let fresh ← (if inserted then pure []
          else insertAndSplitInternalPages target obsolete fresh)
        insertUpward stack (target :: used) fresh target

/-- The root has split: its old page gets a new id, and the root page two
children. -/
def splitRoot (fresh : IndexItems) : Code Unit := do
  let newId ← allocateRoot
  writeLock newId
  let low ← pin newId
  let highId := pageReadChildAtOffset fresh 1
  put newId { low with right := highId }
  let high ← pin highId
  put highId { high with left := newId }
  let root ← pin rootPageId
  let items ← orAbort (pageInsertIndexEntries []
    [(pageReadPivotAtOffset (pivots fresh) 0, newId),
      (pageReadPivotAtOffset (pivots fresh) 1, highId)])
  put rootPageId { root with items := .index items }
  writeUnlock newId
  heighten

def handleOverflow (target : PageId) (stack : List PageId) (key value : Slice) :
    Code Unit := do
  let fresh ← insertAndSplitLeafPages target key value
  let (left, used, fresh) ← insertUpward stack [target] fresh target
  (if fresh = [] then pure () else splitRoot fresh : Code Unit)
  unlockParents left
  unlockParents used

/-! ## The operations -/

/-- What `Insert` does on the path that `SearchDown` has left locked. -/
def insertOnPath (key value : Slice) : List PageId → Code Unit
  | [] => fail .emptyStack
  | target :: stack => do
      let inserted ← tryInsertLeaf target key value
      if inserted then unlockParents (target :: stack)
      else handleOverflow target stack key value

/-- The status that a call returns, with the value of a query. -/
inductive Answer where
  | ok
  | found (value : Slice)
  | notFound
  deriving DecidableEq, Repr

def insert (fuel : Nat) (key value : Slice) : Code Answer := do
  let path ← searchDown fuel key value true
  insertOnPath key value path
  pure .ok

def update (fuel : Nat) (key value : Slice) : Code Answer :=
  insert fuel key value

def queryLeaf (id : PageId) (key : Slice) : Code Answer := do
  let page ← pin id
  match page.items with
  | .index _ => fail .wrongPage
  | .leaf items => do
      let value ← orAbort (getValueWithKey items key)
      if value.length = 0 then pure .notFound else pure (.found value)

def query (fuel : Nat) (key : Slice) : Code Answer := do
  let path ← searchDown fuel key [] false
  match path with
  | [] => fail .emptyStack
  | id :: _ => queryLeaf id key

def deleteEntry (id : PageId) (key : Slice) : Code Answer := do
  let page ← pin id
  match page.items with
  | .index _ => fail .wrongPage
  | .leaf items =>
      match pageRemoveEntry items key with
      | none => pure .notFound
      | some items => do
          put id { page with items := .leaf items }
          pure .ok

def delete (fuel : Nat) (key : Slice) : Code Answer := do
  let path ← searchDown fuel key [] false
  match path with
  | [] => fail .emptyStack
  | id :: _ => deleteEntry id key

inductive Call where
  | insert (key value : Slice)
  | update (key value : Slice)
  | query (key : Slice)
  | delete (key : Slice)
  deriving DecidableEq, Repr

def Call.code (fuel : Nat) : Call → Code Answer
  | .insert key value => Btree.insert fuel key value
  | .update key value => Btree.update fuel key value
  | .query key => Btree.query fuel key
  | .delete key => Btree.delete fuel key

/-! ## A single thread -/

structure Store where
  pages : PageId → Page
  newId : PageId
  treeHeight : Nat

namespace Store

/-- The constructor of `Btree`. -/
def initial : Store where
  pages := fun id => if id = rootPageId then { pageInit with items := .leaf [] } else pageInit
  newId := 1
  treeHeight := 1

def write (store : Store) (id : PageId) (page : Page) : Store :=
  { store with pages := Function.update store.pages id page }

def allocated (store : Store) : Store where
  pages := Function.update store.pages store.newId pageInit
  newId := store.newId + 1
  treeHeight := store.treeHeight

def rootMoved (store : Store) : Store where
  pages := Function.update
    (Function.update store.pages store.newId (store.pages rootPageId)) rootPageId pageInit
  newId := store.newId + 1
  treeHeight := store.treeHeight

def reply : (ask : Ask) → Store → Except Failure (Reply ask × Store)
  | .writeLock _, store => .ok ((), store)
  | .writeUnlock _, store => .ok ((), store)
  | .pin id, store => .ok (store.pages id, store)
  | .put id page, store => .ok ((), store.write id page)
  | .allocate, store => .ok (store.newId, store.allocated)
  | .allocateRoot, store => .ok (store.newId, store.rootMoved)
  | .heighten, store => .ok ((), { store with treeHeight := store.treeHeight + 1 })
  | .fail failure, _ => .error failure

/-- Run a piece of the code alone. -/
def exec {α : Type} (code : Code α) (store : Store) : Except Failure (α × Store) :=
  Program.exec reply code store

def call (call : Call) (store : Store) : Except Failure (Answer × Store) :=
  exec (call.code store.treeHeight) store

section Exec

variable {α β : Type} (store : Store)

@[simp] theorem exec_done (result : α) :
    exec (.done result) store = .ok (result, store) := rfl

@[simp] theorem exec_writeLock (id : PageId) (rest : Unit → Code α) :
    exec (writeLock id >>= rest) store = exec (rest ()) store := rfl

@[simp] theorem exec_writeUnlock (id : PageId) (rest : Unit → Code α) :
    exec (writeUnlock id >>= rest) store = exec (rest ()) store := rfl

@[simp] theorem exec_pin (id : PageId) (rest : Page → Code α) :
    exec (pin id >>= rest) store = exec (rest (store.pages id)) store := rfl

theorem exec_searchDown (fuel : Nat) (key value : Slice) (ins : Bool)
    (rest : List PageId → Code α) :
    exec (searchDown fuel key value ins >>= rest) store =
      exec (searchLoop key value ins fuel rootPageId (store.pages rootPageId) [rootPageId] >>=
        rest) store := by
  rw [searchDown]
  simp only [Lib.Program.bind_assoc, exec_writeLock, exec_pin]

@[simp] theorem exec_put (id : PageId) (page : Page) (rest : Unit → Code α) :
    exec (put id page >>= rest) store = exec (rest ()) (store.write id page) := rfl

@[simp] theorem exec_allocate (rest : PageId → Code α) :
    exec (allocate >>= rest) store = exec (rest store.newId) store.allocated := rfl

@[simp] theorem exec_allocateRoot (rest : PageId → Code α) :
    exec (allocateRoot >>= rest) store = exec (rest store.newId) store.rootMoved := rfl

@[simp] theorem exec_heighten :
    exec heighten store = .ok ((), { store with treeHeight := store.treeHeight + 1 }) := rfl

@[simp] theorem exec_fail (failure : Failure) :
    exec (fail failure : Code α) store = .error failure := rfl

theorem exec_orAbort_error (failure : Failure) (rest : α → Code β) :
    exec (orAbort (.error failure) >>= rest) store = .error failure := rfl

theorem exec_orAbort_ok (result : α) (rest : α → Code β) :
    exec (orAbort (.ok result) >>= rest) store = exec (rest result) store := rfl

@[simp] theorem exec_unlockParents (stack : List PageId) (rest : Unit → Code α) :
    exec (unlockParents stack >>= rest) store = exec (rest ()) store := by
  induction stack with
  | nil => rfl
  | cons id stack ih =>
      rw [unlockParents, Program.bind_assoc, exec_writeUnlock, ih]

@[simp] theorem exec_unlockParents_last (stack : List PageId) :
    exec (unlockParents stack) store = .ok ((), store) := by
  induction stack with
  | nil => rfl
  | cons id stack ih => rw [unlockParents, exec_writeUnlock, ih]

variable {store}

theorem exec_bind_ok {code : Code α} {rest : α → Code β} {result : α} {after : Store}
    (ran : exec code store = .ok (result, after)) :
    exec (code >>= rest) store = exec (rest result) after :=
  Program.exec_bind_ok ran

theorem exec_bind_error {code : Code α} {rest : α → Code β} {failure : Failure}
    (failed : exec code store = .error failure) :
    exec (code >>= rest) store = .error failure :=
  Program.exec_bind_error failed

end Exec

section Fields

variable (store : Store) (id : PageId) (page : Page)

@[simp] theorem write_newId : (store.write id page).newId = store.newId := rfl

@[simp] theorem write_treeHeight : (store.write id page).treeHeight = store.treeHeight := rfl

@[simp] theorem write_pages_self : (store.write id page).pages id = page :=
  Function.update_self ..

theorem write_pages_of_ne {other : PageId} (different : other ≠ id) :
    (store.write id page).pages other = store.pages other :=
  Function.update_of_ne different ..

@[simp] theorem allocated_newId : store.allocated.newId = store.newId + 1 := rfl

@[simp] theorem allocated_treeHeight : store.allocated.treeHeight = store.treeHeight := rfl

theorem allocated_pages {other : PageId} (used : other < store.newId) :
    store.allocated.pages other = store.pages other :=
  Function.update_of_ne used.ne ..

end Fields

/-- The calls in turn, with their answers. -/
def run : List Call → Store → Except Failure (List Answer × Store)
  | [], store => .ok ([], store)
  | first :: rest, store =>
      match store.call first with
      | .error failure => .error failure
      | .ok (answer, after) =>
          match run rest after with
          | .error failure => .error failure
          | .ok (answers, last) => .ok (answer :: answers, last)

end Store

end AhaTree.Btree
