import AhaTree.Lib.Program
import AhaTree.NodePage

/-!
# The B-tree with optimistic locks

The operations of `btree_olc.h` as programs.  A page has a word that counts its
versions and says whether it is locked; a program reads pages without a lock and
looks afterwards whether the word is still the one it has seen.  Every reading of
a page is a question of its own, for another thread may have changed the page
since the last one; this goes for the bytes that a slice into a page refers to as
well.  Pinning only keeps a page in memory and is left out, and so is the comparison
of the root's `page_id_` with the root id, which it never loses.

An attempt ends with `none` where the source goes back to `restart`.  The loops
take fuel: `loops` ends what has not come to an end in as many steps.
-/

namespace AhaTree.Olc

open Lib (Program)

/-! ## Version words -/

abbrev Version := Nat

def isLocked (version : Version) : Bool := decide (version / 2 % 2 = 1)

def isObsolete (version : Version) : Bool := decide (version % 2 = 1)

/-- `ReadLockOrRestart` goes on with this version. -/
def Readable (version : Version) : Prop :=
  isLocked version = false ∧ isObsolete version = false

instance (version : Version) : Decidable (Readable version) :=
  inferInstanceAs (Decidable (_ ∧ _))

/-! ## Questions -/

/-- A slice into a page, with the bytes it referred to when it was made. -/
structure Pointed where
  page : PageId
  bytes : Slice
  deriving DecidableEq, Repr

inductive Ask where
  | readLock (id : PageId)
  | check (id : PageId)
  | upgrade (id : PageId) (version : Version)
  | writeUnlock (id : PageId)
  | read (id : PageId)
  | load (slice : Pointed)
  | write (id : PageId) (node : Node)
  | allocate
  | allocateRoot
  | heighten
  | collect (key value : Slice)
  | restart
  | fail (failure : Failure)
  deriving DecidableEq, Repr

def Reply : Ask → Type
  | .readLock _ => Version
  | .check _ => Version
  | .upgrade _ _ => Bool
  | .writeUnlock _ => Unit
  | .read _ => Node
  | .load _ => Slice
  | .write _ _ => Unit
  | .allocate => PageId
  | .allocateRoot => PageId
  | .heighten => Unit
  | .collect _ _ => Unit
  | .restart => Unit
  | .fail _ => Empty

abbrev Code := Program Ask Reply

/-- The word of a page, as `ReadLockOrRestart` loads it. -/
def readLock (id : PageId) : Code Version := Program.perform (Ask.readLock id)

/-- The word of a page, as `ReadUnlockOrRestart` loads it to compare it. -/
def check (id : PageId) : Code Version := Program.perform (Ask.check id)

/-- `UpgradeToWriteLockOrRestart`: whether the word was still this one. -/
def upgrade (id : PageId) (version : Version) : Code Bool :=
  Program.perform (Ask.upgrade id version)

def writeUnlock (id : PageId) : Code Unit := Program.perform (Ask.writeUnlock id)

def read (id : PageId) : Code Node := Program.perform (Ask.read id)

def write (id : PageId) (node : Node) : Code Unit := Program.perform (Ask.write id node)

/-- `Allocate`: a new page, as `PageInit` leaves it. -/
def allocate : Code PageId := Program.perform Ask.allocate

/-- `AllocateRoot`: the root page moves to a new id and starts anew. -/
def allocateRoot : Code PageId := Program.perform Ask.allocateRoot

def heighten : Code Unit := Program.perform Ask.heighten

/-- `results.push_back`, which only the scan itself sees. -/
def collect (key value : Slice) : Code Unit := Program.perform (Ask.collect key value)

/-- `yield`, on the way back to `restart`. -/
def restart : Code Unit := Program.perform Ask.restart

def fail {α : Type} (failure : Failure) : Code α :=
  .ask (.fail failure) (fun impossible => impossible.elim)

def orAbort {α : Type} : Except Failure α → Code α
  | .ok result => pure result
  | .error failure => fail failure

def loadBytes (slice : Pointed) : Code Slice := Program.perform (Ask.load slice)

/-- The bytes that a slice refers to now.  An empty slice refers to none. -/
def load (slice : Pointed) : Code Slice :=
  if slice.bytes.length = 0 then pure [] else loadBytes slice

/-- `NewPivot`: a copy in the arena, which asserts that it is not asked for zero
bytes. -/
def newPivot (slice : Pointed) : Code Slice :=
  if slice.bytes.length = 0 then fail .zeroBytes else loadBytes slice

def rootPageId : PageId := 0

/-- A page with the version under which a thread reads it. -/
structure Held where
  id : PageId
  version : Version
  deriving DecidableEq, Repr

/-- `ReadUnlockOrRestart` on a parent, which the root page does not have. -/
def parentUnchanged : Option Held → Code Bool
  | none => pure true
  | some parent => do
      let version ← check parent.id
      pure (decide (version = parent.version))

/-- `PageReadChildAt` at `PageLowerBound`. -/
def readChild (id : PageId) (key : Slice) : Code PageId := do
  let node ← read id
  let position := pageLowerBound node key
  let node ← read id
  pure (pageReadChildAt node position)

/-! ## Splitting -/

/-- When the left page is the root, `MakeRoot` connects the leaves later. -/
def buildSiblingConn (left right : PageId) : Code Unit :=
  if left = 0 then do
    let node ← read right
    write right { node with left := 0 }
  else if right = 0 then do
    let node ← read left
    write left { node with right := 0 }
  else do
    let leftNode ← read left
    let rightNode ← read right
    write right { rightNode with right := leftNode.right }
    write left { leftNode with right := right }
    let rightNode ← read right
    write right { rightNode with left := left }

def splitLeafNode (id : PageId) : Code (Slice × PageId) := do
  let child ← allocate
  let node ← read id
  match node.content with
  | .inner _ _ => fail .garbage
  | .leaf items => do
      let separator ← newPivot ⟨id, getLeafPageSplitSep items⟩
      let (kept, moved) ← orAbort (leafPageSplit items)
      write child { pageInit with content := .leaf moved.1, free := moved.2 }
      write id { node with content := .leaf kept.1, free := kept.2 }
      buildSiblingConn id child
      pure (separator, child)

def splitInnerNode (id : PageId) : Code (Slice × PageId) := do
  let child ← allocate
  let node ← read id
  match node.content with
  | .leaf _ => fail .garbage
  | .inner first items => do
      let separator ← newPivot ⟨id, getInnerPageSplitSep items⟩
      let (kept, moved) ← orAbort (innerPageSplit first items)
      write child { pageInit with content := moved.1, free := moved.2 }
      write id { node with content := kept.1, free := kept.2 }
      pure (separator, child)

/-- The root has split: its old page gets a new id, and the root page two children. -/
def makeRoot (separator : Slice) (rootSibling : PageId) : Code Unit := do
  let newId ← allocateRoot
  let left ← read newId
  (if left.isLeaf then buildSiblingConn newId rootSibling else pure () : Code Unit)
  let root ← read rootPageId
  let (content, free) ← orAbort (pageInsertFirstPivotPair separator newId rootSibling)
  write rootPageId { root with content := content, free := free }
  heighten

def insertPivotPair (id : PageId) (key : Slice) (child : PageId) : Code Unit := do
  let node ← read id
  match node.content with
  | .leaf _ => fail .garbage
  | .inner first items => do
      let (items, free) ← orAbort (pageInsertPivotPair (items, node.free) key child)
      write id { node with content := .inner first items, free := free }

/-- A full page is split under the locks of its parent and its own, in this order. -/
def splitFull (split : PageId → Code (Slice × PageId)) (current : Held) (parent : Option Held) :
    Code Unit := do
  let parentLocked ← (match parent with
    | none => pure true
    | some parent => upgrade parent.id parent.version)
  if parentLocked then do
    let locked ← upgrade current.id current.version
    if locked then do
      let (separator, child) ← split current.id
      match parent with
      | none => makeRoot separator child
      | some parent => insertPivotPair parent.id separator child
      writeUnlock current.id
      match parent with
      | none => pure ()
      | some parent => writeUnlock parent.id
    else
      match parent with
      | none => pure ()
      | some parent => writeUnlock parent.id
  else pure ()

/-! ## Inserting -/

def insertKvpair (id : PageId) (key value : Slice) : Code Unit := do
  let node ← read id
  match node.content with
  | .inner _ _ => fail .garbage
  | .leaf items => do
      let (items, free) ← orAbort (pageInsertKvpair (items, node.free) key value)
      write id { node with content := .leaf items, free := free }

/-- At a leaf: whether the entry has been inserted. -/
def insertAtLeaf (key value : Slice) (current : Held) (parent : Option Held) : Code Bool := do
  let node ← read current.id
  if leafPageIsFull node key value then do
    splitFull splitLeafNode current parent
    pure false
  else do
    let locked ← upgrade current.id current.version
    if locked then do
      let unchanged ← parentUnchanged parent
      if unchanged then do
        insertKvpair current.id key value
        writeUnlock current.id
        pure true
      else do
        writeUnlock current.id
        pure false
    else pure false

/-- The way down from a page; full internal pages are split on it. -/
def insertLoop (key value : Slice) : Nat → Held → Option Held → Code Bool
  | fuel, current, parent => do
      let node ← read current.id
      if node.isLeaf then insertAtLeaf key value current parent
      else
        match fuel with
        | 0 => fail .loops
        | fuel + 1 => do
            let node ← read current.id
            if innerPageIsFull node key then do
              splitFull splitInnerNode current parent
              pure false
            else do
              let unchanged ← parentUnchanged parent
              if unchanged then do
                let child ← readChild current.id key
                let version ← check current.id
                if version = current.version then do
                  let childVersion ← readLock child
                  if Readable childVersion then
                    insertLoop key value fuel ⟨child, childVersion⟩ (some current)
                  else pure false
                else pure false
              else pure false

def insertAttempt (fuel : Nat) (key value : Slice) : Code Bool := do
  let version ← readLock rootPageId
  if Readable version then insertLoop key value fuel ⟨rootPageId, version⟩ none
  else pure false

/-- `Insert`, and `Update` as well. -/
def insert (fuel : Nat) (key value : Slice) : Nat → Code Unit
  | 0 => fail .loops
  | attempts + 1 => do
      let inserted ← insertAttempt fuel key value
      if inserted then pure ()
      else do
        restart
        insert fuel key value attempts

/-! ## Reading -/

/-- The way down to a leaf, which comes back with its parent. -/
def descend (key : Slice) : Nat → Held → Option Held → Code (Option (Held × Option Held))
  | fuel, current, parent => do
      let node ← read current.id
      if node.isLeaf then pure (some (current, parent))
      else
        match fuel with
        | 0 => fail .loops
        | fuel + 1 => do
            let unchanged ← parentUnchanged parent
            if unchanged then do
              let child ← readChild current.id key
              let version ← check current.id
              if version = current.version then do
                let childVersion ← readLock child
                if Readable childVersion then
                  descend key fuel ⟨child, childVersion⟩ (some current)
                else pure none
              else pure none
            else pure none

def descendFromRoot (fuel : Nat) (key : Slice) : Code (Option (Held × Option Held)) := do
  let version ← readLock rootPageId
  if Readable version then descend key fuel ⟨rootPageId, version⟩ none
  else pure none

/-- The value of the key on a leaf. -/
def readValue (id : PageId) (key : Slice) : Code (Option Slice) := do
  let node ← read id
  let position := (pageLowerBound node key + 1).toNat
  let node ← read id
  if position < node.itemNum then do
    let node ← read id
    let found ← load ⟨id, pageReadKeyAtOffset node position⟩
    if (Slice.compare found key).isEq then do
      let node ← read id
      let value ← newPivot ⟨id, pageReadValAt node position⟩
      pure (some value)
    else pure none
  else pure none

/-- `none` is a restart, and `some none` is `NotFound`. -/
def queryAttempt (fuel : Nat) (key : Slice) : Code (Option (Option Slice)) := do
  let found ← descendFromRoot fuel key
  match found with
  | none => pure none
  | some (leaf, parent) => do
      let value ← readValue leaf.id key
      let unchanged ← parentUnchanged parent
      if unchanged then do
        let version ← check leaf.id
        if version = leaf.version then pure (some value) else pure none
      else pure none

def query (fuel : Nat) (key : Slice) : Nat → Code (Option Slice)
  | 0 => fail .loops
  | attempts + 1 => do
      let answer ← queryAttempt fuel key
      match answer with
      | some value => pure value
      | none => do
          restart
          query fuel key attempts

/-! ## Scanning -/

/-- How an attempt of a scan ends, with what has been collected so far. -/
inductive Outcome where
  | returned (results : LeafItems)
  | restarted (results : LeafItems)
  deriving DecidableEq, Repr

/-- The loop over the entries of a leaf, for so many more of them.  `current` is
`cur_key`, a slice into the page. -/
def collectEntries (id : PageId) (up : Slice) :
    Nat → Nat → Pointed → LeafItems → Code (Pointed × LeafItems)
  | 0, _, current, results => pure (current, results)
  | count + 1, position, _, results => do
      let node ← read id
      let current : Pointed := ⟨id, pageReadKeyAtOffset node position⟩
      let compared ← load current
      if up < compared then pure (current, results)
      else do
        let node ← read id
        let key ← newPivot current
        let value ← newPivot ⟨id, pageReadValAt node position⟩
        collect key value
        collectEntries id up count (position + 1) current (results ++ [(key, value)])

/-- The loop over the leaves.  On the way to a sibling `current` still refers to the
leaf that has been checked and unpinned. -/
def scanLeaves (up : Slice) : Nat → Held → Nat → Pointed → LeafItems → Code Outcome
  | fuel, leaf, position, current, results => do
      let compared ← load current
      if up < compared then pure (.returned results)
      else
        match fuel with
        | 0 => fail .loops
        | fuel + 1 => do
            let node ← read leaf.id
            let (current, results) ←
              collectEntries leaf.id up (node.itemNum - position) position current results
            let node ← read leaf.id
            let sibling := node.right
            let compared ← load current
            if up < compared ∨ sibling = 0 then do
              let version ← check leaf.id
              if version = leaf.version then pure (.returned results)
              else pure (.restarted results)
            else do
              -- a locked sibling sets `need_restart`, but the next check assigns it again
              let siblingVersion ← readLock sibling
              let version ← check leaf.id
              if version = leaf.version then
                scanLeaves up fuel ⟨sibling, siblingVersion⟩ 0 current results
              else pure (.restarted results)

/-- The first leaf, with the offset and the key at which the scan starts. -/
def scanStart (fuel : Nat) (low : Slice) : Code (Option (Held × Nat × Pointed)) := do
  let found ← descendFromRoot fuel low
  match found with
  | none => pure none
  | some (leaf, parent) => do
      let unchanged ← parentUnchanged parent
      if unchanged then do
        let node ← read leaf.id
        let position := (pageLowerBound node low + 1).toNat
        let node ← read leaf.id
        pure (some (leaf, position, ⟨leaf.id, pageReadKeyAtOffset node position⟩))
      else pure none

def scanAttempt (fuel : Nat) (low up : Slice) (results : LeafItems) : Code Outcome := do
  let start ← scanStart fuel low
  match start with
  | none => pure (.restarted results)
  | some (leaf, position, current) => scanLeaves up fuel leaf position current results

/-- `BtreeOLCScanIterator`: what has been collected survives a restart. -/
def scan (fuel : Nat) (low up : Slice) : Nat → LeafItems → Code LeafItems
  | 0, _ => fail .loops
  | attempts + 1, results => do
      let outcome ← scanAttempt fuel low up results
      match outcome with
      | .returned results => pure results
      | .restarted results => do
          restart
          scan fuel low up attempts results

/-! ## Calls -/

inductive Call where
  | insert (key value : Slice)
  | query (key : Slice)
  | scan (low up : Slice)
  deriving DecidableEq, Repr

inductive Answer where
  | ok
  | value (found : Option Slice)
  | entries (results : LeafItems)
  deriving DecidableEq, Repr

/-- The code of a call, with fuel for one attempt and for the number of attempts. -/
def Call.code (fuel attempts : Nat) : Call → Code Answer
  | .insert key value => do
      Olc.insert fuel key value attempts
      pure .ok
  | .query key => do
      let found ← Olc.query fuel key attempts
      pure (.value found)
  | .scan low up => do
      let results ← Olc.scan fuel low up attempts []
      pure (.entries results)

/-! ## The pages in memory -/

structure Store where
  pages : PageId → Node
  words : PageId → Version
  newId : PageId
  treeHeight : Nat

namespace Store

/-- The word of a page whose memory has been cleared; `PageInit` does not set it. -/
def clearedWord : Version := 0

/-- `ClearLock`, which only the copy of the root page gets. -/
def clearLock : Version := 4

def initial : Store where
  pages := fun id => if id = rootPageId then { pageInit with content := .leaf [] } else pageInit
  words := fun _ => clearedWord
  newId := 1
  treeHeight := 1

def setPage (store : Store) (id : PageId) (node : Node) : Store :=
  { store with pages := Function.update store.pages id node }

def setWord (store : Store) (id : PageId) (version : Version) : Store :=
  { store with words := Function.update store.words id version }

/-- A new page with these contents and this word. -/
def grown (store : Store) (node : Node) (word : Version) : Store where
  pages := Function.update store.pages store.newId node
  words := Function.update store.words store.newId word
  newId := store.newId + 1
  treeHeight := store.treeHeight

/-- What a step of a thread returns and leaves.  Calls run here one after the other,
so that a slice still refers to the bytes it was made for. -/
def reply : (question : Ask) → Store → Except Failure (Reply question × Store)
  | .readLock id, store => .ok (store.words id, store)
  | .check id, store => .ok (store.words id, store)
  | .upgrade id version, store =>
      if store.words id = version then .ok (true, store.setWord id (version + 2))
      else .ok (false, store)
  | .writeUnlock id, store => .ok ((), store.setWord id (store.words id + 2))
  | .read id, store => .ok (store.pages id, store)
  | .load slice, store => .ok (slice.bytes, store)
  | .write id node, store => .ok ((), store.setPage id node)
  | .allocate, store => .ok (store.newId, store.grown pageInit clearedWord)
  | .allocateRoot, store =>
      .ok (store.newId,
        (store.grown (store.pages rootPageId) clearLock).setPage rootPageId pageInit)
  | .heighten, store => .ok ((), { store with treeHeight := store.treeHeight + 1 })
  | .collect _ _, store => .ok ((), store)
  | .restart, store => .ok ((), store)
  | .fail failure, _ => .error failure

end Store

end AhaTree.Olc
