import AhaTree.Lib.Run
import Mathlib.Logic.Function.Basic
import Mathlib.Algebra.GroupWithZero.Nat

/-!
# The lock manager

`TreeLockManager` makes the lock of a page when it is first asked for and deletes
it when the last thread has let go of it.  A step is a critical section of the
table's mutex or of a lock's mutex, or an access that is made under neither.  A
wait for the condition variable may end at any time, and the condition is then
looked at again.  The counters are natural numbers: they have 32 bits, and a
thread has few locks.
-/

namespace AhaTree.LockManager

open Lib (Reaches)

/-! ## One lock -/

/-- A `NodeLock`.  `birth` tells it from others that have had its address. -/
structure NodeLock where
  nodeId : Int
  readCount : Nat
  readWait : Nat
  writeWait : Nat
  writeActive : Bool
  birth : Nat
  deriving DecidableEq, Repr

/-- How a critical section of a lock ends. -/
inductive Outcome where
  /-- In `cv_.Wait()`, with the mutex released. -/
  | waits
  /-- An assertion fails. -/
  | fails
  | done (lock : NodeLock)
  deriving DecidableEq, Repr

namespace NodeLock

def hasWrite (lock : NodeLock) : Bool := lock.writeActive || decide (0 < lock.writeWait)

/-- `TryReadLock` with the mutex: the lock, and whether it is now read. -/
def tryReadLock (lock : NodeLock) : NodeLock × Bool :=
  if lock.hasWrite then (lock, false)
  else ({ lock with readCount := lock.readCount + 1 }, true)

def readLock (lock : NodeLock) : Outcome :=
  if lock.hasWrite then .waits
  else if 0 < lock.readWait then
    .done { lock with readWait := lock.readWait - 1, readCount := lock.readCount + 1 }
  else .fails

def escalateLock (lock : NodeLock) : Outcome :=
  if 1 < lock.readCount ∨ lock.writeActive then .waits
  else if 0 < lock.writeWait ∧ lock.readCount = 1 then
    .done { lock with writeWait := lock.writeWait - 1, writeActive := true }
  else .fails

def readUnlock (lock : NodeLock) : Outcome :=
  if 0 < lock.readCount then .done { lock with readCount := lock.readCount - 1 }
  else .fails

def writeLock (lock : NodeLock) : Outcome :=
  if 0 < lock.readCount ∨ lock.writeActive then .waits
  else if 0 < lock.writeWait then
    .done { lock with writeWait := lock.writeWait - 1, writeActive := true }
  else .fails

def alleviateLock (lock : NodeLock) : Outcome :=
  if lock.writeActive ∧ lock.readCount = 1 then .done { lock with writeActive := false }
  else .fails

def writeUnlock (lock : NodeLock) : Outcome :=
  if lock.writeActive then .done { lock with writeActive := false } else .fails

def inUse (lock : NodeLock) : Bool :=
  lock.writeActive || decide (0 < lock.writeWait) || decide (0 < lock.readCount) ||
    decide (0 < lock.readWait)

end NodeLock

/-! ## Threads -/

/-- Where a thread is in a call, after the critical section that has fetched the
pointer. -/
inductive Call where
  | tryReadLock
  /-- After the mutex or without it, before `read_wait_` is lowered. -/
  | tryReadLockEnd
  | readLock
  | escalateLock
  | readUnlock
  | writeLock
  | alleviateLock
  | writeUnlock
  /-- Before the assertion on `node_id_` that follows. -/
  | confirm
  /-- Before the critical section that may delete the lock. -/
  | release
  deriving DecidableEq, Repr

inductive Place where
  | idle
  | calling (call : Call) (pageId : Int) (pointer birth : Nat)
  deriving DecidableEq, Repr

/-- What a thread holds, and what it does. -/
structure Thread where
  place : Place
  reads : Int → Nat
  writes : Int → Bool
  escalated : Int → Bool

inductive Fault where
  | assertion
  | deleted
  deriving DecidableEq, Repr

variable {thread : Type} [DecidableEq thread]

structure State (thread : Type) where
  lockTable : Int → Option Nat
  /-- The locks that have been made and not deleted, by address. -/
  heap : Nat → Option NodeLock
  threads : thread → Thread
  births : Nat
  fault : Option Fault

def initial : State thread where
  lockTable := fun _ => none
  heap := fun _ => none
  threads := fun _ => ⟨.idle, fun _ => 0, fun _ => false, fun _ => false⟩
  births := 0
  fault := none

/-- The calls of `TreeLockManager`. -/
inductive Operation where
  | tryReadLock
  | readLock
  | alleviateLock
  | escalateLock
  | readUnlock
  | writeLock
  | writeUnlock
  deriving DecidableEq, Repr

inductive Act (thread : Type) where
  /-- The first critical section of a call; a new lock would be at this address. -/
  | begin (caller : thread) (operation : Operation) (pageId : Int) (fresh : Nat)
  /-- The next step of the call that the thread is in. -/
  | go (caller : thread)
  /-- `Trylock` finds the mutex taken. -/
  | busy (caller : thread)
  deriving DecidableEq, Repr

namespace Thread

def setPlace (self : Thread) (place : Place) : Thread := { self with place }

def addRead (self : Thread) (pageId : Int) : Thread :=
  { self with reads := Function.update self.reads pageId (self.reads pageId + 1) }

def dropRead (self : Thread) (pageId : Int) : Thread :=
  { self with reads := Function.update self.reads pageId (self.reads pageId - 1) }

def setWrites (self : Thread) (pageId : Int) (held : Bool) : Thread :=
  { self with writes := Function.update self.writes pageId held }

def setEscalated (self : Thread) (pageId : Int) (held : Bool) : Thread :=
  { self with escalated := Function.update self.escalated pageId held }

end Thread

namespace State

def fail (state : State thread) (fault : Fault) : State thread :=
  { state with fault := some fault }

def setThread (state : State thread) (caller : thread) (self : Thread) : State thread :=
  { state with threads := Function.update state.threads caller self }

def setLock (state : State thread) (pointer : Nat) (lock : NodeLock) : State thread :=
  { state with heap := Function.update state.heap pointer (some lock) }

def insertLockTable (state : State thread) (pageId : Int) (fresh : Nat) : State thread :=
  { state with
    lockTable := Function.update state.lockTable pageId (some fresh)
    heap := Function.update state.heap fresh (some ⟨pageId, 0, 0, 0, false, state.births⟩)
    births := state.births + 1 }

/-- `find`, and `InsertLockTable` where there is no entry. -/
def findOrInsert (state : State thread) (pageId : Int) (fresh : Nat) : State thread :=
  if state.lockTable pageId = none then state.insertLockTable pageId fresh else state

def raiseReadWait (lock : NodeLock) : NodeLock := { lock with readWait := lock.readWait + 1 }

def raiseWriteWait (lock : NodeLock) : NodeLock :=
  { lock with writeWait := lock.writeWait + 1 }

/-- Read the pointer from the table, raise a counter of the lock, and go on with
the call; without an entry an assertion fails. -/
def fetch (state : State thread) (caller : thread) (call : Call) (pageId : Int)
    (raise : NodeLock → NodeLock) : State thread :=
  match state.lockTable pageId with
  | none => state.fail .assertion
  | some pointer =>
      match state.heap pointer with
      | none => state.fail .deleted
      | some lock =>
          (state.setLock pointer (raise lock)).setThread caller
            ((state.threads caller).setPlace (.calling call pageId pointer lock.birth))

/-- The assertion on `node_id_`, of the lock that the table has for the page. -/
def assertNodeId (state : State thread) (pageId : Int) : State thread :=
  if ((state.lockTable pageId).bind state.heap).any (fun lock => lock.nodeId ≠ pageId) then
    state.fail .assertion
  else state

def tryReadLock (state : State thread) (caller : thread) (pageId : Int) (fresh : Nat) :
    State thread :=
  ((state.findOrInsert pageId fresh).fetch caller .tryReadLock pageId
    raiseReadWait).assertNodeId pageId

def readLock (state : State thread) (caller : thread) (pageId : Int) (fresh : Nat) :
    State thread :=
  (state.findOrInsert pageId fresh).fetch caller .readLock pageId raiseReadWait

def alleviateLock (state : State thread) (caller : thread) (pageId : Int) : State thread :=
  state.fetch caller .alleviateLock pageId id

def escalateLock (state : State thread) (caller : thread) (pageId : Int) : State thread :=
  state.fetch caller .escalateLock pageId raiseWriteWait

/-- Without an entry `ReadUnlock` returns false. -/
def readUnlock (state : State thread) (caller : thread) (pageId : Int) : State thread :=
  if state.lockTable pageId = none then state
  else state.fetch caller .readUnlock pageId id

def writeLock (state : State thread) (caller : thread) (pageId : Int) (fresh : Nat) :
    State thread :=
  (state.findOrInsert pageId fresh).fetch caller .writeLock pageId raiseWriteWait

def writeUnlock (state : State thread) (caller : thread) (pageId : Int) : State thread :=
  state.fetch caller .writeUnlock pageId id

def begin (state : State thread) (caller : thread) (operation : Operation) (pageId : Int)
    (fresh : Nat) : State thread :=
  match operation with
  | .tryReadLock => state.tryReadLock caller pageId fresh
  | .readLock => state.readLock caller pageId fresh
  | .alleviateLock => state.alleviateLock caller pageId
  | .escalateLock => state.escalateLock caller pageId
  | .readUnlock => state.readUnlock caller pageId
  | .writeLock => state.writeLock caller pageId fresh
  | .writeUnlock => state.writeUnlock caller pageId

/-- The end of a critical section of a lock. -/
def conclude (state : State thread) (caller : thread) (pointer : Nat) (outcome : Outcome)
    (self : Thread) : Option (State thread) :=
  match outcome with
  | .waits => none
  | .fails => some (state.fail .assertion)
  | .done lock => some ((state.setLock pointer lock).setThread caller self)

/-- The part of a call that uses the lock. -/
def useLock (state : State thread) (caller : thread) (call : Call) (pageId : Int)
    (pointer : Nat) (lock : NodeLock) : Option (State thread) :=
  let self := state.threads caller
  let further (next : Call) := Place.calling next pageId pointer lock.birth
  match call with
  | .tryReadLock =>
      let (tried, acquired) := lock.tryReadLock
      state.conclude caller pointer (.done tried)
        ((if acquired then self.addRead pageId else self).setPlace (further .tryReadLockEnd))
  | .tryReadLockEnd =>
      state.conclude caller pointer (.done { lock with readWait := lock.readWait - 1 })
        (self.setPlace .idle)
  | .readLock =>
      state.conclude caller pointer lock.readLock
        ((self.addRead pageId).setPlace (further .confirm))
  | .escalateLock =>
      state.conclude caller pointer lock.escalateLock
        ((self.setEscalated pageId true).setPlace (further .confirm))
  | .readUnlock =>
      state.conclude caller pointer lock.readUnlock
        ((self.dropRead pageId).setPlace (further .release))
  | .writeLock =>
      state.conclude caller pointer lock.writeLock
        ((self.setWrites pageId true).setPlace (further .confirm))
  | .alleviateLock =>
      state.conclude caller pointer lock.alleviateLock
        ((self.setEscalated pageId false).setPlace (further .confirm))
  | .writeUnlock =>
      state.conclude caller pointer lock.writeUnlock
        ((self.setWrites pageId false).setPlace (further .release))
  | .confirm =>
      state.conclude caller pointer (if lock.nodeId = pageId then .done lock else .fails)
        (self.setPlace .idle)
  | .release => none

def delete (state : State thread) (pageId : Int) (pointer : Nat) : State thread :=
  { state with
    lockTable := Function.update state.lockTable pageId none
    heap := Function.update state.heap pointer none }

/-- Delete the lock if the table still has it and nobody uses it. -/
def release (state : State thread) (caller : thread) (pageId : Int) (pointer : Nat) :
    State thread :=
  let self := (state.threads caller).setPlace .idle
  if state.lockTable pageId = some pointer then
    match state.heap pointer with
    | none => state.fail .deleted
    | some lock =>
        if lock.nodeId = pageId ∧ lock.inUse = false then
          (state.delete pageId pointer).setThread caller self
        else state.setThread caller self
  else state.setThread caller self

def go (state : State thread) (caller : thread) : Option (State thread) :=
  match (state.threads caller).place with
  | .idle => none
  | .calling call pageId pointer birth =>
      if call = .release then some (state.release caller pageId pointer)
      else
        match state.heap pointer with
        | none => some (state.fail .deleted)
        | some lock =>
            if lock.birth = birth then state.useLock caller call pageId pointer lock
            else some (state.fail .deleted)

def busy (state : State thread) (caller : thread) : Option (State thread) :=
  match (state.threads caller).place with
  | .calling .tryReadLock pageId pointer birth =>
      some (state.setThread caller ((state.threads caller).setPlace
        (.calling .tryReadLockEnd pageId pointer birth)))
  | _ => none

/-- `new` finds an address that no lock has. -/
def step (state : State thread) : Act thread → Option (State thread)
  | .begin caller operation pageId fresh =>
      if state.fault = none ∧ (state.threads caller).place = .idle ∧
          state.heap fresh = none then
        some (state.begin caller operation pageId fresh)
      else none
  | .go caller => if state.fault = none then state.go caller else none
  | .busy caller => if state.fault = none then state.busy caller else none

end State

/-- Threads unlock what they hold, in the mode they hold it in, and readers escalate. -/
def Disciplined (state : State thread) : Act thread → Prop
  | .begin caller operation pageId _ =>
      let self := state.threads caller
      match operation with
      | .alleviateLock => self.escalated pageId = true
      | .escalateLock => 0 < self.reads pageId
      | .readUnlock => 0 < self.reads pageId ∧ self.escalated pageId = false
      | .writeUnlock => self.writes pageId = true
      | _ => True
  | _ => True

end AhaTree.LockManager
