import AhaTree.LockManager
import Mathlib.Algebra.Order.BigOperators.Group.Finset
import Mathlib.Algebra.Order.Monoid.Prod
import Mathlib.Data.Fintype.Basic

/-!
# What a lock counts

The four counters of a lock are the sum of what each thread holds and waits for.
From this follows what the assertions of `NodeLock` say, and that a writer or an
escalated reader is alone.
-/

namespace AhaTree.LockManager

variable {thread : Type}

/-! ## Loads -/

/-- Readings, waits for reading, waits for writing, and active writers. -/
abbrev Load := ℕ × ℕ × ℕ × ℕ

def NodeLock.load (lock : NodeLock) : Load :=
  (lock.readCount, lock.readWait, lock.writeWait, lock.writeActive.toNat)

theorem NodeLock.not_active_of_not_hasWrite (lock : NodeLock)
    (notWrite : ¬ lock.hasWrite = true) : lock.writeActive = false := by
  rw [NodeLock.hasWrite, Bool.or_eq_true, not_or] at notWrite
  exact Bool.eq_false_iff.mpr notWrite.1

theorem NodeLock.load_of_not_inUse {lock : NodeLock} (unused : lock.inUse = false) :
    lock.load = 0 := by
  simp only [NodeLock.inUse, Bool.or_eq_false_iff, decide_eq_false_iff_not,
    Nat.not_lt, Nat.le_zero_eq] at unused
  obtain ⟨⟨⟨notActive, noWriters⟩, noReaders⟩, noWaits⟩ := unused
  simp [NodeLock.load, notActive, noWriters, noReaders, noWaits]

def Call.waitsToRead : Call → Bool
  | .tryReadLock | .tryReadLockEnd | .readLock => true
  | _ => false

def Call.waitsToWrite : Call → Bool
  | .escalateLock | .writeLock => true
  | _ => false

def Place.load (place : Place) (pageId : Int) : Load :=
  match place with
  | .idle => 0
  | .calling call page _ _ =>
      if page = pageId then (0, call.waitsToRead.toNat, call.waitsToWrite.toNat, 0) else 0

/-- What a thread adds to the counters of the lock of a page. -/
def Thread.load (self : Thread) (pageId : Int) : Load :=
  (self.reads pageId, 0, 0, (self.writes pageId).toNat + (self.escalated pageId).toNat) +
    self.place.load pageId

namespace Thread

def Holds (self : Thread) (pageId : Int) : Prop :=
  0 < self.reads pageId ∨ self.writes pageId = true ∨ self.escalated pageId = true

def Waits (self : Thread) (pageId : Int) : Prop :=
  ∃ call pointer birth, self.place = .calling call pageId pointer birth ∧
    (call.waitsToRead = true ∨ call.waitsToWrite = true)

/-- A thread counts for a page when it holds its lock or waits for it. -/
theorem load_ne_zero_iff {self : Thread} {pageId : Int} :
    self.load pageId ≠ 0 ↔ self.Holds pageId ∨ self.Waits pageId := by
  have holds : (self.reads pageId, 0, 0,
      (self.writes pageId).toNat + (self.escalated pageId).toNat) ≠ (0 : Load) ↔
        self.Holds pageId := by
    unfold Holds
    cases self.writes pageId <;> cases self.escalated pageId <;>
      simp [Prod.ext_iff, Nat.pos_iff_ne_zero]
  have waits : self.place.load pageId ≠ 0 ↔ self.Waits pageId := by
    unfold Waits
    cases self.place with
    | idle => simp [Place.load]
    | calling call page pointer birth =>
        by_cases isPage : page = pageId
        · cases call <;>
            simp [Place.load, isPage, Call.waitsToRead, Call.waitsToWrite, Prod.ext_iff]
        · simp [Place.load, isPage]
  rw [← holds, ← waits, load, Ne, add_eq_zero, not_and_or]

theorem load_of_idle {self : Thread} (isIdle : self.place = .idle) (place : Place)
    (page : Int) : (self.setPlace place).load page = self.load page + place.load page := by
  rw [load, load, isIdle, setPlace]
  exact congrArg (· + place.load page) (add_zero _).symm

end Thread

namespace State

/-- The lock that the table has for a page. -/
def lockOf (state : State thread) (pageId : Int) : Option NodeLock :=
  (state.lockTable pageId).bind state.heap

/-- What its lock counts for a page. -/
def load (state : State thread) (pageId : Int) : Load :=
  (state.lockOf pageId).elim 0 NodeLock.load

end State

theorem lockOf_eq {state : State thread} {pageId : Int} {pointer : Nat} {lock : NodeLock}
    (inTable : state.lockTable pageId = some pointer)
    (inHeap : state.heap pointer = some lock) : state.lockOf pageId = some lock := by
  rw [State.lockOf, inTable, Option.bind_some, inHeap]

theorem load_eq {state : State thread} {pageId : Int} {pointer : Nat} {lock : NodeLock}
    (inTable : state.lockTable pageId = some pointer)
    (inHeap : state.heap pointer = some lock) : state.load pageId = lock.load := by
  rw [State.load, lockOf_eq inTable inHeap]
  rfl

/-- What a thread must hold when it is in a call. -/
def Call.Needs (call : Call) (self : Thread) (pageId : Int) : Prop :=
  match call with
  | .escalateLock => 0 < self.reads pageId
  | .readUnlock => 0 < self.reads pageId ∧ self.escalated pageId = false
  | .alleviateLock => self.escalated pageId = true
  | .writeUnlock => self.writes pageId = true
  | .confirm => 0 < self.reads pageId ∨ self.writes pageId = true
  | _ => True

/-- In a call that is not at its end a thread holds the lock or waits for it. -/
theorem Call.Needs.holds_or_waits {call : Call} {self : Thread} {pageId : Int}
    {pointer birth : Nat} (needs : call.Needs self pageId) (notRelease : call ≠ .release)
    (isPlace : self.place = .calling call pageId pointer birth) :
    self.Holds pageId ∨ self.Waits pageId := by
  cases call with
  | tryReadLock => exact .inr ⟨_, _, _, isPlace, .inl rfl⟩
  | tryReadLockEnd => exact .inr ⟨_, _, _, isPlace, .inl rfl⟩
  | readLock => exact .inr ⟨_, _, _, isPlace, .inl rfl⟩
  | escalateLock => exact .inr ⟨_, _, _, isPlace, .inr rfl⟩
  | readUnlock => exact .inl (.inl needs.1)
  | writeLock => exact .inr ⟨_, _, _, isPlace, .inr rfl⟩
  | alleviateLock => exact .inl (.inr (.inr needs))
  | writeUnlock => exact .inl (.inr (.inl needs))
  | confirm => exact .inl (needs.imp_right .inl)
  | release => exact absurd rfl notRelease

/-- Except at the end of an unlocking call, the pointer of a call is the lock that the
table has for the page. -/
def Placed (state : State thread) (self : Thread) : Prop :=
  ∀ call pageId pointer birth, self.place = .calling call pageId pointer birth →
    call ≠ .release → state.lockTable pageId = some pointer ∧
      (∃ lock, state.heap pointer = some lock ∧ lock.birth = birth) ∧
      call.Needs self pageId

/-- A writer has no readers beside it, and an escalated reader is the only one. -/
structure Fits (readCount : Nat) (member : Thread) (pageId : Int) : Prop where
  writes : member.writes pageId = true → readCount = 0
  escalated : member.escalated pageId = true → member.reads pageId = 1 ∧ readCount = 1

theorem Fits.of_inactive {readCount : Nat} {member : Thread} {pageId : Int}
    (inactive : member.writes pageId = false ∧ member.escalated pageId = false) :
    Fits readCount member pageId where
  writes held := by
    rw [inactive.1] at held
    cases held
  escalated held := by
    rw [inactive.2] at held
    cases held

/-- A thread changes what it holds and waits for on one page at most. -/
structure Local (pageId : Int) (before after : Thread) : Prop where
  reads : ∀ other, other ≠ pageId → after.reads other = before.reads other
  writes : ∀ other, other ≠ pageId → after.writes other = before.writes other
  escalated : ∀ other, other ≠ pageId → after.escalated other = before.escalated other
  place : ∀ other, other ≠ pageId → after.place.load other = before.place.load other

namespace Local

variable {pageId other : Int} {before after : Thread}

theorem load (isLocal : Local pageId before after) (elsewhere : other ≠ pageId) :
    after.load other = before.load other := by
  rw [Thread.load, Thread.load, isLocal.reads other elsewhere,
    isLocal.writes other elsewhere, isLocal.escalated other elsewhere,
    isLocal.place other elsewhere]

theorem fits (isLocal : Local pageId before after) (elsewhere : other ≠ pageId)
    {readCount : Nat} (fit : Fits readCount before other) : Fits readCount after other where
  writes held := fit.writes (isLocal.writes other elsewhere ▸ held)
  escalated held := by
    rw [isLocal.reads other elsewhere]
    exact fit.escalated (isLocal.escalated other elsewhere ▸ held)

end Local

variable [Fintype thread]

/-- The table and the heap agree, and every lock counts what the threads do. -/
structure Sound (state : State thread) : Prop where
  noFault : state.fault = none
  table : ∀ pageId pointer, state.lockTable pageId = some pointer →
    ∃ lock, state.heap pointer = some lock ∧ lock.nodeId = pageId
  heap : ∀ pointer lock, state.heap pointer = some lock →
    state.lockTable lock.nodeId = some pointer
  loads : ∀ pageId, state.load pageId = ∑ member, (state.threads member).load pageId
  fits : ∀ member pageId, Fits (state.load pageId).1 (state.threads member) pageId
  placed : ∀ member, Placed state (state.threads member)

namespace Sound

variable {state : State thread} (sound : Sound state)

include sound

theorem le_load (member : thread) (pageId : Int) :
    (state.threads member).load pageId ≤ state.load pageId := by
  rw [sound.loads]
  exact Finset.single_le_sum (fun other _ => (zero_le : 0 ≤ (state.threads other).load pageId))
    (Finset.mem_univ member)

theorem add_le_load {first second : thread} (different : first ≠ second) (pageId : Int) :
    (state.threads first).load pageId + (state.threads second).load pageId ≤
      state.load pageId := by
  rw [sound.loads]
  exact Finset.add_le_sum (fun other _ => (zero_le : 0 ≤ (state.threads other).load pageId))
    (Finset.mem_univ first) (Finset.mem_univ second) different

/-- Pages whose locks are at one address are one page. -/
theorem pointer_inj {first second : Int} {pointer : Nat}
    (firstHas : state.lockTable first = some pointer)
    (secondHas : state.lockTable second = some pointer) : first = second := by
  obtain ⟨lock, inHeap, isFirst⟩ := sound.table first pointer firstHas
  obtain ⟨again, inHeapToo, isSecond⟩ := sound.table second pointer secondHas
  rw [inHeap] at inHeapToo
  cases inHeapToo
  exact isFirst.symm.trans isSecond

/-- What a thread holds has a lock. -/
theorem hasLock {member : thread} {pageId : Int}
    (holds : (state.threads member).Holds pageId) :
    ∃ pointer lock, state.lockTable pageId = some pointer ∧ state.heap pointer = some lock := by
  cases inTable : state.lockTable pageId with
  | none =>
      have noLock : state.load pageId = 0 := by
        rw [State.load, State.lockOf, inTable]
        rfl
      exact absurd (le_antisymm (noLock ▸ sound.le_load member pageId) zero_le)
        (Thread.load_ne_zero_iff.mpr (.inl holds))
  | some pointer =>
      obtain ⟨lock, inHeap, _⟩ := sound.table pageId pointer inTable
      exact ⟨pointer, lock, rfl, inHeap⟩

section counters

variable {pageId : Int} {pointer : Nat} {lock : NodeLock}
  (inTable : state.lockTable pageId = some pointer)
  (inHeap : state.heap pointer = some lock)

include inTable inHeap

theorem reads_le (member : thread) :
    (state.threads member).reads pageId ≤ lock.readCount := by
  have le := (sound.le_load member pageId).1
  rw [load_eq inTable inHeap] at le
  exact (Nat.le_add_right ..).trans le

theorem readWait_pos {member : thread} {call : Call} {birth : Nat}
    (isPlace : (state.threads member).place = .calling call pageId pointer birth)
    (waits : call.waitsToRead = true) : 0 < lock.readWait := by
  have le := (sound.le_load member pageId).2.1
  rw [load_eq inTable inHeap] at le
  have one : 1 ≤ lock.readWait := by
    simpa [Thread.load, Place.load, isPlace, waits, NodeLock.load] using le
  exact one

theorem writeWait_pos {member : thread} {call : Call} {birth : Nat}
    (isPlace : (state.threads member).place = .calling call pageId pointer birth)
    (waits : call.waitsToWrite = true) : 0 < lock.writeWait := by
  have le := (sound.le_load member pageId).2.2.1
  rw [load_eq inTable inHeap] at le
  have one : 1 ≤ lock.writeWait := by
    simpa [Thread.load, Place.load, isPlace, waits, NodeLock.load] using le
  exact one

theorem active_le (member : thread) :
    ((state.threads member).writes pageId).toNat +
      ((state.threads member).escalated pageId).toNat ≤ lock.writeActive.toNat := by
  have le := (sound.le_load member pageId).2.2.2
  rw [load_eq inTable inHeap] at le
  exact (Nat.le_add_right ..).trans le

/-- With no active writer, nobody writes or has escalated. -/
theorem inactive (notActive : lock.writeActive = false) (member : thread) :
    (state.threads member).writes pageId = false ∧
      (state.threads member).escalated pageId = false := by
  have le := sound.active_le inTable inHeap member
  rw [notActive] at le
  constructor
  · cases held : (state.threads member).writes pageId with
    | false => rfl
    | true => simp [held] at le
  · cases held : (state.threads member).escalated pageId with
    | false => rfl
    | true => simp [held] at le

theorem fits_inactive (notActive : lock.writeActive = false) (readCount : Nat)
    (member : thread) : Fits readCount (state.threads member) pageId :=
  .of_inactive (sound.inactive inTable inHeap notActive member)

theorem fits_lock (member : thread) :
    Fits lock.readCount (state.threads member) pageId := by
  have fit := sound.fits member pageId
  rwa [load_eq inTable inHeap] at fit

/-- Beside a reader that has not escalated nobody is active. -/
theorem inactive_of_reads {reader : thread}
    (holds : 0 < (state.threads reader).reads pageId)
    (notEscalated : (state.threads reader).escalated pageId = false) (member : thread) :
    (state.threads member).writes pageId = false ∧
      (state.threads member).escalated pageId = false := by
  have counted := sound.reads_le inTable inHeap reader
  have fit := sound.fits_lock inTable inHeap member
  refine ⟨Bool.eq_false_iff.mpr fun held => ?_, Bool.eq_false_iff.mpr fun held => ?_⟩
  · have noReader := fit.writes held
    omega
  · obtain ⟨reads, onlyOne⟩ := fit.escalated held
    by_cases same : member = reader
    · rw [same, notEscalated] at held
      cases held
    · have both := (sound.add_le_load same pageId).1
      rw [load_eq inTable inHeap] at both
      have sum : (state.threads member).reads pageId + (state.threads reader).reads pageId ≤
          lock.readCount := by
        refine le_trans ?_ both
        exact Nat.add_le_add (Nat.le_add_right ..) (Nat.le_add_right ..)
      omega

end counters

end Sound

end AhaTree.LockManager
