import AhaTree.LockCounts
import Mathlib.Tactic.Abel

/-!
# Locks exclude, and live as long as they are used

Every step of the lock manager changes one thread and one lock, and what both
count by the same amount.  A lock goes only when it counts nothing, and then it is
nobody's.
-/

namespace AhaTree.LockManager

open Lib (Reaches)

variable {thread : Type}

/-! ## Which locks are deleted -/

/-- No lock goes. -/
def Keeps (before after : State thread) : Prop :=
  ∀ pointer, before.heap pointer ≠ none → after.heap pointer ≠ none

section keeps

variable {state after : State thread} {pageId : Int}

theorem keeps_findOrInsert (state : State thread) (pageId : Int) (fresh : Nat) :
    Keeps state (state.findOrInsert pageId fresh) := by
  unfold State.findOrInsert
  split_ifs
  · intro address isThere
    change Function.update state.heap fresh _ address ≠ none
    by_cases same : address = fresh
    · simp [same]
    · rwa [Function.update_of_ne same]
  · exact fun _ isThere => isThere

theorem keeps_assertNodeId : Keeps state (state.assertNodeId pageId) := by
  unfold State.assertNodeId
  split_ifs
  · exact fun _ isThere => isThere
  · exact fun _ isThere => isThere

variable [DecidableEq thread] {caller : thread}

theorem keeps_setLock (state : State thread) (pointer : Nat) (lock : NodeLock) (self : Thread) :
    Keeps state ((state.setLock pointer lock).setThread caller self) := by
  intro address isThere
  change Function.update state.heap pointer (some lock) address ≠ none
  by_cases same : address = pointer
  · simp [same]
  · rwa [Function.update_of_ne same]

theorem keeps_fetch (call : Call) (raise : NodeLock → NodeLock) :
    Keeps state (state.fetch caller call pageId raise) := by
  unfold State.fetch
  split
  · exact fun _ isThere => isThere
  · split
    · exact fun _ isThere => isThere
    · exact keeps_setLock state _ _ _

theorem keeps_begin (operation : Operation) (fresh : Nat) :
    Keeps state (state.begin caller operation pageId fresh) := by
  have found := keeps_findOrInsert state pageId fresh
  cases operation with
  | tryReadLock =>
      exact fun pointer isThere => keeps_assertNodeId pointer
        (keeps_fetch _ _ pointer (found pointer isThere))
  | readLock => exact fun pointer isThere => keeps_fetch _ _ pointer (found pointer isThere)
  | writeLock => exact fun pointer isThere => keeps_fetch _ _ pointer (found pointer isThere)
  | alleviateLock => exact keeps_fetch _ _
  | escalateLock => exact keeps_fetch _ _
  | readUnlock =>
      change Keeps state (if _ then _ else _)
      split_ifs
      · exact fun _ isThere => isThere
      · exact keeps_fetch _ _
  | writeUnlock => exact keeps_fetch _ _

theorem keeps_conclude {pointer : Nat} {outcome : Outcome} {self : Thread}
    (used : state.conclude caller pointer outcome self = some after) : Keeps state after := by
  cases outcome with
  | waits => cases used
  | fails =>
      cases used
      exact fun _ isThere => isThere
  | done lock =>
      cases used
      exact keeps_setLock state _ _ _

theorem keeps_useLock {call : Call} {pointer : Nat} {lock : NodeLock}
    (used : state.useLock caller call pageId pointer lock = some after) :
    Keeps state after := by
  simp only [State.useLock] at used
  cases call with
  | tryReadLock => exact keeps_conclude used
  | tryReadLockEnd => exact keeps_conclude used
  | readLock => exact keeps_conclude used
  | escalateLock => exact keeps_conclude used
  | readUnlock => exact keeps_conclude used
  | writeLock => exact keeps_conclude used
  | alleviateLock => exact keeps_conclude used
  | writeUnlock => exact keeps_conclude used
  | confirm => exact keeps_conclude used
  | release => cases used

end keeps

/-! ## Steps -/

variable [Fintype thread] [DecidableEq thread]

omit [Fintype thread] in
/-- The lock at an address may change when its `birth` stays. -/
theorem placed_setLock {state : State thread} {caller : thread} {pointer : Nat}
    {lock lock' : NodeLock} {self : Thread} (inHeap : state.heap pointer = some lock)
    (sameBirth : lock'.birth = lock.birth) {member : Thread} (placed : Placed state member) :
    Placed ((state.setLock pointer lock').setThread caller self) member := by
  intro call page address birth isPlace notRelease
  obtain ⟨hasAddress, ⟨found, inHeapToo, isBirth⟩, needs⟩ :=
    placed call page address birth isPlace notRelease
  refine ⟨hasAddress, ?_, needs⟩
  by_cases same : address = pointer
  · subst same
    rw [inHeap] at inHeapToo
    cases inHeapToo
    exact ⟨lock', Function.update_self .., sameBirth.trans isBirth⟩
  · exact ⟨found, (Function.update_of_ne same ..).trans inHeapToo, isBirth⟩

theorem sum_update_add (f : thread → Thread) (caller : thread) (self : Thread)
    (load : Thread → Load) :
    ∑ member, load (Function.update f caller self member) + load (f caller) =
      ∑ member, load (f member) + load self := by
  rw [← Finset.add_sum_erase _ _ (Finset.mem_univ caller),
    ← Finset.add_sum_erase _ (fun member => load (f member)) (Finset.mem_univ caller),
    Function.update_self]
  have same : ∑ member ∈ Finset.univ.erase caller,
      load (Function.update f caller self member) =
        ∑ member ∈ Finset.univ.erase caller, load (f member) :=
    Finset.sum_congr rfl fun member isOther => by
      rw [Function.update_of_ne (Finset.ne_of_mem_erase isOther)]
  rw [same]
  abel

namespace Sound

variable {state : State thread} (sound : Sound state)

include sound

section advance

variable {caller : thread} {pageId : Int} {pointer : Nat} {lock lock' : NodeLock}
  {self : Thread}

theorem lockOf_setLock (inTable : state.lockTable pageId = some pointer) (other : Int) :
    ((state.setLock pointer lock').setThread caller self).lockOf other =
      if other = pageId then some lock' else state.lockOf other := by
  change (state.lockTable other).bind (Function.update state.heap pointer (some lock')) = _
  split_ifs with isPage
  · rw [isPage, inTable, Option.bind_some, Function.update_self]
  · rw [State.lockOf]
    cases elsewhere : state.lockTable other with
    | none => rfl
    | some address =>
        have different : address ≠ pointer := by
          rintro rfl
          exact isPage (sound.pointer_inj elsewhere inTable)
        rw [Option.bind_some, Option.bind_some, Function.update_of_ne different]

/-- A step of one thread on one lock keeps the invariant when it changes what both
count by the same amount. -/
theorem advance (inTable : state.lockTable pageId = some pointer)
    (inHeap : state.heap pointer = some lock) (sameId : lock'.nodeId = lock.nodeId)
    (sameBirth : lock'.birth = lock.birth)
    (balance : lock'.load + (state.threads caller).load pageId =
      lock.load + self.load pageId)
    (isLocal : Local pageId (state.threads caller) self)
    (fitsOthers : ∀ member, member ≠ caller →
      Fits lock'.readCount (state.threads member) pageId)
    (fitsSelf : Fits lock'.readCount self pageId)
    (placed : Placed ((state.setLock pointer lock').setThread caller self) self) :
    Sound ((state.setLock pointer lock').setThread caller self) where
  noFault := sound.noFault
  table page address hasAddress := by
    obtain ⟨found, inHeapToo, isPage⟩ := sound.table page address hasAddress
    by_cases same : address = pointer
    · subst same
      rw [inHeap] at inHeapToo
      cases inHeapToo
      exact ⟨lock', Function.update_self .., sameId.trans isPage⟩
    · exact ⟨found, (Function.update_of_ne same ..).trans inHeapToo, isPage⟩
  heap address found isFound := by
    by_cases same : address = pointer
    · subst same
      have isLock : lock' = found := by
        simpa [State.setLock, State.setThread] using isFound
      subst isLock
      rw [sameId]
      exact sound.heap address lock inHeap
    · exact sound.heap address found (by
        simpa [State.setLock, State.setThread, same] using isFound)
  loads page := by
    have summed := sum_update_add state.threads caller self (fun member => member.load page)
    rw [← sound.loads page] at summed
    rw [State.load, sound.lockOf_setLock inTable]
    split_ifs with isPage
    · subst isPage
      rw [load_eq inTable inHeap, ← balance] at summed
      exact (add_right_cancel summed).symm
    · rw [isLocal.load isPage] at summed
      exact (add_right_cancel summed).symm
  fits member page := by
    rw [State.load, sound.lockOf_setLock inTable]
    change Fits _ (Function.update state.threads caller self member) page
    by_cases isCaller : member = caller
    · subst isCaller
      rw [Function.update_self]
      split_ifs with isPage
      · subst isPage
        exact fitsSelf
      · exact isLocal.fits isPage (sound.fits member page)
    · rw [Function.update_of_ne isCaller]
      split_ifs with isPage
      · subst isPage
        exact fitsOthers member isCaller
      · exact sound.fits member page
  placed member := by
    change Placed _ (Function.update state.threads caller self member)
    by_cases isCaller : member = caller
    · subst isCaller
      rw [Function.update_self]
      exact placed
    · rw [Function.update_of_ne isCaller]
      exact placed_setLock inHeap sameBirth (sound.placed member)

end advance

/-- A thread may move on when it still counts the same. -/
theorem setPlace {caller : thread} {place : Place}
    (sameLoad : ∀ pageId, place.load pageId = (state.threads caller).place.load pageId)
    (placed : Placed state ((state.threads caller).setPlace place)) :
    Sound (state.setThread caller ((state.threads caller).setPlace place)) where
  noFault := sound.noFault
  table := sound.table
  heap := sound.heap
  loads page := by
    have summed := sum_update_add state.threads caller
      ((state.threads caller).setPlace place) (fun member => member.load page)
    have same : ((state.threads caller).setPlace place).load page =
        (state.threads caller).load page := by
      rw [Thread.load, Thread.load, Thread.setPlace, sameLoad]
    rw [← sound.loads page, same] at summed
    exact (add_right_cancel summed).symm
  fits member page := by
    change Fits _ (Function.update state.threads caller _ member) page
    by_cases isCaller : member = caller
    · subst isCaller
      rw [Function.update_self]
      exact ⟨(sound.fits member page).writes, (sound.fits member page).escalated⟩
    · rw [Function.update_of_ne isCaller]
      exact sound.fits member page
  placed member := by
    change Placed _ (Function.update state.threads caller _ member)
    by_cases isCaller : member = caller
    · subst isCaller
      rw [Function.update_self]
      exact placed
    · rw [Function.update_of_ne isCaller]
      exact sound.placed member

/-! ## The part of a call that uses the lock -/

section useLock

variable {caller : thread} {pageId : Int} {pointer : Nat} {lock : NodeLock}
  {call : Call} {birth : Nat}

/-- What a critical section of a lock must do to it for a thread that goes on as
`self`. -/
structure Serves (state : State thread) (caller : thread) (pageId : Int)
    (lock lock' : NodeLock) (self : Thread) : Prop where
  nodeId : lock'.nodeId = lock.nodeId
  birth : lock'.birth = lock.birth
  balance : lock'.load + (state.threads caller).load pageId = lock.load + self.load pageId
  fitsOthers : ∀ member, member ≠ caller →
    Fits lock'.readCount (state.threads member) pageId
  fitsSelf : Fits lock'.readCount self pageId

/-- A critical section of the lock that the caller's pointer leads to. -/
theorem conclude (inTable : state.lockTable pageId = some pointer)
    (inHeap : state.heap pointer = some lock)
    (isPlace : (state.threads caller).place = .calling call pageId pointer birth)
    {outcome : Outcome} {self : Thread} {next : Place} {after : State thread}
    (used : state.conclude caller pointer outcome (self.setPlace next) = some after)
    (isNext : next = .idle ∨ ∃ further : Call,
      next = .calling further pageId pointer lock.birth ∧
        (further ≠ .release → further.Needs self pageId))
    (elsewhere : ∀ other, other ≠ pageId →
      self.reads other = (state.threads caller).reads other ∧
        self.writes other = (state.threads caller).writes other ∧
          self.escalated other = (state.threads caller).escalated other)
    (noFail : outcome ≠ .fails)
    (serves : ∀ lock', outcome = .done lock' →
      Serves state caller pageId lock lock' (self.setPlace next)) : Sound after := by
  rcases outcome with _ | _ | lock'
  · cases used
  · exact absurd rfl noFail
  · cases used
    obtain ⟨sameId, sameBirth, balance, fitsOthers, fitsSelf⟩ := serves lock' rfl
    refine sound.advance inTable inHeap sameId sameBirth balance
      ⟨fun other isOther => (elsewhere other isOther).1,
        fun other isOther => (elsewhere other isOther).2.1,
        fun other isOther => (elsewhere other isOther).2.2, fun other isOther => ?_⟩
      fitsOthers fitsSelf ?_
    · have before : (state.threads caller).place.load other = 0 := by
        rw [isPlace, Place.load, if_neg isOther.symm]
      rw [before]
      rcases isNext with rfl | ⟨further, rfl, _⟩
      · rfl
      · exact if_neg isOther.symm
    · intro further page address born isNext' notRelease
      rcases isNext with rfl | ⟨further', rfl, needs⟩
      · cases isNext'
      · cases isNext'
        exact ⟨inTable, ⟨lock', Function.update_self .., sameBirth⟩, needs notRelease⟩

variable {after : State thread} (inTable : state.lockTable pageId = some pointer)
  (inHeap : state.heap pointer = some lock)

include inTable inHeap

theorem useTryReadLock
    (isPlace : (state.threads caller).place = .calling .tryReadLock pageId pointer birth)
    (used : state.useLock caller .tryReadLock pageId pointer lock = some after) :
    Sound after := by
  have fits := sound.fits_lock inTable inHeap
  simp only [State.useLock] at used
  by_cases hasWrite : lock.hasWrite = true
  · rw [NodeLock.tryReadLock, if_pos hasWrite] at used
    refine sound.conclude inTable inHeap isPlace used (.inr ⟨_, rfl, fun _ => trivial⟩)
      (fun _ _ => ⟨rfl, rfl, rfl⟩) (by simp) ?_
    rintro _ ⟨⟩
    refine ⟨rfl, rfl, ?_, fun member _ => fits member,
      ⟨(fits caller).writes, (fits caller).escalated⟩⟩
    simp [Thread.load, Thread.setPlace, Place.load, isPlace, Call.waitsToRead,
      Call.waitsToWrite]
  · rw [NodeLock.tryReadLock, if_neg hasWrite] at used
    have unwritten := lock.not_active_of_not_hasWrite hasWrite
    refine sound.conclude inTable inHeap isPlace used (.inr ⟨_, rfl, fun _ => trivial⟩)
      (fun other isOther => ⟨by simp [Thread.addRead, isOther], rfl, rfl⟩) (by simp) ?_
    rintro _ ⟨⟩
    refine ⟨rfl, rfl, ?_, fun member _ => sound.fits_inactive inTable inHeap unwritten _ member,
      .of_inactive (sound.inactive inTable inHeap unwritten caller)⟩
    simp [NodeLock.load, Thread.load, Thread.setPlace, Thread.addRead, Place.load, isPlace,
      Call.waitsToRead, Call.waitsToWrite]
    omega

theorem useTryReadLockEnd
    (isPlace : (state.threads caller).place = .calling .tryReadLockEnd pageId pointer birth)
    (used : state.useLock caller .tryReadLockEnd pageId pointer lock = some after) :
    Sound after := by
  have fits := sound.fits_lock inTable inHeap
  have waiting := sound.readWait_pos inTable inHeap isPlace rfl
  simp only [State.useLock] at used
  refine sound.conclude inTable inHeap isPlace used (.inl rfl) (fun _ _ => ⟨rfl, rfl, rfl⟩) nofun ?_
  rintro _ ⟨⟩
  refine ⟨rfl, rfl, ?_, fun member _ => fits member,
    ⟨(fits caller).writes, (fits caller).escalated⟩⟩
  simp [NodeLock.load, Thread.load, Thread.setPlace, Place.load, isPlace, Call.waitsToRead,
    Call.waitsToWrite]
  omega

theorem useReadLock
    (isPlace : (state.threads caller).place = .calling .readLock pageId pointer birth)
    (used : state.useLock caller .readLock pageId pointer lock = some after) :
    Sound after := by
  have waiting := sound.readWait_pos inTable inHeap isPlace rfl
  refine sound.conclude inTable inHeap isPlace used
    (.inr ⟨_, rfl, fun _ => .inl (by simp [Thread.addRead])⟩)
    (fun other isOther => ⟨by simp [Thread.addRead, isOther], rfl, rfl⟩)
    (by unfold NodeLock.readLock; split_ifs <;> simp) ?_
  intro lock' done
  unfold NodeLock.readLock at done
  split_ifs at done with hasWrite
  cases done
  have unwritten := lock.not_active_of_not_hasWrite hasWrite
  refine ⟨rfl, rfl, ?_, fun member _ => sound.fits_inactive inTable inHeap unwritten _ member,
    .of_inactive (sound.inactive inTable inHeap unwritten caller)⟩
  simp [NodeLock.load, Thread.load, Thread.setPlace, Thread.addRead, Place.load, isPlace,
    Call.waitsToRead, Call.waitsToWrite]
  omega

theorem useEscalateLock
    (isPlace : (state.threads caller).place = .calling .escalateLock pageId pointer birth)
    (holds : 0 < (state.threads caller).reads pageId)
    (used : state.useLock caller .escalateLock pageId pointer lock = some after) :
    Sound after := by
  have reads := sound.reads_le inTable inHeap caller
  have waiting := sound.writeWait_pos inTable inHeap isPlace rfl
  refine sound.conclude inTable inHeap isPlace used (.inr ⟨_, rfl, fun _ => .inl holds⟩)
    (fun other isOther => ⟨rfl, rfl, by simp [Thread.setEscalated, isOther]⟩)
    (by unfold NodeLock.escalateLock; split_ifs <;> grind) ?_
  intro lock' done
  unfold NodeLock.escalateLock at done
  split_ifs at done with others isLast
  cases done
  rw [not_or] at others
  have unwritten := Bool.eq_false_iff.mpr others.2
  obtain ⟨notWriting, notEscalated⟩ := sound.inactive inTable inHeap unwritten caller
  refine ⟨rfl, rfl, ?_, fun member _ => sound.fits_inactive inTable inHeap unwritten _ member,
    ?_, fun _ => ?_⟩
  · simp [NodeLock.load, Thread.load, Thread.setPlace, Thread.setEscalated, Place.load,
      isPlace, notWriting, notEscalated, unwritten, Call.waitsToRead, Call.waitsToWrite]
    omega
  · intro held
    change (state.threads caller).writes pageId = true at held
    rw [notWriting] at held
    cases held
  · change (state.threads caller).reads pageId = 1 ∧ lock.readCount = 1
    omega

theorem useReadUnlock
    (isPlace : (state.threads caller).place = .calling .readUnlock pageId pointer birth)
    (holds : 0 < (state.threads caller).reads pageId)
    (notEscalated : (state.threads caller).escalated pageId = false)
    (used : state.useLock caller .readUnlock pageId pointer lock = some after) :
    Sound after := by
  have reads := sound.reads_le inTable inHeap caller
  have inactive := sound.inactive_of_reads inTable inHeap holds notEscalated
  refine sound.conclude inTable inHeap isPlace used (.inr ⟨_, rfl, fun other => absurd rfl other⟩)
    (fun other isOther => ⟨by simp [Thread.dropRead, isOther], rfl, rfl⟩)
    (by unfold NodeLock.readUnlock; split_ifs <;> grind) ?_
  intro lock' done
  unfold NodeLock.readUnlock at done
  split_ifs at done
  cases done
  refine ⟨rfl, rfl, ?_, fun member _ => .of_inactive (inactive member),
    .of_inactive (inactive caller)⟩
  simp [NodeLock.load, Thread.load, Thread.setPlace, Thread.dropRead, Place.load, isPlace,
    Call.waitsToRead, Call.waitsToWrite]
  omega

theorem useWriteLock
    (isPlace : (state.threads caller).place = .calling .writeLock pageId pointer birth)
    (used : state.useLock caller .writeLock pageId pointer lock = some after) :
    Sound after := by
  have waiting := sound.writeWait_pos inTable inHeap isPlace rfl
  refine sound.conclude inTable inHeap isPlace used
    (.inr ⟨_, rfl, fun _ => .inr (by simp [Thread.setWrites])⟩)
    (fun other isOther => ⟨rfl, by simp [Thread.setWrites, isOther], rfl⟩)
    (by unfold NodeLock.writeLock; split_ifs <;> simp) ?_
  intro lock' done
  unfold NodeLock.writeLock at done
  split_ifs at done with others
  cases done
  rw [not_or] at others
  have unwritten := Bool.eq_false_iff.mpr others.2
  obtain ⟨notWriting, notEscalated⟩ := sound.inactive inTable inHeap unwritten caller
  refine ⟨rfl, rfl, ?_, fun member _ => sound.fits_inactive inTable inHeap unwritten _ member,
    fun _ => ?_, ?_⟩
  · simp [NodeLock.load, Thread.load, Thread.setPlace, Thread.setWrites, Place.load,
      isPlace, notWriting, notEscalated, unwritten, Call.waitsToRead, Call.waitsToWrite]
    omega
  · exact Nat.eq_zero_of_not_pos others.1
  · intro held
    change (state.threads caller).escalated pageId = true at held
    rw [notEscalated] at held
    cases held

theorem useAlleviateLock
    (isPlace : (state.threads caller).place = .calling .alleviateLock pageId pointer birth)
    (held : (state.threads caller).escalated pageId = true)
    (used : state.useLock caller .alleviateLock pageId pointer lock = some after) :
    Sound after := by
  have fits := sound.fits_lock inTable inHeap
  have active := sound.active_le inTable inHeap caller
  obtain ⟨ownRead, onlyRead⟩ := (fits caller).escalated held
  have notWriting : (state.threads caller).writes pageId = false :=
    Bool.eq_false_iff.mpr fun writes => by
      have noReader := (fits caller).writes writes
      omega
  have isActive : lock.writeActive = true := by
    cases isActive : lock.writeActive <;> simp_all
  refine sound.conclude inTable inHeap isPlace used
    (.inr ⟨_, rfl, fun _ => .inl (by simp [Thread.setEscalated, ownRead])⟩)
    (fun other isOther => ⟨rfl, rfl, by simp [Thread.setEscalated, isOther]⟩)
    (by simp [NodeLock.alleviateLock, isActive, onlyRead]) ?_
  intro lock' done
  rw [NodeLock.alleviateLock, if_pos ⟨isActive, onlyRead⟩] at done
  cases done
  refine ⟨rfl, rfl, ?_, fun member _ => fits member, (fits caller).writes, ?_⟩
  · simp [NodeLock.load, Thread.load, Thread.setPlace, Thread.setEscalated, Place.load,
      isPlace, notWriting, held, isActive, Call.waitsToRead, Call.waitsToWrite]
  · intro again
    simp [Thread.setPlace, Thread.setEscalated] at again

theorem useWriteUnlock
    (isPlace : (state.threads caller).place = .calling .writeUnlock pageId pointer birth)
    (held : (state.threads caller).writes pageId = true)
    (used : state.useLock caller .writeUnlock pageId pointer lock = some after) :
    Sound after := by
  have fits := sound.fits_lock inTable inHeap
  have active := sound.active_le inTable inHeap caller
  have noReader := (fits caller).writes held
  have notEscalated : (state.threads caller).escalated pageId = false :=
    Bool.eq_false_iff.mpr fun escalated => by
      have onlyRead := ((fits caller).escalated escalated).2
      omega
  have isActive : lock.writeActive = true := by
    cases isActive : lock.writeActive <;> simp_all
  refine sound.conclude inTable inHeap isPlace used
    (.inr ⟨_, rfl, fun other => absurd rfl other⟩)
    (fun other isOther => ⟨rfl, by simp [Thread.setWrites, isOther], rfl⟩)
    (by simp [NodeLock.writeUnlock, isActive]) ?_
  intro lock' done
  simp only [NodeLock.writeUnlock, isActive, if_true] at done
  cases done
  refine ⟨rfl, rfl, ?_, fun member _ => fits member, ?_, (fits caller).escalated⟩
  · simp [NodeLock.load, Thread.load, Thread.setPlace, Thread.setWrites, Place.load,
      isPlace, notEscalated, held, isActive, Call.waitsToRead, Call.waitsToWrite]
  · intro again
    simp [Thread.setPlace, Thread.setWrites] at again

theorem useConfirm
    (isPlace : (state.threads caller).place = .calling .confirm pageId pointer birth)
    (used : state.useLock caller .confirm pageId pointer lock = some after) :
    Sound after := by
  have fits := sound.fits_lock inTable inHeap
  obtain ⟨found, inHeapToo, isPage⟩ := sound.table pageId pointer inTable
  rw [inHeap] at inHeapToo
  cases inHeapToo
  simp only [State.useLock, if_pos isPage] at used
  refine sound.conclude inTable inHeap isPlace used (.inl rfl) (fun _ _ => ⟨rfl, rfl, rfl⟩) nofun ?_
  rintro _ ⟨⟩
  refine ⟨rfl, rfl, ?_, fun member _ => fits member,
    ⟨(fits caller).writes, (fits caller).escalated⟩⟩
  simp [Thread.load, Thread.setPlace, Place.load, isPlace, Call.waitsToRead,
    Call.waitsToWrite]

theorem useLock {call : Call}
    (isPlace : (state.threads caller).place = .calling call pageId pointer birth)
    (needs : call.Needs (state.threads caller) pageId)
    (used : state.useLock caller call pageId pointer lock = some after) : Sound after := by
  cases call with
  | tryReadLock => exact sound.useTryReadLock inTable inHeap isPlace used
  | tryReadLockEnd => exact sound.useTryReadLockEnd inTable inHeap isPlace used
  | readLock => exact sound.useReadLock inTable inHeap isPlace used
  | escalateLock => exact sound.useEscalateLock inTable inHeap isPlace needs used
  | readUnlock => exact sound.useReadUnlock inTable inHeap isPlace needs.1 needs.2 used
  | writeLock => exact sound.useWriteLock inTable inHeap isPlace used
  | alleviateLock => exact sound.useAlleviateLock inTable inHeap isPlace needs used
  | writeUnlock => exact sound.useWriteUnlock inTable inHeap isPlace needs used
  | confirm => exact sound.useConfirm inTable inHeap isPlace used
  | release => cases used

end useLock

/-! ## The table -/

section table

variable {caller : thread} {pageId : Int}

/-- The first critical section of a call whose lock is in the table. -/
theorem fetch {pointer : Nat} {lock : NodeLock}
    (inTable : state.lockTable pageId = some pointer)
    (inHeap : state.heap pointer = some lock)
    (isIdle : (state.threads caller).place = .idle) (call : Call)
    (raise : NodeLock → NodeLock) (sameId : (raise lock).nodeId = lock.nodeId)
    (sameBirth : (raise lock).birth = lock.birth)
    (raised : (raise lock).load = lock.load +
      (0, call.waitsToRead.toNat, call.waitsToWrite.toNat, 0))
    (needs : call ≠ .release → call.Needs (state.threads caller) pageId) :
    Sound (state.fetch caller call pageId raise) := by
  have sameCount : (raise lock).readCount = lock.readCount := congrArg Prod.fst raised
  have fits := sound.fits_lock inTable inHeap
  have isPlace : (Place.calling call pageId pointer lock.birth).load pageId =
      (0, call.waitsToRead.toNat, call.waitsToWrite.toNat, 0) := if_pos rfl
  simp only [State.fetch, inTable, inHeap]
  refine sound.advance inTable inHeap sameId sameBirth ?_
    ⟨fun _ _ => rfl, fun _ _ => rfl, fun _ _ => rfl, fun other isOther => ?_⟩
    (fun member _ => sameCount ▸ fits member)
    (sameCount ▸ ⟨(fits caller).writes, (fits caller).escalated⟩) ?_
  · rw [Thread.load_of_idle isIdle, isPlace, raised]
    abel
  · rw [isIdle]
    exact if_neg isOther.symm
  · intro further page address born isNext notRelease
    cases isNext
    exact ⟨inTable, ⟨_, Function.update_self .., sameBirth⟩, needs notRelease⟩

omit [DecidableEq thread] in
/-- The lock of a page that has none is made with its counters at zero. -/
theorem insertLockTable {fresh : Nat} (noEntry : state.lockTable pageId = none)
    (isFresh : state.heap fresh = none) : Sound (state.insertLockTable pageId fresh) := by
  have notFresh : ∀ page address, state.lockTable page = some address → address ≠ fresh := by
    rintro page address hasAddress rfl
    obtain ⟨lock, inHeap, _⟩ := sound.table page address hasAddress
    rw [isFresh] at inHeap
    cases inHeap
  have loadEq : ∀ page, (state.insertLockTable pageId fresh).load page = state.load page := by
    intro page
    by_cases isPage : page = pageId
    · subst isPage
      simp [State.load, State.lockOf, State.insertLockTable, noEntry, NodeLock.load]
    · cases elsewhere : state.lockTable page with
      | none => simp [State.load, State.lockOf, State.insertLockTable, isPage, elsewhere]
      | some address =>
          simp [State.load, State.lockOf, State.insertLockTable, isPage, elsewhere,
            notFresh page address elsewhere]
  refine ⟨sound.noFault, fun page address hasAddress => ?_, fun address found isFound => ?_,
    fun page => (loadEq page).trans (sound.loads page),
    fun member page => (loadEq page).symm ▸ sound.fits member page,
    fun member call page address birth isPlace notRelease => ?_⟩
  · by_cases isPage : page = pageId
    · subst isPage
      simp only [State.insertLockTable, Function.update_self, Option.some.injEq] at hasAddress
      subst hasAddress
      exact ⟨_, Function.update_self .., rfl⟩
    · simp only [State.insertLockTable, Function.update_of_ne isPage] at hasAddress
      obtain ⟨found, inHeap, sameId⟩ := sound.table page address hasAddress
      exact ⟨found, (Function.update_of_ne (notFresh page address hasAddress) ..).trans inHeap,
        sameId⟩
  · by_cases same : address = fresh
    · subst same
      simp only [State.insertLockTable, Function.update_self, Option.some.injEq] at isFound
      subst isFound
      exact Function.update_self ..
    · simp only [State.insertLockTable, Function.update_of_ne same] at isFound
      have entry := sound.heap address found isFound
      have isPage : found.nodeId ≠ pageId := by
        intro isPage
        rw [isPage, noEntry] at entry
        cases entry
      exact (Function.update_of_ne isPage ..).trans entry
  · obtain ⟨hasAddress, ⟨found, inHeap, isBirth⟩, needs⟩ :=
      sound.placed member call page address birth isPlace notRelease
    have isPage : page ≠ pageId := by
      rintro rfl
      rw [noEntry] at hasAddress
      cases hasAddress
    exact ⟨(Function.update_of_ne isPage ..).trans hasAddress,
      ⟨found, (Function.update_of_ne (notFresh page address hasAddress) ..).trans inHeap,
        isBirth⟩, needs⟩

omit [DecidableEq thread] in
theorem findOrInsert {fresh : Nat} (isFresh : state.heap fresh = none) :
    Sound (state.findOrInsert pageId fresh) ∧ ∃ pointer lock,
      (state.findOrInsert pageId fresh).lockTable pageId = some pointer ∧
        (state.findOrInsert pageId fresh).heap pointer = some lock := by
  unfold State.findOrInsert
  split_ifs with noEntry
  · exact ⟨sound.insertLockTable noEntry isFresh, fresh, _, Function.update_self ..,
      Function.update_self ..⟩
  · obtain ⟨pointer, inTable⟩ := Option.ne_none_iff_exists'.mp noEntry
    obtain ⟨lock, inHeap, _⟩ := sound.table pageId pointer inTable
    exact ⟨sound, pointer, lock, inTable, inHeap⟩

omit [DecidableEq thread] in
/-- The assertion that `TryReadLock` makes on the lock it has found holds. -/
theorem assertNodeId : state.assertNodeId pageId = state := by
  refine if_neg fun wrong => ?_
  obtain ⟨lock, isLock, different⟩ := (Option.any_eq_true _ _).mp wrong
  obtain ⟨pointer, inTable, inHeap⟩ := Option.bind_eq_some_iff.mp isLock
  obtain ⟨found, inHeapToo, isPage⟩ := sound.table pageId pointer inTable
  rw [inHeap] at inHeapToo
  cases inHeapToo
  exact of_decide_eq_true different isPage

theorem begin {operation : Operation} {fresh : Nat}
    (isIdle : (state.threads caller).place = .idle) (isFresh : state.heap fresh = none)
    (disciplined : Disciplined state (.begin caller operation pageId fresh)) :
    Sound (state.begin caller operation pageId fresh) := by
  have sameThreads : (state.findOrInsert pageId fresh).threads = state.threads := by
    unfold State.findOrInsert
    split_ifs <;> rfl
  obtain ⟨found, _, _, hasEntry, hasLock⟩ := sound.findOrInsert isFresh
  rw [← sameThreads] at isIdle
  cases operation with
  | tryReadLock =>
      have fetched := found.fetch hasEntry hasLock isIdle .tryReadLock State.raiseReadWait
        rfl rfl rfl (fun _ => trivial)
      change Sound (State.assertNodeId _ pageId)
      rwa [fetched.assertNodeId]
  | readLock =>
      exact found.fetch hasEntry hasLock isIdle _ _ rfl rfl rfl (fun _ => trivial)
  | writeLock =>
      exact found.fetch hasEntry hasLock isIdle _ _ rfl rfl rfl (fun _ => trivial)
  | alleviateLock =>
      obtain ⟨pointer, lock, inTable, inHeap⟩ := sound.hasLock (.inr (.inr disciplined))
      exact sound.fetch inTable inHeap (sameThreads ▸ isIdle) _ _ rfl rfl rfl
        (fun _ => disciplined)
  | escalateLock =>
      obtain ⟨pointer, lock, inTable, inHeap⟩ := sound.hasLock (.inl disciplined)
      exact sound.fetch inTable inHeap (sameThreads ▸ isIdle) _ _ rfl rfl rfl
        (fun _ => disciplined)
  | readUnlock =>
      obtain ⟨pointer, lock, inTable, inHeap⟩ := sound.hasLock (.inl disciplined.1)
      have isThere : state.lockTable pageId ≠ none := by simp [inTable]
      change Sound (if _ then _ else _)
      rw [if_neg isThere]
      exact sound.fetch inTable inHeap (sameThreads ▸ isIdle) _ _ rfl rfl rfl
        (fun _ => disciplined)
  | writeUnlock =>
      obtain ⟨pointer, lock, inTable, inHeap⟩ := sound.hasLock (.inr (.inl disciplined))
      exact sound.fetch inTable inHeap (sameThreads ▸ isIdle) _ _ rfl rfl rfl
        (fun _ => disciplined)

end table

/-! ## Deletion -/

section deletion

variable {caller : thread} {pageId : Int} {pointer : Nat} {lock : NodeLock}

omit [DecidableEq thread] in
/-- Nobody holds or waits for a lock that is not in use. -/
theorem load_eq_zero (inTable : state.lockTable pageId = some pointer)
    (inHeap : state.heap pointer = some lock) (unused : lock.inUse = false)
    (member : thread) : (state.threads member).load pageId = 0 := by
  have le := sound.le_load member pageId
  rw [load_eq inTable inHeap, NodeLock.load_of_not_inUse unused] at le
  exact le_antisymm le zero_le

omit [DecidableEq thread] in
theorem delete (inTable : state.lockTable pageId = some pointer)
    (inHeap : state.heap pointer = some lock) (unused : lock.inUse = false) :
    Sound (state.delete pageId pointer) := by
  have noLoad := sound.load_eq_zero inTable inHeap unused
  have notPointer : ∀ page address, page ≠ pageId → state.lockTable page = some address →
      address ≠ pointer := by
    rintro page address isOther hasAddress rfl
    exact isOther (sound.pointer_inj hasAddress inTable)
  have loadEq : ∀ page, (state.delete pageId pointer).load page = state.load page := by
    intro page
    by_cases isPage : page = pageId
    · subst isPage
      rw [sound.loads, Finset.sum_eq_zero fun member _ => noLoad member]
      simp [State.load, State.lockOf, State.delete]
    · cases elsewhere : state.lockTable page with
      | none => simp [State.load, State.lockOf, State.delete, isPage, elsewhere]
      | some address =>
          simp [State.load, State.lockOf, State.delete, isPage, elsewhere,
            notPointer page address isPage elsewhere]
  refine ⟨sound.noFault, fun page address hasAddress => ?_, fun address found isFound => ?_,
    fun page => (loadEq page).trans (sound.loads page),
    fun member page => (loadEq page).symm ▸ sound.fits member page,
    fun member call page address birth isPlace notRelease => ?_⟩
  · by_cases isPage : page = pageId
    · simp [State.delete, isPage] at hasAddress
    · simp only [State.delete, Function.update_of_ne isPage] at hasAddress
      obtain ⟨found, inHeapToo, sameId⟩ := sound.table page address hasAddress
      exact ⟨found, (Function.update_of_ne (notPointer page address isPage hasAddress) ..).trans
        inHeapToo, sameId⟩
  · by_cases same : address = pointer
    · simp [State.delete, same] at isFound
    · simp only [State.delete, Function.update_of_ne same] at isFound
      have entry := sound.heap address found isFound
      have isOther : found.nodeId ≠ pageId := by
        intro isPage
        rw [isPage, inTable] at entry
        cases entry
        exact same rfl
      exact (Function.update_of_ne isOther ..).trans entry
  · obtain ⟨hasAddress, ⟨found, inHeapToo, isBirth⟩, needs⟩ :=
      sound.placed member call page address birth isPlace notRelease
    have isOther : page ≠ pageId := by
      rintro rfl
      exact Thread.load_ne_zero_iff.mpr (needs.holds_or_waits notRelease isPlace)
        (noLoad member)
    exact ⟨(Function.update_of_ne isOther ..).trans hasAddress,
      ⟨found, (Function.update_of_ne (notPointer page address isOther hasAddress) ..).trans
        inHeapToo, isBirth⟩, needs⟩

theorem release {birth : Nat}
    (isPlace : (state.threads caller).place = .calling .release pageId pointer birth) :
    Sound (state.release caller pageId pointer) := by
  have noLoad : ∀ page, Place.idle.load page = (state.threads caller).place.load page := by
    intro page
    rw [isPlace]
    exact (ite_self _).symm
  have stays : Sound (state.setThread caller ((state.threads caller).setPlace .idle)) :=
    sound.setPlace noLoad nofun
  unfold State.release
  split_ifs with inTable
  · obtain ⟨lock, inHeap, isPage⟩ := sound.table pageId pointer inTable
    simp only [inHeap, isPage, true_and]
    split_ifs with unused
    · exact (sound.delete inTable inHeap unused).setPlace noLoad nofun
    · exact stays
  · exact stays

end deletion

theorem go {caller : thread} {after : State thread} (went : state.go caller = some after) :
    Sound after := by
  unfold State.go at went
  rcases isPlace : (state.threads caller).place with _ | ⟨call, pageId, pointer, birth⟩
  · rw [isPlace] at went
    cases went
  · simp only [isPlace] at went
    by_cases isRelease : call = .release
    · subst isRelease
      rw [if_pos rfl] at went
      cases went
      exact sound.release isPlace
    · obtain ⟨inTable, ⟨lock, inHeap, isBirth⟩, needs⟩ :=
        sound.placed caller call pageId pointer birth isPlace isRelease
      simp only [if_neg isRelease, inHeap, if_pos isBirth] at went
      exact sound.useLock inTable inHeap isPlace needs went

theorem busy {caller : thread} {after : State thread}
    (waited : state.busy caller = some after) : Sound after := by
  unfold State.busy at waited
  rcases isPlace : (state.threads caller).place with _ | ⟨call, pageId, pointer, birth⟩
  · rw [isPlace] at waited
    cases waited
  · simp only [isPlace] at waited
    cases call
    case tryReadLock =>
      cases waited
      refine sound.setPlace (fun page => by rw [isPlace]; rfl) ?_
      intro call page address born isNext notRelease
      cases isNext
      obtain ⟨inTable, hasLock, _⟩ := sound.placed caller _ _ _ _ isPlace nofun
      exact ⟨inTable, hasLock, trivial⟩
    all_goals cases waited

theorem step {taken : Act thread} {after : State thread}
    (disciplined : Disciplined state taken) (stepped : state.step taken = some after) :
    Sound after := by
  cases taken with
  | begin caller operation pageId fresh =>
      obtain ⟨⟨_, isIdle, isFresh⟩, ⟨⟩⟩ := Option.ite_none_right_eq_some.mp stepped
      exact sound.begin isIdle isFresh disciplined
  | go caller => exact sound.go (Option.ite_none_right_eq_some.mp stepped).2
  | busy caller => exact sound.busy (Option.ite_none_right_eq_some.mp stepped).2

end Sound

omit [DecidableEq thread] in
theorem sound_initial : Sound (initial : State thread) where
  noFault := rfl
  table := nofun
  heap := nofun
  loads pageId := by
    have noLoad : ∀ member : thread, (initial.threads member).load pageId = 0 :=
      fun _ => rfl
    rw [Finset.sum_eq_zero fun member _ => noLoad member]
    rfl
  fits _ _ := ⟨nofun, nofun⟩
  placed _ := nofun

/-! ## What the lock manager promises -/

/-- A lock that a step deletes counts nothing. -/
theorem Sound.load_of_deleted {state after : State thread} (sound : Sound state)
    {taken : Act thread} (stepped : state.step taken = some after) {pointer : Nat}
    {lock : NodeLock} (inHeap : state.heap pointer = some lock)
    (gone : after.heap pointer = none) (member : thread) :
    (state.threads member).load lock.nodeId = 0 := by
  have isThere : state.heap pointer ≠ none := by simp [inHeap]
  cases taken with
  | begin caller operation pageId fresh =>
      obtain ⟨_, ⟨⟩⟩ := Option.ite_none_right_eq_some.mp stepped
      exact absurd gone (keeps_begin operation fresh pointer isThere)
  | go caller =>
      have went := (Option.ite_none_right_eq_some.mp stepped).2
      unfold State.go at went
      rcases isPlace : (state.threads caller).place with _ | ⟨call, pageId, address, birth⟩
      · rw [isPlace] at went
        cases went
      · simp only [isPlace] at went
        by_cases isRelease : call = .release
        · rw [if_pos isRelease] at went
          cases went
          unfold State.release at gone
          split_ifs at gone with inTable
          · obtain ⟨found, foundInHeap, isPage⟩ := sound.table pageId address inTable
            simp only [foundInHeap, isPage, true_and] at gone
            split_ifs at gone with unused
            · have same : pointer = address := by
                by_contra different
                exact isThere ((Function.update_of_ne different ..).symm.trans gone)
              subst same
              rw [inHeap] at foundInHeap
              cases foundInHeap
              rw [isPage]
              exact sound.load_eq_zero inTable inHeap unused member
            · exact absurd gone isThere
          · exact absurd gone isThere
        · obtain ⟨_, ⟨found, foundInHeap, isBirth⟩, _⟩ :=
            sound.placed caller call pageId address birth isPlace isRelease
          simp only [if_neg isRelease, foundInHeap, if_pos isBirth] at went
          exact absurd gone (keeps_useLock went pointer isThere)
  | busy caller =>
      have waited := (Option.ite_none_right_eq_some.mp stepped).2
      have sameHeap : after.heap = state.heap := by
        unfold State.busy at waited
        split at waited
        · cases waited
          rfl
        · cases waited
      rw [sameHeap] at gone
      exact absurd gone isThere

/-- A fault is a failed assertion or the use of a lock that has been deleted. -/
structure Safe (state : State thread) : Prop where
  noFault : state.fault = none
  /-- Beside a writer or an escalated reader nobody holds the lock. -/
  exclusive : ∀ first second pageId, first ≠ second →
    (state.threads first).writes pageId = true ∨
      (state.threads first).escalated pageId = true →
    ¬ (state.threads second).Holds pageId
  /-- Nobody holds or waits for a lock that the next step deletes. -/
  deletes : ∀ taken after pointer lock, Disciplined state taken →
    state.step taken = some after → state.heap pointer = some lock →
    after.heap pointer = none → ∀ member, ¬ (state.threads member).Holds lock.nodeId ∧
      ¬ (state.threads member).Waits lock.nodeId

theorem Sound.safe {state : State thread} (sound : Sound state) : Safe state where
  noFault := sound.noFault
  exclusive first second pageId different active := by
    obtain ⟨pointer, lock, inTable, inHeap⟩ := sound.hasLock (.inr active)
    have both := sound.add_le_load different pageId
    rw [load_eq inTable inHeap] at both
    obtain ⟨reads, -, -, actives⟩ := both
    have fit := sound.fits_lock inTable inHeap first
    simp only [Thread.load, NodeLock.load, Prod.fst_add, Prod.snd_add] at reads actives
    have atMostOne := lock.writeActive.toNat_le
    rintro (holds | holds | holds)
    · rcases active with writes | escalated
      · have noReader := fit.writes writes
        omega
      · have onlyReader := fit.escalated escalated
        omega
    · rcases active with held | held <;> rw [holds, held] at actives <;> simp at actives <;>
        omega
    · rcases active with held | held <;> rw [holds, held] at actives <;> simp at actives <;>
        omega
  deletes taken after pointer lock _ stepped inHeap gone member := by
    have noLoad := sound.load_of_deleted stepped inHeap gone member
    rw [← not_or]
    exact fun counted => Thread.load_ne_zero_iff.mpr counted noLoad

theorem lock_manager_safe {reached : State thread}
    (ran : Reaches State.step Disciplined initial reached) : Safe reached :=
  (ran.invariant Sound sound_initial
    fun _ _ _ sound disciplined stepped => sound.step disciplined stepped).safe

/-- One thread writes; the other one has looked for the lock meanwhile. -/
theorem lock_manager_safe_writing : ∃ reached : State Bool,
    (reached.threads false).writes 7 = true ∧
      (reached.threads true).place = .calling .tryReadLockEnd 7 0 0 ∧ Safe reached :=
  ⟨_, rfl, rfl, lock_manager_safe (.next (.go true) (.next (.begin true .tryReadLock 7 1)
    (.next (.go false) (.next (.begin false .writeLock 7 0) .start trivial rfl)
      trivial rfl) trivial rfl) trivial rfl)⟩

end AhaTree.LockManager
