import AhaTree.BackgroundJobs
import Mathlib.Tactic.Ring

/-!
# The locks that the background jobs return

Every piece of a job has an account of the locks that it takes and gives back,
whatever it is answered.  Most pieces settle their account.  A flush to the
children of the root gives the lock `-1` back for its caller, and so on up to the
job that took it.
-/

namespace AhaTree.Jobs

open Lib (Program)
open Lsmt

variable {rootPgId : PageId}

/-! ## The holds of a thread -/

inductive Mode where
  | read
  | write
  deriving DecidableEq, Repr

namespace LockCall

def mode : LockCall → Mode
  | readLock | readUnlock => .read
  | writeLock | writeUnlock | escalateLock | alleviateLock => .write

/-- An escalated lock is held for writing on top of the hold for reading. -/
def gain : LockCall → ℤ
  | readLock | writeLock | escalateLock => 1
  | readUnlock | writeUnlock | alleviateLock => -1

end LockCall

abbrev Event (rootPgId : PageId) := Program.Event Ask (Reply rootPgId)

/-- How often a thread holds each lock in each mode. -/
abbrev Holds := Int × Mode → ℤ

def Holds.next (held : Holds) (event : Event rootPgId) : Holds :=
  match event.1 with
  | .lock call id =>
      Function.update held (id, call.mode) (held (id, call.mode) + call.gain)
  | _ => held

def Holds.after (held : Holds) (log : List (Event rootPgId)) : Holds :=
  log.foldl Holds.next held

/-- Whatever the thread held before, it holds again. -/
def ReturnsHolds (log : List (Event rootPgId)) : Prop :=
  ∀ held : Holds, held.after log = held

/-- What a call adds to an account. -/
def delta (call : LockCall) (id : Int) (account : Int × Mode) : ℤ :=
  if (id, call.mode) = account then call.gain else 0

def weight (event : Event rootPgId) (account : Int × Mode) : ℤ :=
  match event.1 with
  | .lock call id => delta call id account
  | _ => 0

theorem next_eq (held : Holds) (event : Event rootPgId) (account : Int × Mode) :
    held.next event account = held account + weight event account := by
  obtain ⟨ask, reply⟩ := event
  cases ask with
  | lock call id =>
      by_cases same : (id, call.mode) = account
      · simp [Holds.next, weight, delta, ← same]
      · simp [Holds.next, weight, delta, same, Function.update_of_ne (Ne.symm same)]
  | _ => simp [Holds.next, weight]

theorem after_eq (held : Holds) (log : List (Event rootPgId)) (account : Int × Mode) :
    held.after log account = held account + Program.net weight log account := by
  induction log generalizing held with
  | nil => simp [Holds.after, Program.net]
  | cons event log ih =>
      have later := ih (held.next event)
      rw [next_eq] at later
      rw [Holds.after, List.foldl_cons, ← Holds.after, later, Program.net, Program.net,
        List.map_cons, List.sum_cons, add_assoc]

theorem returnsHolds_iff {log : List (Event rootPgId)} :
    ReturnsHolds log ↔ ∀ account, Program.net weight log account = 0 := by
  constructor
  · intro returns account
    have same := congrFun (returns fun _ => 0) account
    rwa [after_eq, zero_add] at same
  · intro nothing held
    funext account
    rw [after_eq, nothing, add_zero]

theorem delta_opposite {back call : LockCall} (sameMode : back.mode = call.mode)
    (opposite : back.gain = -call.gain) (id : Int) (account : Int × Mode) :
    delta back id account = -delta call id account := by
  rw [delta, delta, sameMode, opposite]
  split
  · rfl
  · exact neg_zero.symm

@[simp] theorem delta_readUnlock (id : Int) (account : Int × Mode) :
    delta .readUnlock id account = -delta .readLock id account :=
  @delta_opposite .readUnlock .readLock rfl rfl id account

@[simp] theorem delta_writeUnlock (id : Int) (account : Int × Mode) :
    delta .writeUnlock id account = -delta .writeLock id account :=
  @delta_opposite .writeUnlock .writeLock rfl rfl id account

@[simp] theorem delta_alleviateLock (id : Int) (account : Int × Mode) :
    delta .alleviateLock id account = -delta .escalateLock id account :=
  @delta_opposite .alleviateLock .escalateLock rfl rfl id account

/-! ## The accounts of the pieces -/

open Lib.Program (Nets nets_done nets_ask nets_bind nets_quiet nets_settled)

section Pieces

variable {α : Type} {gain : α → Int × Mode → ℤ}

theorem nets_lock {call : LockCall} {id : Int} {rest : Unit → Code rootPgId α}
    (later : Nets weight (rest ())
      (fun result account => gain result account - delta call id account)) :
    Nets weight (Program.perform (Ask.lock call id) >>= rest) gain :=
  nets_ask fun _ => later

theorem nets_last {call : LockCall} {id : Int} {total : Unit → Int × Mode → ℤ}
    (last : ∀ account, total () account = delta call id account) :
    Nets weight (Program.perform (Ask.lock call id) : Code rootPgId Unit) total := by
  apply nets_ask
  intro answer
  apply nets_done
  intro account
  exact sub_eq_zero.mpr (last account)

theorem nets_read {flag : Flag} {rest : Bool → Code rootPgId α}
    (later : ∀ answer, Nets weight (rest answer) gain) :
    Nets weight (read flag >>= rest) gain :=
  nets_quiet (fun _ _ => rfl) later

theorem settled_ask {question : Ask} (noCall : ∀ call id, question ≠ .lock call id) :
    Nets weight (Program.perform question : Code rootPgId (Reply rootPgId question))
      (fun _ _ => 0) := by
  apply nets_quiet
  · intro answer account
    cases question with
    | lock call id => exact absurd rfl (noCall call id)
    | _ => rfl
  · intro answer
    exact nets_done fun _ => rfl

theorem nets_bottomLevelFiles {id : PageId}
    {rest : Int × List FileMetaData → Code rootPgId α}
    (later : ∀ level files, Nets weight (rest (level, files)) gain) :
    Nets weight (bottomLevelFiles id >>= rest) gain :=
  nets_settled (@settled_ask _ (.bottomLevelFiles id) (by simp))
    fun answer => later answer.1 answer.2

theorem nets_abort : Nets weight (abort : Code rootPgId α) gain :=
  nets_ask fun impossible => impossible.elim

/-- An escalation that is taken back leaves nothing behind. -/
theorem nets_escalated {id : Int} {rest : Unit → Code rootPgId α}
    (later : Nets weight (rest ()) gain) :
    Nets weight (escalateLock id >>= fun _ => alleviateLock id >>= rest) gain := by
  apply nets_lock
  apply nets_lock
  apply later.congr
  intro result account
  simp

theorem settled_escalated (id : Int) :
    Nets weight (escalateLock id >>= fun _ => alleviateLock id : Code rootPgId Unit)
      (fun _ _ => 0) := by
  apply nets_lock
  apply nets_last
  intro account
  simp

end Pieces

theorem nets_writeUnlock (id : Int) :
    Nets weight (writeUnlock id : Code rootPgId Unit)
      (fun _ account => -delta .writeLock id account) :=
  nets_last fun account => (delta_writeUnlock id account).symm

/-! ### Flushing a memtable and compacting -/

theorem nets_compactMemTable :
    Nets weight (compactMemTable : Code rootPgId Unit)
      (fun _ account => -delta .writeLock (-1) account) := by
  apply nets_lock
  apply nets_lock
  apply nets_last
  intro account
  simp

theorem nets_backgroundCompaction :
    Nets weight (backgroundCompaction : Code rootPgId Unit)
      (fun _ account => -delta .writeLock (-1) account) := by
  apply nets_read
  intro immIsNull
  split
  · exact nets_compactMemTable
  · apply nets_lock
    apply nets_lock
    apply nets_settled (@settled_ask _ .bottomLevel (by simp))
    intro bottom
    split
    · exact nets_abort
    · apply nets_last
      intro account
      simp

theorem nets_compactUnlessScheduled :
    Nets weight (compactUnlessScheduled : Code rootPgId Unit)
      (fun _ account => -delta .writeLock (-1) account) := by
  apply nets_read
  intro scheduled
  split
  · exact nets_compactMemTable
  · exact nets_writeUnlock (-1)

theorem settled_adaptMem : Nets weight (adaptMem : Code rootPgId Unit) (fun _ _ => 0) := by
  apply nets_lock
  simp only [zero_sub]
  apply nets_read
  intro shuttingDown
  split
  · exact nets_writeUnlock (-1)
  · apply nets_read
    intro hasImm
    split
    · exact nets_writeUnlock (-1)
    · exact nets_compactUnlessScheduled

theorem settled_adaptImm : Nets weight (adaptImm : Code rootPgId Unit) (fun _ _ => 0) := by
  apply nets_lock
  simp only [zero_sub]
  apply nets_read
  intro shuttingDown
  split
  · exact nets_writeUnlock (-1)
  · apply nets_read
    intro immIsNull
    split
    · exact nets_writeUnlock (-1)
    · exact nets_compactUnlessScheduled

/-! ### Flushing to the children -/

theorem settled_appendToNode (child : ChildId rootPgId) (remains : List FileMetaData)
    (pivot : Slice) (children : Children rootPgId) :
    Nets weight (appendToNode child remains pivot children) (fun _ _ => 0) := by
  apply nets_settled (@settled_ask _ (.bufferAppendFiles child remains) (by simp))
  intro state
  exact nets_done fun _ => rfl

theorem settled_appendFilesToChild (child : ChildId rootPgId) (remains : List FileMetaData)
    (pivot : Slice) (children : Children rootPgId) :
    Nets weight (appendFilesToChild child remains pivot children) (fun _ _ => 0) := by
  apply nets_lock
  apply nets_read
  intro inTable
  apply nets_read
  intro hasLsmt
  apply nets_settled
  · split
    · exact settled_appendToNode child remains pivot children
    · split
      · exact nets_done fun _ => rfl
      · exact nets_done fun _ => rfl
  · intro after
    apply nets_lock
    apply nets_done
    intro account
    simp

theorem settled_appendToChildren (items : List (Slice × ChildId rootPgId))
    (files : List FileMetaData) (children : Children rootPgId) :
    Nets weight (appendToChildren items files children) (fun _ _ => 0) := by
  induction items, files, children using appendToChildren.induct with
  | case1 files children => exact nets_done fun _ => rfl
  | case2 items children _ =>
      rw [appendToChildren.eq_2]
      · exact nets_done fun _ => rfl
      · assumption
  | case3 pivot child files children _ =>
      rw [appendToChildren.eq_3]
      · exact settled_appendFilesToChild child files pivot children
      · assumption
  | case4 pivot child nextPivot next items files children _ ih =>
      rw [appendToChildren.eq_4]
      · exact nets_settled (settled_appendFilesToChild _ _ _ _) ih
      · assumption

theorem settled_compactChildren (children overflow : List (Slice × ChildId rootPgId)) :
    Nets weight (compactChildren children overflow) (fun _ _ => 0) := by
  induction children generalizing overflow with
  | nil => exact nets_done fun _ => rfl
  | cons child children ih =>
      rw [compactChildren]
      apply nets_lock
      apply nets_settled (@settled_ask _ (.bufferCompactTopLevel child.2) (by simp))
      intro state
      apply nets_lock
      apply (ih _).congr
      intro result account
      simp

theorem lockNodeId_eq_iff {pgId : PageId} : lockNodeId rootPgId pgId = -1 ↔ pgId = rootPgId := by
  rw [lockNodeId]
  split
  · exact iff_of_true rfl ‹_›
  · refine iff_of_false ?_ ‹_›
    have atLeast := Int.natCast_nonneg pgId
    omega

/-- The flush from the LSMT above the tree gives its lock back. -/
theorem nets_flushFilesToChildrenNoSplit (pgId : PageId) (files : List FileMetaData) :
    Nets weight (flushFilesToChildrenNoSplit pgId files :
        Code rootPgId (List (Slice × ChildId rootPgId)))
      (fun _ account => if pgId = rootPgId then -delta .readLock (-1) account else 0) := by
  apply nets_settled (@settled_ask _ (.lookup pgId) (by simp))
  intro items
  apply nets_settled (settled_appendToChildren _ files _)
  intro children
  apply nets_settled (settled_compactChildren _ _)
  intro overflow
  apply nets_escalated
  simp only [lockNodeId_eq_iff]
  by_cases isRoot : pgId = rootPgId
  · simp only [if_pos isRoot]
    apply nets_lock
    apply nets_done
    intro account
    simp
  · simp only [if_neg isRoot]
    exact nets_done fun _ => rfl

theorem settled_flushAndMergeSmallLeaf (pgId : PageId) (child : ChildId rootPgId)
    (files : List FileMetaData) :
    Nets weight (flushAndMergeSmallLeaf pgId child files) (fun _ _ => 0) := by
  apply nets_settled (@settled_ask _ (.lookup pgId) (by simp))
  intro items
  split
  · exact nets_done fun _ => rfl
  · apply nets_settled (@settled_ask _ (.writeToPage child _) (by simp))
    intro result
    split
    · apply nets_escalated
      exact nets_done fun _ => rfl
    · exact nets_done fun _ => rfl

theorem settled_flushOverflow {split : ChildId rootPgId → Code rootPgId IndexItems}
    (settled : ∀ child, Nets weight (split child) (fun _ _ => 0)) (pgId : PageId)
    (files : List FileMetaData) (oneLevelOnly : Bool)
    (children : List (Slice × ChildId rootPgId)) (pivots : Pivots) :
    Nets weight (flushOverflow split pgId files oneLevelOnly children pivots)
      (fun _ _ => 0) := by
  induction children generalizing pivots with
  | nil => exact nets_done fun _ => rfl
  | cons child children ih =>
      rw [flushOverflow]
      apply nets_lock
      apply nets_read
      intro inTable
      apply nets_settled
      · split
        · split
          · exact nets_done fun _ => rfl
          · exact settled child.2
        · exact settled_flushAndMergeSmallLeaf pgId child.2 files
      · intro newKids
        apply nets_lock
        apply (ih _).congr
        intro result account
        simp

theorem settled_updatePivots (pgId : PageId) :
    Nets weight (updatePivots pgId : Code rootPgId Unit) (fun _ _ => 0) := by
  apply nets_settled (@settled_ask _ (.equalSplitInternalPage pgId) (by simp))
  intro splitNum
  split
  · exact nets_done fun _ => rfl
  · exact settled_escalated pgId

theorem settled_splitNodeAndLSMT (pgId : PageId) :
    Nets weight (splitNodeAndLSMT pgId : Code rootPgId IndexItems) (fun _ _ => 0) := by
  apply nets_read
  intro isLeaf
  split
  · apply nets_settled (@settled_ask _ (.bufferCompactTree pgId) (by simp))
    intro outFiles
    split
    · apply nets_escalated
      exact nets_done fun _ => rfl
    · exact @settled_ask _ (.splitParts pgId) (by simp)
  · exact @settled_ask _ (.splitParts pgId) (by simp)

section Flushing

variable {flush : PageId → List FileMetaData → Bool → Code rootPgId Pivots} {pgId : PageId}
  (settled : ∀ files oneLevelOnly, Nets weight (flush pgId files oneLevelOnly) (fun _ _ => 0))

include settled

theorem settled_compactAndFlushToChildren :
    Nets weight (compactAndFlushToChildren flush pgId) (fun _ _ => 0) := by
  apply nets_bottomLevelFiles
  intro level files
  apply nets_read
  intro across
  split
  · apply nets_escalated
    apply nets_bottomLevelFiles
    intro after compacted
    exact settled compacted false
  · exact settled files false

theorem settled_flushAndUpdate :
    Nets weight (flushAndUpdate flush pgId) (fun _ _ => 0) :=
  nets_settled (settled_compactAndFlushToChildren settled) fun _ => settled_updatePivots pgId

end Flushing

theorem settled_maybeSplitOrFlush
    {flush : PageId → List FileMetaData → Bool → Code rootPgId Pivots} {child : ChildId rootPgId}
    (settled : ∀ files oneLevelOnly,
      Nets weight (flush child.1 files oneLevelOnly) (fun _ _ => 0)) :
    Nets weight (maybeSplitOrFlush flush child) (fun _ _ => 0) := by
  apply nets_read
  intro isLeaf
  apply nets_settled
  · split
    · exact nets_done fun _ => rfl
    · exact settled_flushAndUpdate settled
  · intro _
    apply nets_read
    intro overflow
    split
    · exact settled_splitNodeAndLSMT child.1
    · exact nets_done fun _ => rfl

/-- However deep it goes, a flush gives back one lock, that of the LSMT above the tree. -/
theorem nets_flushFilesToChildren (fuel : Nat) (pgId : PageId) (files : List FileMetaData)
    (oneLevelOnly : Bool) :
    Nets weight (flushFilesToChildren fuel pgId files oneLevelOnly : Code rootPgId Pivots)
      (fun _ account => if pgId = rootPgId then -delta .readLock (-1) account else 0) := by
  induction fuel generalizing pgId files oneLevelOnly with
  | zero => exact nets_abort
  | succ fuel ih =>
      apply nets_bind (nets_flushFilesToChildrenNoSplit pgId files)
      intro overflow
      have settled : ∀ child : ChildId rootPgId,
          Nets weight (maybeSplitOrFlush (flushFilesToChildren fuel) child) (fun _ _ => 0) := by
        intro child
        apply settled_maybeSplitOrFlush
        intro files oneLevelOnly
        have below := ih child.1 files oneLevelOnly
        simpa only [if_neg child.2] using below
      apply (settled_flushOverflow settled pgId files oneLevelOnly overflow ⟨[], []⟩).congr
      intro result account
      exact (sub_self _).symm

/-! ### Pushing files down -/

theorem settled_updateRoot : Nets weight (updateRoot : Code rootPgId Unit) (fun _ _ => 0) := by
  apply nets_settled (@settled_ask _ .allocateRoot (by simp))
  intro newId
  apply nets_lock
  apply nets_last
  intro account
  simp

theorem settled_splitRoot : Nets weight (splitRoot : Code rootPgId Unit) (fun _ _ => 0) := by
  apply nets_settled (settled_splitNodeAndLSMT rootPgId)
  intro _
  apply nets_lock
  apply nets_settled settled_updateRoot
  intro _
  apply nets_last
  intro account
  simp

/-- The locks that the flush to the children of the root gives back for its caller. -/
def handedOver (rootPgId : PageId) (account : Int × Mode) : ℤ :=
  delta .readLock (-1) account + delta .readLock rootPgId account

theorem nets_flushLSMTfilesToBol (fuel : Nat) (files : List FileMetaData)
    (oneLevelOnly : Bool) :
    Nets weight (flushLSMTfilesToBol fuel files oneLevelOnly : Code rootPgId Unit)
      (fun _ account => -handedOver rootPgId account) := by
  apply nets_read
  intro across
  split
  · exact nets_abort
  · apply nets_bind (nets_flushFilesToChildren fuel rootPgId files oneLevelOnly)
    intro pivots
    apply nets_settled
    · split
      · exact nets_done fun _ => rfl
      · exact settled_updatePivots rootPgId
    · intro _
      apply nets_read
      intro overflow
      apply nets_settled
      · split
        · exact settled_splitRoot
        · exact nets_done fun _ => rfl
      · intro _
        apply nets_last
        intro account
        simp only [if_true, handedOver, delta_readUnlock]
        ring

theorem settled_bulkloadLSMTFiles :
    Nets weight (bulkloadLSMTFiles : Code rootPgId Unit) (fun _ _ => 0) := by
  apply nets_lock
  apply nets_settled (@settled_ask _ .bulkloadFiles (by simp))
  intro topLevel
  apply nets_lock
  apply nets_lock
  split
  · exact nets_abort
  · apply nets_lock
    apply nets_lock
    apply nets_lock
    apply nets_lock
    apply nets_last
    intro account
    simp

theorem settled_finalize : Nets weight (finalize : Code rootPgId Unit) (fun _ _ => 0) := by
  apply nets_lock
  apply nets_last
  intro account
  simp

theorem settled_filesByPivots (files : List FileMetaData) :
    Nets weight (filesByPivots files : Code rootPgId (List FileMetaData)) (fun _ _ => 0) := by
  apply nets_read
  intro across
  split
  · apply nets_escalated
    apply nets_bottomLevelFiles
    intro after compacted
    exact nets_done fun _ => rfl
  · exact nets_done fun _ => rfl

/-- Nothing is flushed, and the job gives its own locks back. -/
theorem nets_unlockBoth :
    Nets weight (readUnlock rootPgId >>= fun _ => readUnlock (-1) : Code rootPgId Unit)
      (fun _ account => -handedOver rootPgId account) := by
  apply nets_lock
  apply nets_last
  intro account
  simp only [handedOver, delta_readUnlock]
  ring

theorem nets_flushToBol (fuel : Nat) (files : List FileMetaData) :
    Nets weight (flushToBol fuel files : Code rootPgId Unit)
      (fun _ account => -handedOver rootPgId account) := by
  rw [flushToBol]
  split
  · exact nets_unlockBoth
  · apply nets_escalated
    exact nets_flushLSMTfilesToBol fuel files false

theorem nets_lockBoth {gain : Unit → Int × Mode → ℤ} {rest : Unit → Code rootPgId Unit}
    (later : Nets weight (rest ())
      (fun result account => gain result account - handedOver rootPgId account)) :
    Nets weight (readLock (-1) >>= fun _ => readLock rootPgId >>= rest) gain := by
  apply nets_lock
  apply nets_lock
  apply later.congr
  intro result account
  rw [handedOver]
  ring

theorem settled_installLSMTfilesToBol (fuel : Nat) :
    Nets weight (installLSMTfilesToBol fuel : Code rootPgId Unit) (fun _ _ => 0) := by
  apply nets_read
  intro isLeaf
  split
  · exact nets_settled settled_bulkloadLSMTFiles fun _ => settled_finalize
  · apply nets_lockBoth
    simp only [zero_sub]
    apply nets_bottomLevelFiles
    intro level files
    split
    · exact nets_unlockBoth
    · apply nets_settled (settled_filesByPivots files)
      intro compacted
      apply nets_bind (nets_flushToBol fuel compacted)
      intro _
      simp only [sub_self]
      exact settled_finalize

/-! ### Adapting -/

theorem settled_compactRootBufferForFlush :
    Nets weight (compactRootBufferForFlush : Code rootPgId (List FileMetaData))
      (fun _ _ => 0) := by
  apply nets_bottomLevelFiles
  intro level files
  apply nets_settled
  · split
    · exact nets_done fun _ => rfl
    · exact @settled_ask _ (.read (.fileAcrossPivots rootPgId files)) (by simp)
  · intro again
    split
    · apply nets_lock
      split
      · exact nets_abort
      · apply nets_lock
        apply nets_lock
        apply nets_bottomLevelFiles
        intro after compacted
        apply nets_lock
        apply nets_done
        intro account
        simp
    · exact nets_done fun _ => rfl

theorem settled_hotLoop (fuel : Nat) (levelMismatch : Bool) :
    Nets weight (hotLoop fuel levelMismatch : Code rootPgId (List FileMetaData))
      (fun _ _ => 0) := by
  induction fuel generalizing levelMismatch with
  | zero => exact nets_abort
  | succ fuel ih =>
      apply nets_settled (@settled_ask _ .getFilesInRange (by simp))
      rintro ⟨level, files⟩
      dsimp only
      split
      · apply nets_escalated
        exact nets_done fun _ => rfl
      · apply nets_read
        intro across
        split
        · apply nets_escalated
          apply nets_escalated
          apply nets_settled (@settled_ask _ .getFilesInRange (by simp))
          rintro ⟨after, compacted⟩
          dsimp only
          split
          · exact ih true
          · exact nets_done fun _ => rfl
        · apply nets_settled
          · split
            · exact nets_done fun _ => rfl
            · exact settled_escalated rootPgId
          · intro _
            split
            · exact ih true
            · exact nets_done fun _ => rfl

theorem settled_strategy (strategy : Strategy) (fuel : Nat) :
    Nets weight (strategy.compactRootBufferForFlush fuel : Code rootPgId (List FileMetaData))
      (fun _ _ => 0) := by
  cases strategy with
  | defaultAdapt => exact settled_compactRootBufferForFlush
  | hotOnlyAdapt =>
      apply nets_read
      intro rangeEmpty
      split
      · exact settled_compactRootBufferForFlush
      · exact settled_hotLoop fuel false

theorem settled_adaptLSMT (strategy : Strategy) (fuel : Nat) :
    Nets weight (adaptLSMT strategy fuel : Code rootPgId Unit) (fun _ _ => 0) := by
  apply nets_lockBoth
  simp only [zero_sub]
  apply nets_settled (settled_strategy strategy fuel)
  intro files
  split
  · exact nets_unlockBoth
  · exact nets_flushLSMTfilesToBol fuel files true

/-! ## The jobs -/

/-- `BackgroundCall` finds that the tree is being deleted. -/
def StopsAtOnce (job : Job) (log : List (Event rootPgId)) : Prop :=
  job = .backgroundCall ∧ ⟨.read .shuttingDown, true⟩ ∈ log

theorem ends_backgroundCall {log : List (Event rootPgId)}
    (ended : Program.Ends (backgroundCall : Code rootPgId Unit) log ()) :
    ∃ (shuttingDown : Bool) (later : List (Event rootPgId)),
      log = ⟨.lock .writeLock (-1), ()⟩ :: ⟨.read .shuttingDown, shuttingDown⟩ :: later ∧
        Program.Ends (if shuttingDown then pure () else backgroundCompaction :
          Code rootPgId Unit) later () := by
  obtain ⟨_, begun, rfl, going⟩ := Program.Ends.ask_iff.mp ended
  obtain ⟨shuttingDown, later, isBegun, ends⟩ := Program.Ends.ask_iff.mp going
  exact ⟨shuttingDown, later, congrArg _ isBegun, ends⟩

theorem only_lock {call : LockCall} {id : Int} {rest : Unit → Code rootPgId Unit}
    (later : Program.Only (· ≠ Ask.read .shuttingDown) (rest ())) :
    Program.Only (· ≠ Ask.read .shuttingDown)
      (Program.perform (Ask.lock call id) >>= rest : Code rootPgId Unit) :=
  ⟨by simp, fun _ => later⟩

theorem only_last (call : LockCall) (id : Int) :
    Program.Only (· ≠ Ask.read .shuttingDown)
      (Program.perform (Ask.lock call id) : Code rootPgId Unit) :=
  ⟨by simp, fun _ => trivial⟩

/-- Behind the check nobody asks for the flag again. -/
theorem only_backgroundCompaction :
    Program.Only (· ≠ Ask.read .shuttingDown) (backgroundCompaction : Code rootPgId Unit) := by
  apply Program.Only.bind
  · exact ⟨by simp, fun _ => trivial⟩
  · intro immIsNull
    split
    · exact only_lock (only_lock (only_last _ _))
    · apply only_lock
      apply only_lock
      apply Program.Only.bind
      · exact ⟨by simp, fun _ => trivial⟩
      · intro bottom
        split
        · exact ⟨by simp, fun impossible => impossible.elim⟩
        · exact only_last _ _

theorem backgroundCall_returns_iff {log : List (Event rootPgId)}
    (ended : Program.Ends (backgroundCall : Code rootPgId Unit) log ()) :
    ReturnsHolds log ↔ (⟨.read .shuttingDown, true⟩ : Event rootPgId) ∉ log := by
  obtain ⟨shuttingDown, later, rfl, going⟩ := ends_backgroundCall ended
  rw [returnsHolds_iff]
  cases shuttingDown with
  | true =>
      obtain ⟨rfl, -⟩ := Program.Ends.done_iff.mp going
      refine iff_of_false ?_ (fun absent => absent (by simp))
      intro nothing
      exact absurd (nothing (-1, .write)) (by simp [Program.net, weight, delta, LockCall.mode,
        LockCall.gain])
  | false =>
      refine iff_of_true ?_ ?_
      · intro account
        have rest := nets_backgroundCompaction later () going account
        rw [Program.net] at rest ⊢
        rw [List.map_cons, List.map_cons, List.sum_cons, List.sum_cons, rest]
        simp [weight]
      · intro member
        rcases List.mem_cons.mp member with isLock | behind
        · cases isLock
        · rcases List.mem_cons.mp behind with isCheck | inLater
          · cases isCheck
          · exact only_backgroundCompaction.after going _ inLater rfl

/-- A background job that ends has given back what it took, unless `BackgroundCall` finds the
tree being deleted: it then keeps the write lock of the LSMT above the tree. -/
theorem returns_holds_iff (fuel : Nat) (job : Job) (log : List (Event rootPgId))
    (ended : Program.Ends (job.code fuel : Code rootPgId Unit) log ()) :
    ReturnsHolds log ↔ ¬ StopsAtOnce job log := by
  cases job with
  | backgroundCall =>
      rw [backgroundCall_returns_iff ended, StopsAtOnce, eq_self, true_and]
  | adaptMem =>
      exact iff_of_true (returnsHolds_iff.mpr (settled_adaptMem log () ended))
        (by simp [StopsAtOnce])
  | adaptImm =>
      exact iff_of_true (returnsHolds_iff.mpr (settled_adaptImm log () ended))
        (by simp [StopsAtOnce])
  | installLSMTfilesToBol =>
      exact iff_of_true
        (returnsHolds_iff.mpr (settled_installLSMTfilesToBol fuel log () ended))
        (by simp [StopsAtOnce])
  | adaptLSMT strategy =>
      exact iff_of_true (returnsHolds_iff.mpr (settled_adaptLSMT strategy fuel log () ended))
        (by simp [StopsAtOnce])

def flushedFile : FileMetaData :=
  ⟨4, 100, 2, ⟨[2], 9, .kTypeValue⟩, ⟨[3], 8, .kTypeValue⟩, by decide⟩

def firstChild : ChildId 0 := ⟨5, by decide⟩

def secondChild : ChildId 0 := ⟨6, by decide⟩

/-- `AdaptLSMT` flushes a file to the first of two children, which overflows. -/
def flushLog : List (Event 0) := [
  ⟨.lock .readLock (-1), ()⟩, ⟨.lock .readLock 0, ()⟩,
  ⟨.bottomLevelFiles 0, (1, [flushedFile])⟩,
  ⟨.read (.fileAcrossPivots 0 [flushedFile]), false⟩,
  ⟨.read (.fileAcrossPivots 0 [flushedFile]), false⟩,
  ⟨.lookup 0, [([1], firstChild), ([7], secondChild)]⟩,
  ⟨.lock .readLock 5, ()⟩, ⟨.read (.inNodeTable 5), true⟩, ⟨.read (.hasNodeLsmt 5), true⟩,
  ⟨.bufferAppendFiles 5 [flushedFile], OpState.kOverflow⟩, ⟨.lock .readUnlock 5, ()⟩,
  ⟨.lock .readLock 5, ()⟩, ⟨.bufferCompactTopLevel 5, OpState.kOverflow⟩,
  ⟨.lock .readUnlock 5, ()⟩,
  ⟨.lock .escalateLock (-1), ()⟩, ⟨.lock .alleviateLock (-1), ()⟩,
  ⟨.lock .readUnlock (-1), ()⟩,
  ⟨.lock .readLock 5, ()⟩, ⟨.read (.inNodeTable 5), true⟩, ⟨.lock .readUnlock 5, ()⟩,
  ⟨.read (.nodeOverflow 0), false⟩, ⟨.lock .readUnlock 0, ()⟩]

theorem returns_holds_iff_flush :
    ReturnsHolds flushLog ↔ ¬ StopsAtOnce (.adaptLSMT .defaultAdapt) flushLog := by
  apply returns_holds_iff 1 (.adaptLSMT .defaultAdapt)
  unfold Program.Ends
  repeat' apply Program.After.next
  exact .start _

/-- A compaction that starts while the tree is being deleted keeps its lock. -/
theorem backgroundCall_keeps_lock :
    ¬ ∀ (fuel : Nat) (job : Job) (log : List (Event 0)),
      Program.Ends (job.code fuel : Code 0 Unit) log () → ReturnsHolds log := by
  intro claim
  have ended : Program.Ends (backgroundCall : Code 0 Unit)
      [⟨.lock .writeLock (-1), ()⟩, ⟨.read .shuttingDown, true⟩] () :=
    Program.Ends.ask_iff.mpr ⟨(), _, rfl, Program.Ends.ask_iff.mpr ⟨true, _, rfl,
      Program.Ends.done_iff.mpr ⟨rfl, rfl⟩⟩⟩
  have returns := claim 0 .backgroundCall _ ended
  have held := congrFun (returns fun _ => 0) (-1, .write)
  revert held
  decide

end AhaTree.Jobs
