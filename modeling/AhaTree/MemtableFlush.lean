import AhaTree.WritePath
import Mathlib.Data.List.Nodup

/-!
# Flushing immutable memtables

`CompactMemTable` releases both locks while it builds a table, and two threads
enter it.  What keeps them apart is `background_compaction_scheduled_`, which is
not set while the push-down thread is at it.
-/

namespace AhaTree

/-- The memtable that a worker is flushing. -/
def Worker.table? : Worker → Option Nat
  | .building table _ => some table
  | .built table _ => some table
  | _ => none

namespace Tree

/-! ## One flush at a time -/

/-- The bookkeeping of flushes: at most one thread is in `CompactMemTable`, it
works on `imm_`, and every retired memtable was flushed. -/
structure Exclusive (tree : Tree) : Prop where
  alive : tree.crashed = false
  hasImm : tree.hasImm = tree.imm.isSome
  single : tree.jobs ≤ 1
  queued : 0 < tree.jobs → tree.scheduled = true ∧ tree.compaction = .idle
  active : tree.compaction ≠ .idle → tree.scheduled = true
  compactionOwns : ∀ table ∈ tree.compaction.table?, tree.imm = some table
  pushDownOwns : ∀ table ∈ tree.pushDown.table?, tree.imm = some table
  apart : tree.pushDown.table? ≠ none → tree.compaction = .idle
  compacting : tree.pushDown ≠ .compacting
  memFresh : tree.mem < tree.nextTable
  immApart : ∀ table ∈ tree.imm, table < tree.nextTable ∧ table ≠ tree.mem

/-- `BackgroundCall` does not start while the push-down thread is between the
two halves of `CompactMemTable`. -/
def FlushesApart (tree : Tree) (act : Act) : Prop :=
  act = .backgroundCall → tree.pushDown.table? = none

namespace Exclusive

variable {tree after : Tree}

theorem initial : Exclusive initial := by
  constructor <;> simp [Tree.initial, Worker.table?]

theorem idle_of_free (inv : Exclusive tree) (free : tree.imm = none) :
    tree.compaction.table? = none ∧ tree.pushDown.table? = none := by
  constructor
  · rw [Option.eq_none_iff_forall_ne_some]
    intro table isTable
    simp [inv.compactionOwns table isTable] at free
  · rw [Option.eq_none_iff_forall_ne_some]
    intro table isTable
    simp [inv.pushDownOwns table isTable] at free

theorem free_of_hasImm (inv : Exclusive tree) (noImm : tree.hasImm = false) :
    tree.imm = none := by
  have isNone := inv.hasImm
  rw [noImm] at isNone
  simpa using isNone.symm

theorem switchMem (inv : Exclusive tree) (free : tree.imm = none) :
    Exclusive tree.switchMem := by
  obtain ⟨noCompaction, noPushDown⟩ := inv.idle_of_free free
  refine { inv with
    hasImm := rfl
    compactionOwns := ?_
    pushDownOwns := ?_
    memFresh := ?_
    immApart := ?_ }
  · intro table isTable
    exact absurd (noCompaction.symm.trans isTable) (by simp)
  · intro table isTable
    exact absurd (noPushDown.symm.trans isTable) (by simp)
  · simp [Tree.switchMem]
  · rintro table ⟨⟩
    have fresh := inv.memFresh
    simp only [Tree.switchMem]
    omega

theorem maybeScheduleCompaction (inv : Exclusive tree) (needs : Bool) :
    Exclusive (tree.maybeScheduleCompaction needs) := by
  rw [Tree.maybeScheduleCompaction]
  split
  · exact inv
  · rename_i notScheduled
    split
    · exact inv
    · have idle : tree.compaction = .idle := by
        by_contra busy
        exact notScheduled (inv.active busy)
      have noJobs : tree.jobs = 0 := by
        by_contra positive
        exact notScheduled (inv.queued (Nat.pos_of_ne_zero positive)).1
      exact { inv with
        single := by simp [noJobs]
        queued := fun _ => ⟨rfl, idle⟩
        active := fun _ => rfl }

theorem backgroundCall (inv : Exclusive tree)
    (alone : tree.pushDown.table? = none)
    (called : tree.backgroundCall = some after) : Exclusive after := by
  obtain ⟨idle, waiting, worker, rfl, opened⟩ := backgroundCall_cases called
  have atMost := inv.single
  have oneLess : tree.jobs - 1 = 0 := by omega
  refine { inv with
    single := by simp [oneLess]
    queued := by simp [oneLess]
    active := fun _ => (inv.queued waiting).1
    compactionOwns := ?_
    apart := fun busy => absurd alone busy }
  rcases opened with ⟨table, held, rfl⟩ | ⟨-, rfl⟩
  · rintro _ ⟨⟩
    exact held
  · rintro _ ⟨⟩

theorem buildCompaction (inv : Exclusive tree) {seen : Nat} {worker : Worker}
    (built : tree.buildTable seen tree.compaction = some worker) :
    Exclusive { tree with compaction := worker } := by
  obtain ⟨table, base, wasBuilding, -, -, rfl⟩ := buildTable_cases built
  have wasBusy : tree.compaction ≠ .idle := by simp [wasBuilding]
  exact { inv with
    queued := fun waiting => absurd (inv.queued waiting).2 wasBusy
    active := fun _ => inv.active wasBusy
    compactionOwns := fun table isTable => inv.compactionOwns table (by
      rw [wasBuilding]
      exact isTable)
    apart := fun busy => absurd (inv.apart busy) wasBusy }

theorem buildPushDown (inv : Exclusive tree) {seen : Nat} {worker : Worker}
    (built : tree.buildTable seen tree.pushDown = some worker) :
    Exclusive { tree with pushDown := worker } := by
  obtain ⟨table, base, wasBuilding, -, -, rfl⟩ := buildTable_cases built
  exact { inv with
    pushDownOwns := fun table isTable => inv.pushDownOwns table (by
      rw [wasBuilding]
      exact isTable)
    apart := fun _ => inv.apart (by simp [wasBuilding, Worker.table?])
    compacting := by simp }

theorem adaptMem (inv : Exclusive tree) (adapted : tree.adaptMem = some after) :
    Exclusive after := by
  rcases adaptMem_cases adapted with rfl | ⟨noImm, idle, switched⟩
  · exact inv
  · have free := inv.free_of_hasImm noImm
    have moved := inv.switchMem free
    rcases switched with ⟨-, rfl⟩ | ⟨notScheduled, rfl⟩
    · exact moved
    · exact { moved with
        pushDownOwns := by
          rintro _ ⟨⟩
          rfl
        apart := fun _ => by
          by_contra busy
          have scheduled := inv.active busy
          simp [notScheduled] at scheduled
        compacting := by simp }

theorem adaptImm (inv : Exclusive tree) (adapted : tree.adaptImm = some after) :
    Exclusive after := by
  rcases adaptImm_cases adapted with rfl | ⟨table, held, notScheduled, -, rfl⟩
  · exact inv
  · exact { inv with
      pushDownOwns := by
        rintro _ ⟨⟩
        exact held
      apart := fun _ => by
        by_contra busy
        have scheduled := inv.active busy
        simp [notScheduled] at scheduled
      compacting := by simp }

/-- The compaction thread is done, before it looks for more work. -/
theorem ended (inv : Exclusive tree) (busy : tree.compaction ≠ .idle) :
    Exclusive { tree with compaction := .idle, scheduled := false } := by
  have noJobs : tree.jobs = 0 := by
    by_contra positive
    exact busy (inv.queued (Nat.pos_of_ne_zero positive)).2
  exact { inv with
    queued := by simp [noJobs]
    active := fun wasBusy => absurd rfl wasBusy
    compactionOwns := by simp [Worker.table?]
    apart := fun _ => rfl }

/-- `imm_` may be given up when nobody is flushing it. -/
theorem retired (inv : Exclusive tree) (noCompaction : tree.compaction.table? = none)
    (noPushDown : tree.pushDown.table? = none) (added : List (Nat × List Entry))
    (hotspot : Bool) :
    Exclusive { tree with
      imm := none, hasImm := false, immColdOnly := true
      added := added, lsmtHotspot := hotspot } :=
  { inv with
    hasImm := rfl
    compactionOwns := fun table isTable =>
      absurd (noCompaction.symm.trans isTable) (by simp)
    pushDownOwns := fun table isTable =>
      absurd (noPushDown.symm.trans isTable) (by simp)
    immApart := by simp }

theorem commitCompaction (inv : Exclusive tree) {needs : Bool}
    (committed : tree.commitCompaction needs = some after) : Exclusive after := by
  obtain ⟨table, contents, isBuilt, rfl⟩ := commitCompaction_cases committed
  have held : tree.imm = some table :=
    inv.compactionOwns table (by simp [isBuilt, Worker.table?])
  have busy : tree.compaction ≠ .idle := by simp [isBuilt]
  have noPushDown : tree.pushDown.table? = none := by
    by_contra working
    exact busy (inv.apart working)
  obtain ⟨hotspot, same⟩ := @commitImm_of_imm tree table table contents held
  rw [same]
  exact ((inv.ended busy).retired rfl noPushDown _ hotspot).maybeScheduleCompaction needs

theorem endCompact (inv : Exclusive tree) {needs : Bool}
    (finished : tree.endCompact needs = some after) : Exclusive after := by
  obtain ⟨busy, rfl⟩ := endCompact_cases finished
  exact (inv.ended (by simp [busy])).maybeScheduleCompaction needs

theorem commitPushDown (inv : Exclusive tree)
    (committed : tree.commitPushDown = some after) : Exclusive after := by
  obtain ⟨table, contents, isBuilt, rfl⟩ := commitPushDown_cases committed
  have working : tree.pushDown.table? = some table := by simp [isBuilt, Worker.table?]
  have held : tree.imm = some table := inv.pushDownOwns table working
  have noCompaction : tree.compaction.table? = none := by
    rw [inv.apart (by simp [working])]
    rfl
  obtain ⟨hotspot, same⟩ := @commitImm_of_imm tree table table contents held
  rw [same]
  have rested : Exclusive { tree with pushDown := .idle } :=
    { inv with
      pushDownOwns := by simp [Worker.table?]
      apart := by simp [Worker.table?]
      compacting := by simp }
  exact rested.retired noCompaction rfl _ hotspot

theorem makeRoom (inv : Exclusive tree) {views : List RoomView}
    (made : tree.makeRoom views = some after) : Exclusive after := by
  obtain ⟨writer, rest, flags, middle, -, -, moved, ended⟩ := makeRoom_cases made
  have middleInv : Exclusive middle := by
    rcases moved with rfl | ⟨free, needs, rfl⟩
    · exact inv
    · exact (inv.switchMem free).maybeScheduleCompaction needs
  rcases ended with ⟨force, allowDelay, rfl⟩ | rfl
  · exact { middleInv with }
  · rw [leaveRoom]
    split
    · exact { middleInv with }
    · exact { middleInv with }

theorem of_same (inv : Exclusive tree) (same : SameFlushes tree after) :
    Exclusive after := by
  constructor
  · rw [same.crashed, inv.alive]
  · rw [same.hasImm, same.imm, inv.hasImm]
  · rw [same.jobs]
    exact inv.single
  · rw [same.jobs, same.scheduled, same.compaction]
    exact inv.queued
  · rw [same.scheduled, same.compaction]
    exact inv.active
  · rw [same.compaction, same.imm]
    exact inv.compactionOwns
  · rw [same.pushDown, same.imm]
    exact inv.pushDownOwns
  · rw [same.pushDown, same.compaction]
    exact inv.apart
  · rw [same.pushDown]
    exact inv.compacting
  · rw [same.mem, same.nextTable]
    exact inv.memFresh
  · rw [same.imm, same.mem, same.nextTable]
    exact inv.immApart

/-- Every step keeps flushes apart when no `BackgroundCall` starts in the middle
of a flush by the push-down thread. -/
theorem perform {act : Act} (inv : Exclusive tree) (apart : FlushesApart tree act)
    (performed : tree.perform act = some after) : Exclusive after := by
  by_cases writes : act.writesOnly = true
  · exact inv.of_same (sameFlushes_of_perform writes performed)
  · cases act with
    | makeRoom views => exact inv.makeRoom performed
    | putEntry =>
        obtain ⟨_, _, _, _, _, -, rfl⟩ := putEntry_cases performed
        exact { inv with }
    | backgroundCall => exact inv.backgroundCall (apart rfl) performed
    | buildCompaction seen =>
        obtain ⟨worker, built, rfl⟩ := Option.map_eq_some_iff.mp performed
        exact inv.buildCompaction built
    | commitCompaction needs => exact inv.commitCompaction performed
    | endCompact needs => exact inv.endCompact performed
    | adaptMem => exact inv.adaptMem performed
    | adaptImm => exact inv.adaptImm performed
    | buildPushDown seen =>
        obtain ⟨worker, built, rfl⟩ := Option.map_eq_some_iff.mp performed
        exact inv.buildPushDown built
    | commitPushDown => exact inv.commitPushDown performed
    | installed needs =>
        simp only [Tree.perform] at performed
        split at performed
        · cases performed
          exact inv.maybeScheduleCompaction needs
        · cases performed
    | readSample =>
        simp only [Tree.perform] at performed
        split at performed
        · cases performed
          exact inv.maybeScheduleCompaction true
        · cases performed
    | _ => simp [Act.writesOnly] at writes

end Exclusive

/-! ## Every memtable is flushed once -/

/-- Every commit finds the memtable that was built, `imm_` is never dereferenced
as null, and a memtable that has become `imm_` is added to the root LSMT exactly
once, when it is retired. -/
structure FlushedOnce (tree : Tree) : Prop where
  compactionCommits : ∀ table contents,
    tree.compaction = .built table contents → tree.imm = some table
  pushDownCommits : ∀ table contents,
    tree.pushDown = .built table contents → tree.imm = some table
  neverNull : tree.crashed = false
  once : ∀ table ∈ tree.switched,
    (tree.added.map Prod.fst).count table = if tree.imm = some table then 0 else 1

/-- No step makes an empty memtable `imm_`. -/
def SwitchesFilled (tree : Tree) (act : Act) : Prop :=
  ∀ after, tree.perform act = some after →
    after.switched = tree.switched ∨ tree.tables tree.mem ≠ []

instance (tree : Tree) (act : Act) : Decidable (FlushesApart tree act) :=
  inferInstanceAs (Decidable (_ → _))

instance (tree : Tree) (act : Act) : Decidable (SwitchesFilled tree act) :=
  inferInstanceAs (Decidable (∀ after ∈ tree.perform act, _))

/-- The table that the worker builds will have an entry. -/
def WorkerFilled : Worker → Prop
  | .building _ base => 0 < base
  | .built _ contents => contents ≠ []
  | _ => True

/-- The account of all memtables that have been switched. -/
structure Accounted (tree : Tree) : Prop where
  account : tree.switched = tree.added.map Prod.fst ++ tree.imm.toList
  distinct : tree.switched.Nodup
  known : ∀ table ∈ tree.switched, table < tree.nextTable ∧ table ≠ tree.mem
  filled : ∀ table ∈ tree.imm, tree.tables table ≠ []
  compactionFilled : WorkerFilled tree.compaction
  pushDownFilled : WorkerFilled tree.pushDown

namespace Accounted

variable {tree after : Tree}

theorem initial : Accounted initial := by
  constructor <;> simp [Tree.initial, WorkerFilled]

theorem of_same (inv : Accounted tree) (same : SameFlushes tree after) :
    Accounted after := by
  constructor
  · rw [same.switched, same.added, same.imm, inv.account]
  · rw [same.switched]
    exact inv.distinct
  · rw [same.switched, same.nextTable, same.mem]
    exact inv.known
  · rw [same.imm, same.tables]
    exact inv.filled
  · rw [same.compaction]
    exact inv.compactionFilled
  · rw [same.pushDown]
    exact inv.pushDownFilled

theorem switchMem (inv : Accounted tree) (fresh : tree.mem < tree.nextTable)
    (free : tree.imm = none) (filled : tree.tables tree.mem ≠ []) :
    Accounted tree.switchMem where
  account := by
    have account := inv.account
    simp only [free, Option.toList_none, List.append_nil] at account
    simp [Tree.switchMem, account]
  distinct := by
    refine List.nodup_append.mpr ⟨inv.distinct, by simp, ?_⟩
    intro table member other isMem
    rw [List.mem_singleton] at isMem
    rw [isMem]
    exact (inv.known table member).2
  known := by
    intro table member
    simp only [Tree.switchMem, List.mem_append, List.mem_singleton] at member ⊢
    rcases member with earlier | rfl
    · have bound := (inv.known table earlier).1
      omega
    · omega
  filled := by
    rintro _ ⟨⟩
    exact filled
  compactionFilled := inv.compactionFilled
  pushDownFilled := inv.pushDownFilled

theorem maybeScheduleCompaction (inv : Accounted tree) (needs : Bool) :
    Accounted (tree.maybeScheduleCompaction needs) := by
  obtain ⟨scheduled, jobs, same⟩ := maybeScheduleCompaction_eq needs tree
  rw [same]
  exact { inv with }

/-- A step that switches the memtable found it filled. -/
theorem switch_filled {act : Act} (filled : SwitchesFilled tree act)
    (performed : tree.perform act = some after)
    (switched : after.switched = tree.switched ++ [tree.mem]) :
    tree.tables tree.mem ≠ [] := by
  rcases filled after performed with same | nonempty
  · rw [same] at switched
    simp at switched
  · exact nonempty

theorem makeRoom (inv : Accounted tree) (exclusive : Exclusive tree)
    {views : List RoomView} (filled : SwitchesFilled tree (.makeRoom views))
    (made : tree.makeRoom views = some after) : Accounted after := by
  obtain ⟨writer, rest, flags, middle, -, -, moved, ended⟩ := makeRoom_cases made
  have sameSwitched : after.switched = middle.switched := by
    rcases ended with ⟨force, allowDelay, rfl⟩ | rfl
    · rfl
    · rw [leaveRoom]
      split <;> rfl
  have middleInv : Accounted middle := by
    rcases moved with rfl | ⟨free, needs, rfl⟩
    · exact inv
    · have nonempty := switch_filled filled made (by
        obtain ⟨scheduled, jobs, same⟩ := maybeScheduleCompaction_eq needs tree.switchMem
        rw [sameSwitched, same]
        rfl)
      exact (inv.switchMem exclusive.memFresh free nonempty).maybeScheduleCompaction needs
  rcases ended with ⟨force, allowDelay, rfl⟩ | rfl
  · exact { middleInv with }
  · rw [leaveRoom]
    split
    · exact { middleInv with }
    · exact { middleInv with }

theorem putEntry (inv : Accounted tree) (put : tree.putEntry = some after) :
    Accounted after := by
  obtain ⟨table, group, done, entry, left, -, rfl⟩ := putEntry_cases put
  refine { inv with filled := ?_ }
  intro held isHeld
  by_cases same : held = table
  · subst same
    simp
  · simpa [same] using inv.filled held isHeld

theorem filled_length (inv : Accounted tree) {table : Nat}
    (held : tree.imm = some table) : 0 < (tree.tables table).length :=
  List.length_pos_iff.mpr (inv.filled table held)

theorem backgroundCall (inv : Accounted tree)
    (called : tree.backgroundCall = some after) : Accounted after := by
  obtain ⟨-, -, worker, rfl, opened⟩ := backgroundCall_cases called
  refine { inv with compactionFilled := ?_ }
  rcases opened with ⟨table, held, rfl⟩ | ⟨-, rfl⟩
  · exact inv.filled_length held
  · trivial

theorem buildTable_filled {seen : Nat} {worker later : Worker}
    (filled : WorkerFilled worker) (built : tree.buildTable seen worker = some later) :
    WorkerFilled later := by
  obtain ⟨table, base, rfl, atLeast, atMost, rfl⟩ := buildTable_cases built
  have positive : 0 < base := filled
  intro empty
  have length := congrArg List.length empty
  rw [List.length_take, List.length_nil] at length
  omega

theorem adaptMem (inv : Accounted tree) (exclusive : Exclusive tree)
    (filled : SwitchesFilled tree .adaptMem)
    (adapted : tree.adaptMem = some after) : Accounted after := by
  rcases adaptMem_cases adapted with rfl | ⟨noImm, idle, switched⟩
  · exact inv
  · have free := exclusive.free_of_hasImm noImm
    rcases switched with ⟨-, rfl⟩ | ⟨-, rfl⟩
    · exact inv.switchMem exclusive.memFresh free (switch_filled filled adapted rfl)
    · have nonempty := switch_filled filled adapted rfl
      exact { inv.switchMem exclusive.memFresh free nonempty with
        pushDownFilled := List.length_pos_iff.mpr nonempty }

theorem adaptImm (inv : Accounted tree) (adapted : tree.adaptImm = some after) :
    Accounted after := by
  rcases adaptImm_cases adapted with rfl | ⟨table, held, -, -, rfl⟩
  · exact inv
  · exact { inv with pushDownFilled := inv.filled_length held }

/-- A commit moves the memtable from `imm_` to the files. -/
theorem commitImm (inv : Accounted tree) {table : Nat} {contents : List Entry}
    (held : tree.imm = some table) (nonempty : contents ≠ []) :
    Accounted (tree.commitImm table contents) := by
  obtain ⟨hotspot, same⟩ := @commitImm_of_imm tree table table contents held
  rw [same]
  refine { inv with account := ?_, filled := by simp }
  simp [inv.account, held, nonempty]

theorem commitCompaction (inv : Accounted tree) (exclusive : Exclusive tree)
    {needs : Bool} (committed : tree.commitCompaction needs = some after) :
    Accounted after := by
  obtain ⟨table, contents, isBuilt, rfl⟩ := commitCompaction_cases committed
  have held := exclusive.compactionOwns table (by simp [isBuilt, Worker.table?])
  have nonempty : contents ≠ [] := by
    have filled := inv.compactionFilled
    rwa [isBuilt] at filled
  have moved := inv.commitImm held nonempty
  have ended : Accounted { tree.commitImm table contents with
      compaction := .idle, scheduled := false } :=
    { moved with compactionFilled := trivial }
  exact ended.maybeScheduleCompaction needs

theorem commitPushDown (inv : Accounted tree) (exclusive : Exclusive tree)
    (committed : tree.commitPushDown = some after) : Accounted after := by
  obtain ⟨table, contents, isBuilt, rfl⟩ := commitPushDown_cases committed
  have held := exclusive.pushDownOwns table (by simp [isBuilt, Worker.table?])
  have nonempty : contents ≠ [] := by
    have filled := inv.pushDownFilled
    rwa [isBuilt] at filled
  exact { inv.commitImm held nonempty with pushDownFilled := trivial }

theorem perform {act : Act} (inv : Accounted tree) (exclusive : Exclusive tree)
    (filled : SwitchesFilled tree act) (performed : tree.perform act = some after) :
    Accounted after := by
  by_cases writes : act.writesOnly = true
  · exact inv.of_same (sameFlushes_of_perform writes performed)
  · cases act with
    | makeRoom views => exact inv.makeRoom exclusive filled performed
    | putEntry => exact inv.putEntry performed
    | backgroundCall => exact inv.backgroundCall performed
    | buildCompaction seen =>
        obtain ⟨worker, built, rfl⟩ := Option.map_eq_some_iff.mp performed
        exact { inv with
          compactionFilled := buildTable_filled inv.compactionFilled built }
    | commitCompaction needs => exact inv.commitCompaction exclusive performed
    | endCompact needs =>
        obtain ⟨-, rfl⟩ := endCompact_cases performed
        have ended : Accounted { tree with compaction := .idle, scheduled := false } :=
          { inv with compactionFilled := trivial }
        exact ended.maybeScheduleCompaction needs
    | adaptMem => exact inv.adaptMem exclusive filled performed
    | adaptImm => exact inv.adaptImm performed
    | buildPushDown seen =>
        obtain ⟨worker, built, rfl⟩ := Option.map_eq_some_iff.mp performed
        exact { inv with pushDownFilled := buildTable_filled inv.pushDownFilled built }
    | commitPushDown => exact inv.commitPushDown exclusive performed
    | installed needs =>
        simp only [Tree.perform] at performed
        split at performed
        · cases performed
          exact inv.maybeScheduleCompaction needs
        · cases performed
    | readSample =>
        simp only [Tree.perform] at performed
        split at performed
        · cases performed
          exact inv.maybeScheduleCompaction true
        · cases performed
    | _ => simp [Act.writesOnly] at writes

theorem flushedOnce (inv : Accounted tree) (exclusive : Exclusive tree) :
    FlushedOnce tree where
  compactionCommits table contents isBuilt :=
    exclusive.compactionOwns table (by simp [isBuilt, Worker.table?])
  pushDownCommits table contents isBuilt :=
    exclusive.pushDownOwns table (by simp [isBuilt, Worker.table?])
  neverNull := exclusive.alive
  once table member := by
    have distinct := inv.distinct
    rw [inv.account] at distinct member
    obtain ⟨addedDistinct, -, apart⟩ := List.nodup_append.mp distinct
    by_cases held : tree.imm = some table
    · rw [if_pos held, List.count_eq_zero]
      intro added
      exact apart table added table (by simp [held]) rfl
    · rw [if_neg held]
      refine List.count_eq_one_of_mem addedDistinct ?_
      rcases List.mem_append.mp member with added | waiting
      · exact added
      · exact absurd (by simpa using waiting) held

end Accounted

/-- In every run in which no `BackgroundCall` starts in the middle of a flush by
the push-down thread and no empty memtable is switched, every memtable that
becomes `imm_` is flushed exactly once and only what was built is retired. -/
theorem flushedOnce_of_reaches {tree : Tree}
    (reaches : Lib.Reaches step (fun tree act =>
      FlushesApart tree act ∧ SwitchesFilled tree act) initial tree) :
    FlushedOnce tree := by
  have both : Exclusive tree ∧ Accounted tree := by
    refine reaches.invariant (fun tree => Exclusive tree ∧ Accounted tree)
      ⟨Exclusive.initial, Accounted.initial⟩ ?_
    rintro before act after ⟨exclusive, accounted⟩ ⟨apart, filled⟩ stepped
    have performed := perform_of_step stepped
    exact ⟨exclusive.perform apart performed,
      accounted.perform exclusive filled performed⟩
  exact both.2.flushedOnce both.1

/-! ## Two flushes of one memtable -/

/-- An insert of one key into the memtable, from its call to its return. -/
def insertOne : List Act :=
  [.insertBatch (some ⟨[⟨.kTypeValue, [1], [2]⟩], false⟩),
    .makeRoom [⟨false, false, false, false⟩], .group, .fetchMem, .putEntry,
    .finishGroup]

/-- The push-down thread flushes what one insert has put. -/
def flushOne : List Act := insertOne ++ [.adaptMem, .buildPushDown 1, .commitPushDown]

/-- The push-down thread flushes the memtable alone. -/
theorem adaptMem_flushedOnce :
    ∃ tree, Lib.run step (fun tree act =>
        decide (FlushesApart tree act ∧ SwitchesFilled tree act)) initial flushOne =
          some tree ∧
      FlushedOnce tree := by
  have ran : (Lib.run step (fun tree act =>
      decide (FlushesApart tree act ∧ SwitchesFilled tree act)) initial
      flushOne).isSome = true := by
    decide
  obtain ⟨tree, isTree⟩ := Option.isSome_iff_exists.mp ran
  refine ⟨tree, isTree, flushedOnce_of_reaches (Lib.reaches_of_run ?_ isTree)⟩
  intro before act passed
  exact of_decide_eq_true passed

/-- With two flushed files that overlap, a read sample schedules a compaction while the
push-down thread is building from the third memtable: the compaction thread builds a second
table from it, and finds no `imm_` when it commits. -/
theorem readSample_flushes_twice :
    ¬ ∀ tree, Lib.Reaches step (fun _ _ => True) initial tree → FlushedOnce tree := by
  intro claim
  have ran : (Lib.run step (fun _ _ => true) initial
      (flushOne ++ flushOne ++ insertOne ++ [Act.adaptMem, .beginScan, .readSample, .endScan,
        .backgroundCall, .buildPushDown 1, .commitPushDown, .buildCompaction 1])).map
        (fun tree => (tree.compaction, tree.imm)) =
      some (Worker.built 2 [⟨⟨[1], 4, .kTypeValue⟩, [2]⟩], none) := by
    decide +kernel
  obtain ⟨tree, isTree, ends⟩ := Option.map_eq_some_iff.mp ran
  obtain ⟨isBuilt, noImm⟩ := Prod.mk.inj ends
  have reaches := Lib.reaches_of_run (fun _ _ _ => trivial) isTree
  have held := (claim tree reaches).compactionCommits _ _ isBuilt
  rw [noImm] at held
  cases held

end Tree

end AhaTree
