import AhaTree.AckedWrites
import AhaTree.SequenceNumbers
import AhaTree.SortedScan

/-!
# The flags for cold memtables

A scan inside the hot range skips `mem_` and `imm_` while their flags say that
they hold cold entries only.  A group clears the flag by the batch of its first
writer, and reads `mem_` after the mutex is released.  Both leave room for hot
entries in a memtable that scans skip.
-/

namespace AhaTree

/-! ## The hot range -/

/-- `low_hot_key_` and `up_hot_key_`. -/
structure HotRange where
  low : Slice
  up : Slice
  deriving DecidableEq, Repr

namespace HotRange

/-- Without both ends the entire key space is hot. -/
def Contains (range : HotRange) (key : Slice) : Prop :=
  range.low = [] ∧ range.up = [] ∨ range.low ≤ key ∧ key ≤ range.up

/-- `RangeWithinHotspot`; the upper end is empty when the selectivity is
fixed. -/
def rangeWithinHotspot (range : HotRange) (low up : Slice) : Bool :=
  if range.low.isEmpty && range.up.isEmpty then true
  else if up.isEmpty then
    (Slice.compare low range.low).isGE && (Slice.compare low range.up).isLE
  else (Slice.compare low range.low).isGE && (Slice.compare up range.up).isLE

/-- An accepted scan with an upper end stays inside the hot range. -/
theorem contains_of_within {range : HotRange} {low up key : Slice}
    (accepted : range.rangeWithinHotspot low up = true) (atLeast : low ≤ key)
    (atMost : up ≠ [] → key ≤ up) (unbounded : up = [] → range.Contains key) :
    range.Contains key := by
  by_cases ends : up = []
  · exact unbounded ends
  · simp only [rangeWithinHotspot] at accepted
    split at accepted
    · rename_i everything
      exact .inl (by simpa using everything)
    · rw [if_neg (by simpa using ends), Bool.and_eq_true] at accepted
      have lower : range.low ≤ low := by simpa using accepted.1
      have upper : up ≤ range.up := by simpa using accepted.2
      exact .inr ⟨lower.trans atLeast, (atMost ends).trans upper⟩

end HotRange

namespace Tree

/-- The iterator of a memtable, which keeps its entries in order. -/
def memtableIter (tree : Tree) (table : Nat) : Component :=
  .sorted ((tree.tables table).mergeSort (fun left right => !right.before left))

/-- `DoAddMemToIter`. -/
def addMemToIter (inHotspot : Bool) (tree : Tree) : List Component :=
  if tree.memEmpty then []
  else if inHotspot && tree.memColdOnly then []
  else [tree.memtableIter tree.mem]

/-- `DoAddImmToIter`. -/
def addImmToIter (inHotspot : Bool) (tree : Tree) : List Component :=
  if !tree.hasImm then []
  else if inHotspot && tree.immColdOnly then []
  else (tree.imm.map tree.memtableIter).toList

/-- The components of a scan; `rest` stands for those of the LSMTs and pages. -/
def scanned (inHotspot : Bool) (tree : Tree) (rest : List Component) :
    List Component :=
  tree.addMemToIter inHotspot ++ tree.addImmToIter inHotspot ++ rest

end Tree

/-! ## Whose entries a memtable holds -/

/-- The tree with a record of all batches, and of the writers of the entries in
each memtable. -/
structure Attributed where
  tree : Tree
  batches : List (Nat × WriteBatch)
  held : Nat → List (Nat × Entry)

/-- The entries of a group that has not read `mem_` yet. -/
def Leader.unplaced : Leader → List (Nat × Entry)
  | .grouped _ entries => entries
  | _ => []

/-- The entries that the front writer has still to put. -/
def Leader.pending : Leader → List (Nat × Entry)
  | .grouped _ entries => entries
  | .inserting _ _ _ left => left
  | _ => []

namespace Attributed

def initial : Attributed := ⟨.initial, [], fun _ => []⟩

def recordBatch (state : Attributed) : Act → List (Nat × WriteBatch)
  | .insertBatch (some batch) => (state.tree.nextInsert, batch) :: state.batches
  | _ => state.batches

def recordPut (state : Attributed) : Act → Leader → Nat → List (Nat × Entry)
  | .putEntry, .inserting table _ _ (entry :: _) =>
      Function.update state.held table (state.held table ++ [entry])
  | _, _ => state.held

def step (state : Attributed) (act : Act) : Option Attributed :=
  (state.tree.step act).map (fun after =>
    ⟨after, state.recordBatch act, state.recordPut act state.tree.leader⟩)

/-- The writer's batch has `HasHotspot()`. -/
def hot (batches : List (Nat × WriteBatch)) (owner : Nat) : Bool :=
  batches.any (fun record => record.1 == owner && record.2.hasHotspot)

/-- A memtable that holds an entry of a hot batch is not marked as cold. -/
structure FlagsSound (state : Attributed) : Prop where
  mem : ∀ entry ∈ state.held state.tree.mem, hot state.batches entry.1 = true →
    state.tree.memColdOnly = false
  imm : ∀ table ∈ state.tree.imm, ∀ entry ∈ state.held table,
    hot state.batches entry.1 = true → state.tree.immColdOnly = false

/-- Every batch with a key in the hot range has `HasHotspot()`. -/
def BatchesFlagged (state : Attributed) (range : HotRange) : Prop :=
  ∀ record ∈ state.batches, (∃ op ∈ record.2.ops, range.Contains op.key) →
    record.2.hasHotspot = true

/-- The front writer's batch has `HasHotspot()`. -/
def FrontHot (tree : Tree) : Prop :=
  ∃ writer ∈ tree.writers.head?, ∃ batch ∈ writer.batch, batch.hasHotspot = true

/-- A writer of the next group has hot entries. -/
def GroupHot (tree : Tree) : Prop :=
  ∃ writer ∈ tree.nextGroup, ∃ batch ∈ writer.batch,
    batch.hasHotspot = true ∧ batch.ops ≠ []

/-- A step does not let hot entries escape the flag of `mem_`: the first writer
of a group with hot entries is hot itself, or the flag is down already; and
`AdaptMem` does not switch between such a group and its read of `mem_`. -/
def Covered (state : Attributed) (act : Act) : Prop :=
  (act = .group → GroupHot state.tree →
    FrontHot state.tree ∨ state.tree.memColdOnly = false) ∧
  (act = .adaptMem → state.tree.hasImm = false →
    ∀ entry ∈ state.tree.leader.unplaced, hot state.batches entry.1 = false)

instance (tree : Tree) : Decidable (FrontHot tree) :=
  inferInstanceAs (Decidable (∃ writer ∈ tree.writers.head?, _))

instance (tree : Tree) : Decidable (GroupHot tree) :=
  inferInstanceAs (Decidable (∃ writer ∈ tree.nextGroup, _))

instance (state : Attributed) (act : Act) : Decidable (state.Covered act) :=
  inferInstanceAs (Decidable (_ ∧ _))

/-! ## The record is true -/

/-- The entry comes from the batch of its writer. -/
def Owned (state : Attributed) (entry : Nat × Entry) : Prop :=
  ∃ batch, (entry.1, batch) ∈ state.batches ∧
    ∃ op ∈ batch.ops, op.key = entry.2.userKey

structure Recorded (state : Attributed) : Prop where
  below : ∀ record ∈ state.batches, record.1 < state.tree.nextInsert
  once : (state.batches.map Prod.fst).Nodup
  queued : ∀ writer ∈ state.tree.writers, ∀ batch ∈ writer.batch,
    (writer.id, batch) ∈ state.batches
  mirrors : ∀ table, (state.held table).map Prod.snd = state.tree.tables table
  owned : ∀ table, ∀ entry ∈ state.held table, state.Owned entry
  pending : ∀ entry ∈ state.tree.leader.pending, state.Owned entry

/-- What keeps the flags sound.  New memtables are empty, and the flag that goes
with the target of pending hot entries is down. -/
structure Flagged (state : Attributed) : Prop extends FlagsSound state where
  old : state.tree.mem < state.tree.nextTable
  apart : state.tree.imm ≠ some state.tree.mem
  fresh : ∀ table, state.tree.nextTable ≤ table → state.held table = []
  unplaced : ∀ entry ∈ state.tree.leader.unplaced, hot state.batches entry.1 = true →
    state.tree.memColdOnly = false
  target : ∀ table ∈ state.tree.leader.filling?, table < state.tree.nextTable
  filling : ∀ table ∈ state.tree.leader.filling?,
    ∀ entry ∈ state.tree.leader.pending, hot state.batches entry.1 = true →
      (table = state.tree.mem → state.tree.memColdOnly = false) ∧
        (state.tree.imm = some table → state.tree.immColdOnly = false)

end Attributed

/-! ## What a step does to memtables and flags -/

/-- The steps that neither add a writer, form a group, read `mem_` for it nor
put its entries. -/
def Act.plain : Act → Bool
  | .insertBatch _ | .group | .fetchMem | .putEntry => false
  | _ => true

namespace Tree

variable {tree middle after : Tree}

/-- Memtables and flags are the same, and the front writer stays where it is or
has nothing to put. -/
structure Quiet (tree after : Tree) : Prop where
  nextInsert : tree.nextInsert ≤ after.nextInsert
  writers : ∀ writer ∈ after.writers, writer ∈ tree.writers
  tables : after.tables = tree.tables
  nextTable : after.nextTable = tree.nextTable
  mem : after.mem = tree.mem
  imm : after.imm = tree.imm
  memColdOnly : after.memColdOnly = tree.memColdOnly
  immColdOnly : after.immColdOnly = tree.immColdOnly
  leader : after.leader = tree.leader ∨ after.leader.pending = []

theorem Quiet.refl (tree : Tree) : Quiet tree tree where
  nextInsert := le_rfl
  writers := fun _ => id
  tables := rfl
  nextTable := rfl
  mem := rfl
  imm := rfl
  memColdOnly := rfl
  immColdOnly := rfl
  leader := .inl rfl

theorem quiet_maybeSchedule (needs : Bool) (tree : Tree) :
    Quiet tree (tree.maybeScheduleCompaction needs) := by
  obtain ⟨scheduled, jobs, same⟩ := maybeScheduleCompaction_eq needs tree
  rw [same]
  exact { Quiet.refl tree with }

theorem quiet_endBackgroundCall (needs : Bool) (tree : Tree) :
    Quiet tree (tree.endBackgroundCall needs) :=
  { quiet_maybeSchedule needs { tree with compaction := .idle, scheduled := false } with }

theorem unplaced_of_roomFlags {writer : Writer} {leader : Leader}
    {flags : Bool × Bool} (ready : roomFlags writer leader = some flags) :
    leader.unplaced = [] := by
  cases leader with
  | grouped group entries => cases ready
  | _ => rfl

/-- How a plain step treats the memtables: it leaves them, switches `mem_`, or
retires `imm_`. -/
def Moves (act : Act) (tree middle : Tree) : Prop :=
  middle = tree ∨
    (middle = tree.switchMem ∧
      (tree.leader.unplaced = [] ∨ act = .adaptMem ∧ tree.hasImm = false)) ∨
    ∃ table contents, middle = tree.commitImm table contents

theorem makeRoom_moves {views : List RoomView}
    (made : tree.makeRoom views = some after) :
    ∃ middle, Moves (.makeRoom views) tree middle ∧ Quiet middle after := by
  obtain ⟨writer, rest, flags, middle, queue, ready, moved, ended⟩ := makeRoom_cases made
  obtain ⟨between, moves, quiet, same⟩ : ∃ between,
      Moves (.makeRoom views) tree between ∧ Quiet between middle ∧
        middle.writers = tree.writers := by
    rcases moved with rfl | ⟨-, needs, rfl⟩
    · exact ⟨middle, .inl rfl, .refl middle, rfl⟩
    · refine ⟨tree.switchMem, .inr (.inl ⟨rfl, .inl (unplaced_of_roomFlags ready)⟩),
        quiet_maybeSchedule needs _, ?_⟩
      obtain ⟨scheduled, jobs, same⟩ := maybeScheduleCompaction_eq needs tree.switchMem
      rw [same]
      rfl
  refine ⟨between, moves, ?_⟩
  rcases ended with ⟨force, allowDelay, rfl⟩ | rfl
  · exact { quiet with leader := .inr rfl }
  · rw [leaveRoom]
    split
    · exact { quiet with leader := .inr rfl }
    · refine { quiet with leader := .inr rfl, writers := ?_ }
      intro other member
      apply quiet.writers
      rw [same, queue]
      exact List.mem_cons_of_mem _ member

/-- Every plain step is a move of memtables and a quiet rest. -/
theorem moves_of_perform {act : Act} (plain : act.plain = true)
    (performed : tree.perform act = some after) :
    ∃ middle, Moves act tree middle ∧ Quiet middle after := by
  have stays : ∀ {later : Tree}, Quiet tree later →
      ∃ middle, Moves act tree middle ∧ Quiet middle later :=
    fun quiet => ⟨tree, .inl rfl, quiet⟩
  cases act with
  | insertBatch | group | fetchMem | putEntry => cases plain
  | makeRoom views => exact makeRoom_moves performed
  | finishGroup =>
      obtain ⟨group, put, rfl⟩ := finishGroup_cases performed
      exact stays { Quiet.refl tree with
        writers := fun _ => List.mem_of_mem_drop
        leader := .inr rfl }
  | callSingle key value =>
      cases performed
      exact stays { Quiet.refl tree with nextInsert := Nat.le_succ _ }
  | takeSingle id =>
      obtain ⟨key, value, -, rfl⟩ := takeSingle_cases performed
      exact stays { Quiet.refl tree with }
  | returnSingle id =>
      obtain ⟨-, rfl⟩ := returnSingle_cases performed
      exact stays { Quiet.refl tree with }
  | backgroundCall =>
      obtain ⟨-, -, worker, rfl, -⟩ := backgroundCall_cases performed
      exact stays { Quiet.refl tree with }
  | buildCompaction seen =>
      obtain ⟨worker, -, rfl⟩ := Option.map_eq_some_iff.mp performed
      exact stays { Quiet.refl tree with }
  | buildPushDown seen =>
      obtain ⟨worker, -, rfl⟩ := Option.map_eq_some_iff.mp performed
      exact stays { Quiet.refl tree with }
  | commitCompaction needs =>
      obtain ⟨table, contents, -, rfl⟩ := commitCompaction_cases performed
      exact ⟨_, .inr (.inr ⟨table, contents, rfl⟩), quiet_endBackgroundCall needs _⟩
  | commitPushDown =>
      obtain ⟨table, contents, -, rfl⟩ := commitPushDown_cases performed
      exact ⟨_, .inr (.inr ⟨table, contents, rfl⟩), { Quiet.refl _ with }⟩
  | endCompact needs =>
      obtain ⟨-, rfl⟩ := endCompact_cases performed
      exact stays (quiet_endBackgroundCall needs tree)
  | adaptMem =>
      rcases adaptMem_cases performed with rfl | ⟨noImm, -, switched⟩
      · exact stays (.refl after)
      · refine ⟨tree.switchMem, .inr (.inl ⟨rfl, .inr ⟨rfl, noImm⟩⟩), ?_⟩
        rcases switched with ⟨-, rfl⟩ | ⟨-, rfl⟩
        · exact .refl _
        · exact { Quiet.refl tree.switchMem with }
  | adaptImm =>
      rcases adaptImm_cases performed with rfl | ⟨table, -, -, -, rfl⟩
      · exact stays (.refl after)
      · exact stays { Quiet.refl tree with }
  | installed needs =>
      simp only [perform] at performed
      split at performed
      · cases performed
        exact stays (quiet_maybeSchedule needs tree)
      · cases performed
  | readSample =>
      simp only [perform] at performed
      split at performed
      · cases performed
        exact stays (quiet_maybeSchedule true tree)
      · cases performed
  | beginScan =>
      simp only [perform] at performed
      split at performed
      · cases performed
        exact stays { Quiet.refl tree with }
      · cases performed
  | endScan =>
      simp only [perform] at performed
      split at performed
      · cases performed
        exact stays { Quiet.refl tree with }
      · cases performed

end Tree

namespace Tree

variable {tree after : Tree}

/-- A writer joins the queue, and the front writer stays where it is or
enters. -/
theorem insertBatch_leader {batch : Option WriteBatch}
    (inserted : tree.insertBatch batch = some after) :
    ∃ leader, (leader = tree.leader ∨ leader = .entering) ∧ after = { tree with
      writers := tree.writers ++ [⟨tree.nextInsert, batch⟩]
      leader := leader
      nextInsert := tree.nextInsert + 1
      started := (tree.nextInsert, tree.returned) :: tree.started } := by
  rw [insertBatch] at inserted
  split at inserted
  · cases inserted
    refine ⟨_, ?_, rfl⟩
    split
    · exact .inr rfl
    · exact .inl rfl
  · cases inserted

end Tree

/-- The entries of a group are the records of its writers. -/
theorem op_of_mem_numbered {first : Nat} {ops : List (Nat × Op)}
    {entry : Nat × Entry} (member : entry ∈ numbered first ops) :
    ∃ op, (entry.1, op) ∈ ops ∧ op.key = entry.2.userKey := by
  induction ops generalizing first with
  | nil => cases member
  | cons op ops ih =>
      obtain ⟨owner, op⟩ := op
      rcases List.mem_cons.mp member with rfl | later
      · exact ⟨op, List.mem_cons_self, rfl⟩
      · obtain ⟨found, isFound, sameKey⟩ := ih later
        exact ⟨found, List.mem_cons_of_mem _ isFound, sameKey⟩

/-- Where an entry of the next group comes from. -/
theorem Tree.writer_of_grouped {tree : Tree} {first : Nat} {entry : Nat × Entry}
    (member : entry ∈ numbered first (tree.nextGroup.flatMap Writer.ops)) :
    ∃ writer ∈ tree.nextGroup, ∃ batch, writer.batch = some batch ∧
      writer.id = entry.1 ∧ ∃ op ∈ batch.ops, op.key = entry.2.userKey := by
  obtain ⟨op, isOp, sameKey⟩ := op_of_mem_numbered member
  obtain ⟨writer, isWriter, inOps⟩ := List.mem_flatMap.mp isOp
  obtain ⟨record, isRecord, pair⟩ := List.mem_map.mp inOps
  obtain ⟨sameId, rfl⟩ := Prod.mk.inj pair
  cases isBatch : writer.batch with
  | none => simp [isBatch] at isRecord
  | some batch => exact ⟨writer, isWriter, batch, isBatch, sameId, record,
      by simpa [isBatch] using isRecord, sameKey⟩

namespace Attributed

variable {state : Attributed} {tree : Tree}

theorem Owned.mono {later : Attributed} {entry : Nat × Entry}
    (owned : state.Owned entry)
    (grown : ∀ record ∈ state.batches, record ∈ later.batches) :
    later.Owned entry := by
  obtain ⟨batch, isBatch, op⟩ := owned
  exact ⟨batch, grown _ isBatch, op⟩

namespace Recorded

theorem initial : Recorded initial := by
  constructor <;> simp [Attributed.initial, Tree.initial, Leader.pending]

theorem of_quiet (inv : Recorded state) (quiet : state.tree.Quiet tree) :
    Recorded ⟨tree, state.batches, state.held⟩ where
  below := fun record member => (inv.below record member).trans_le quiet.nextInsert
  once := inv.once
  queued := fun writer member => inv.queued writer (quiet.writers writer member)
  mirrors := by simpa only [quiet.tables] using inv.mirrors
  owned := inv.owned
  pending := by
    intro entry member
    rcases quiet.leader with same | empty
    · exact inv.pending entry (same ▸ member)
    · rw [empty] at member
      cases member

theorem move {act : Act} (inv : Recorded state) (moves : state.tree.Moves act tree) :
    Recorded ⟨tree, state.batches, state.held⟩ := by
  rcases moves with rfl | ⟨rfl, -⟩ | ⟨table, contents, rfl⟩
  · exact inv
  · exact { inv with }
  · cases held : state.tree.imm with
    | none =>
        rw [Tree.commitImm, held]
        exact { inv with }
    | some other =>
        obtain ⟨hotspot, same⟩ :=
          @Tree.commitImm_of_imm state.tree table other contents held
        rw [same]
        exact { inv with }

theorem insertBatch {batch : Option WriteBatch} (inv : Recorded state)
    (inserted : state.tree.insertBatch batch = some tree) :
    Recorded ⟨tree, state.recordBatch (.insertBatch batch), state.held⟩ := by
  obtain ⟨leader, place, rfl⟩ := Tree.insertBatch_leader inserted
  have grown : ∀ record ∈ state.batches,
      record ∈ state.recordBatch (.insertBatch batch) := by
    intro record member
    cases batch with
    | none => exact member
    | some batch => exact List.mem_cons_of_mem _ member
  constructor
  · intro record member
    cases batch with
    | none => exact (inv.below record member).trans (Nat.lt_succ_self _)
    | some batch =>
        rcases List.mem_cons.mp member with rfl | earlier
        · exact Nat.lt_succ_self _
        · exact (inv.below record earlier).trans (Nat.lt_succ_self _)
  · cases batch with
    | none => exact inv.once
    | some batch =>
        refine List.nodup_cons.mpr ⟨fun member => ?_, inv.once⟩
        obtain ⟨record, isRecord, same⟩ := List.mem_map.mp member
        exact absurd same (inv.below record isRecord).ne
  · intro writer member found isFound
    rcases List.mem_append.mp member with earlier | new
    · exact grown _ (inv.queued writer earlier found isFound)
    · obtain rfl := List.mem_singleton.mp new
      cases isFound
      exact List.mem_cons_self
  · exact inv.mirrors
  · exact fun table entry member => (inv.owned table entry member).mono grown
  · intro entry member
    rcases place with rfl | rfl
    · exact (inv.pending entry member).mono grown
    · cases member

theorem group (inv : Recorded state) (grouped : state.tree.group = some tree) :
    Recorded ⟨tree, state.batches, state.held⟩ := by
  obtain ⟨last, memColdOnly, -, rfl⟩ := Tree.group_cases grouped
  refine { inv with pending := ?_ }
  intro entry member
  obtain ⟨writer, isWriter, batch, isBatch, sameId, op⟩ := Tree.writer_of_grouped member
  have queued := inv.queued writer (state.tree.nextGroup_sublist.subset isWriter)
    batch isBatch
  rw [sameId] at queued
  exact ⟨batch, queued, op⟩

theorem fetchMem (inv : Recorded state) (fetched : state.tree.fetchMem = some tree) :
    Recorded ⟨tree, state.batches, state.held⟩ := by
  rw [Tree.fetchMem] at fetched
  split at fetched
  · rename_i group entries leader
    cases fetched
    refine { inv with pending := fun entry member => inv.pending entry ?_ }
    rw [leader]
    exact member
  · cases fetched

theorem putEntry (inv : Recorded state) (put : state.tree.putEntry = some tree) :
    Recorded ⟨tree, state.batches,
      state.recordPut .putEntry state.tree.leader⟩ := by
  obtain ⟨table, group, done, entry, left, leader, rfl⟩ := Tree.putEntry_cases put
  rw [leader]
  have pending : ∀ other ∈ entry :: left, state.Owned other := by
    intro other member
    apply inv.pending
    rw [leader]
    exact member
  refine { inv with mirrors := ?_, owned := ?_, pending := ?_ }
  · intro other
    by_cases same : other = table
    · subst same
      simp [recordPut, inv.mirrors]
    · simpa [recordPut, same] using inv.mirrors other
  · intro other item member
    by_cases same : other = table
    · subst same
      simp only [recordPut, Function.update_self, List.mem_append,
        List.mem_singleton] at member
      rcases member with earlier | rfl
      · exact inv.owned other item earlier
      · exact pending item List.mem_cons_self
    · simp only [recordPut, Function.update_of_ne same] at member
      exact inv.owned other item member
  · exact fun item member => pending item (List.mem_cons_of_mem _ member)

end Recorded

theorem Recorded.perform {act : Act} (inv : Recorded state)
    (performed : state.tree.perform act = some tree) :
    Recorded ⟨tree, state.recordBatch act, state.recordPut act state.tree.leader⟩ := by
  by_cases plain : act.plain = true
  · obtain ⟨middle, moves, quiet⟩ := Tree.moves_of_perform plain performed
    have kept := (inv.move moves).of_quiet quiet
    cases act with
    | insertBatch | group | fetchMem | putEntry => cases plain
    | _ => exact kept
  · cases act with
    | insertBatch batch => exact inv.insertBatch performed
    | group => exact inv.group performed
    | fetchMem => exact inv.fetchMem performed
    | putEntry => exact inv.putEntry performed
    | _ => simp [Act.plain] at plain

/-- The writer of a recorded entry is hot by its own batch. -/
theorem Recorded.hot_iff (inv : Recorded state) {owner : Nat} {batch : WriteBatch}
    (isBatch : (owner, batch) ∈ state.batches) :
    hot state.batches owner = batch.hasHotspot := by
  have unique : ∀ record ∈ state.batches, record.1 = owner → record.2 = batch := by
    intro record member same
    have equal := List.inj_on_of_nodup_map inv.once member isBatch same
    rw [equal]
  rw [Bool.eq_iff_iff, hot, List.any_eq_true]
  constructor
  · rintro ⟨record, member, isHot⟩
    simp only [Bool.and_eq_true, beq_iff_eq] at isHot
    rw [← unique record member isHot.1]
    exact isHot.2
  · intro isHot
    exact ⟨(owner, batch), isBatch, by simp [isHot]⟩

/-- Batches that come later do not heat up entries that are there. -/
theorem Recorded.hot_insertBatch {batch : Option WriteBatch} (inv : Recorded state)
    (inserted : state.tree.insertBatch batch = some tree) {entry : Nat × Entry}
    (owned : state.Owned entry) :
    hot (state.recordBatch (.insertBatch batch)) entry.1 =
      hot state.batches entry.1 := by
  obtain ⟨found, isFound, -⟩ := owned
  have later : (entry.1, found) ∈ state.recordBatch (.insertBatch batch) := by
    cases batch with
    | none => exact isFound
    | some batch => exact List.mem_cons_of_mem _ isFound
  rw [inv.hot_iff isFound, (inv.insertBatch inserted).hot_iff later]

namespace Flagged

theorem initial : Flagged initial where
  mem := by simp [Attributed.initial]
  imm := by simp [Attributed.initial]
  old := Nat.zero_lt_one
  apart := by simp [Attributed.initial, Tree.initial]
  fresh := fun _ _ => rfl
  unplaced := by simp [Attributed.initial, Tree.initial, Leader.unplaced]
  target := by simp [Attributed.initial, Tree.initial, Leader.filling?]
  filling := by simp [Attributed.initial, Tree.initial, Leader.filling?]

end Flagged

end Attributed

/-- Who has nothing to put has no group to place and fills no memtable. -/
theorem Leader.idle_of_pending_nil {leader : Leader} (none : leader.pending = []) :
    leader.unplaced = [] ∧ leader.filling? = Option.none := by
  cases leader with
  | grouped group entries => exact ⟨none, rfl⟩
  | inserting table group put left =>
      obtain rfl : left = [] := none
      exact ⟨rfl, rfl⟩
  | _ => exact ⟨rfl, rfl⟩

namespace Attributed

variable {state : Attributed} {tree : Tree}

namespace Flagged

theorem of_quiet (inv : Flagged state) (quiet : state.tree.Quiet tree) :
    Flagged ⟨tree, state.batches, state.held⟩ := by
  refine
    { mem := ?_, imm := ?_, old := ?_, apart := ?_, fresh := ?_, unplaced := ?_,
      target := ?_, filling := ?_ }
  · simpa only [quiet.mem, quiet.memColdOnly] using inv.mem
  · simpa only [quiet.imm, quiet.immColdOnly] using inv.imm
  · simpa only [quiet.mem, quiet.nextTable] using inv.old
  · simpa only [quiet.mem, quiet.imm] using inv.apart
  · simpa only [quiet.nextTable] using inv.fresh
  all_goals
    simp only [quiet.mem, quiet.imm, quiet.memColdOnly, quiet.immColdOnly,
      quiet.nextTable]
    rcases quiet.leader with same | empty
  · rw [same]
    exact inv.unplaced
  · simp [(Leader.idle_of_pending_nil empty).1]
  · rw [same]
    exact inv.target
  · simp [(Leader.idle_of_pending_nil empty).2]
  · rw [same]
    exact inv.filling
  · simp [(Leader.idle_of_pending_nil empty).2]

/-- A switch takes the flag along with the memtable, and nothing hot is on its
way to the new one. -/
theorem switchMem (inv : Flagged state)
    (placed : ∀ entry ∈ state.tree.leader.unplaced, hot state.batches entry.1 = false) :
    Flagged ⟨state.tree.switchMem, state.batches, state.held⟩ where
  mem := by
    intro entry member
    rw [show state.held (state.tree.switchMem.mem) = [] from
      inv.fresh _ le_rfl] at member
    cases member
  imm := by
    rintro table ⟨⟩
    exact inv.mem
  old := Nat.lt_succ_self _
  apart := fun same => inv.old.ne (Option.some.inj same)
  fresh := fun table later => inv.fresh table ((Nat.le_succ _).trans later)
  unplaced := by
    intro entry member isHot
    exact absurd isHot (by simpa using placed entry member)
  target := fun table isTarget => (inv.target table isTarget).trans (Nat.lt_succ_self _)
  filling := by
    intro table isTarget entry member isHot
    refine ⟨fun isNew => absurd isNew (inv.target table isTarget).ne, ?_⟩
    intro isOld
    exact (inv.filling table isTarget entry member isHot).1 (Option.some.inj isOld).symm

theorem commitImm (inv : Flagged state) (table : Nat) (contents : List Entry) :
    Flagged ⟨state.tree.commitImm table contents, state.batches, state.held⟩ := by
  cases held : state.tree.imm with
  | none =>
      have same : state.tree.commitImm table contents =
          { state.tree with crashed := true } := by
        simp only [Tree.commitImm, held]
      rw [same]
      exact { inv with }
  | some other =>
      obtain ⟨hotspot, same⟩ :=
        @Tree.commitImm_of_imm state.tree table other contents held
      rw [same]
      refine { inv with imm := ?_, apart := ?_, filling := ?_ }
      · rintro _ ⟨⟩
      · rintro ⟨⟩
      · intro target isTarget entry member isHot
        refine ⟨(inv.filling target isTarget entry member isHot).1, ?_⟩
        rintro ⟨⟩

theorem move {act : Act} (inv : Flagged state) (covered : state.Covered act)
    (moves : state.tree.Moves act tree) :
    Flagged ⟨tree, state.batches, state.held⟩ := by
  rcases moves with rfl | ⟨rfl, placed⟩ | ⟨table, contents, rfl⟩
  · exact inv
  · apply inv.switchMem
    rcases placed with none | ⟨rfl, noImm⟩
    · simp [none]
    · exact covered.2 rfl noImm
  · exact inv.commitImm table contents

theorem insertBatch {batch : Option WriteBatch} (inv : Flagged state)
    (recorded : Recorded state) (inserted : state.tree.insertBatch batch = some tree) :
    Flagged ⟨tree, state.recordBatch (.insertBatch batch), state.held⟩ := by
  have sameHot : ∀ entry, state.Owned entry →
      hot (state.recordBatch (.insertBatch batch)) entry.1 = true →
      hot state.batches entry.1 = true := by
    intro entry owned isHot
    rwa [recorded.hot_insertBatch inserted owned] at isHot
  obtain ⟨leader, place, rfl⟩ := Tree.insertBatch_leader inserted
  refine
    { mem := ?_, imm := ?_, old := inv.old, apart := inv.apart, fresh := inv.fresh,
      unplaced := ?_, target := ?_, filling := ?_ }
  · intro entry member isHot
    exact inv.mem entry member (sameHot entry (recorded.owned _ entry member) isHot)
  · intro table isTable entry member isHot
    exact inv.imm table isTable entry member
      (sameHot entry (recorded.owned _ entry member) isHot)
  all_goals rcases place with rfl | rfl
  · intro entry member isHot
    refine inv.unplaced entry member (sameHot entry (recorded.pending entry ?_) isHot)
    cases leader : state.tree.leader with
    | grouped group entries => rwa [leader] at member
    | _ =>
        rw [leader] at member
        cases member
  · rintro entry ⟨⟩
  · exact inv.target
  · rintro table ⟨⟩
  · intro table isTarget entry member isHot
    exact inv.filling table isTarget entry member
      (sameHot entry (recorded.pending entry member) isHot)
  · rintro table ⟨⟩

/-- The flag goes down with the first hot group. -/
theorem group (inv : Flagged state) (recorded : Recorded state)
    (covered : state.Covered .group) (grouped : state.tree.group = some tree) :
    Flagged ⟨tree, state.batches, state.held⟩ := by
  rw [Tree.group] at grouped
  split at grouped
  · rename_i last writer rest leader queue
    cases grouped
    have lowered : ∀ {flag : Bool}, state.tree.memColdOnly = false →
        (state.tree.memColdOnly && flag) = false := by
      intro flag down
      simp [down]
    refine
      { mem := fun entry member isHot => lowered (inv.mem entry member isHot)
        imm := inv.imm, old := inv.old, apart := inv.apart, fresh := inv.fresh,
        unplaced := ?_, target := ?_, filling := ?_ }
    · intro entry member isHot
      obtain ⟨owner, isOwner, batch, isBatch, sameId, op, isOp, -⟩ :=
        Tree.writer_of_grouped member
      have queued := recorded.queued owner
        (state.tree.nextGroup_sublist.subset isOwner) batch isBatch
      rw [sameId] at queued
      have batchHot : batch.hasHotspot = true := by
        rw [← recorded.hot_iff queued]
        exact isHot
      have groupHot : GroupHot state.tree :=
        ⟨owner, isOwner, batch, isBatch, batchHot, List.ne_nil_of_mem isOp⟩
      rcases covered.1 rfl groupHot with ⟨front, isFront, found, isFound, frontHot⟩ | down
      · obtain rfl : writer = front := by simpa [queue] using isFront
        have isSome : writer.batch = some found := isFound
        simp [isSome, frontHot]
      · exact lowered down
    · rintro table ⟨⟩
    · rintro table ⟨⟩
  · cases grouped

theorem fetchMem (inv : Flagged state) (fetched : state.tree.fetchMem = some tree) :
    Flagged ⟨tree, state.batches, state.held⟩ := by
  rw [Tree.fetchMem] at fetched
  split at fetched
  · rename_i group entries leader
    cases fetched
    refine { inv with unplaced := ?_, target := ?_, filling := ?_ }
    · rintro entry ⟨⟩
    · intro table isTarget
      cases entries with
      | nil => cases isTarget
      | cons entry entries =>
          cases isTarget
          exact inv.old
    · intro table isTarget entry member isHot
      cases entries with
      | nil => cases isTarget
      | cons first entries =>
          cases isTarget
          refine ⟨fun _ => inv.unplaced entry ?_ isHot, fun held => absurd held inv.apart⟩
          rw [leader]
          exact member
  · cases fetched

theorem putEntry (inv : Flagged state) (put : state.tree.putEntry = some tree) :
    Flagged ⟨tree, state.batches, state.recordPut .putEntry state.tree.leader⟩ := by
  obtain ⟨table, group, done, entry, left, leader, rfl⟩ := Tree.putEntry_cases put
  rw [leader]
  have isTarget : state.tree.leader.filling? = some table := by
    rw [leader]
    rfl
  have covers : ∀ item ∈ entry :: left, hot state.batches item.1 = true →
      (table = state.tree.mem → state.tree.memColdOnly = false) ∧
        (state.tree.imm = some table → state.tree.immColdOnly = false) := by
    intro item member
    apply inv.filling table isTarget
    rw [leader]
    exact member
  -- an entry that is in a memtable afterwards was there or has just been put
  have source : ∀ other item, item ∈ state.recordPut .putEntry
      (.inserting table group done (entry :: left)) other →
      item ∈ state.held other ∨ (item = entry ∧ other = table) := by
    intro other item member
    by_cases same : other = table
    · subst same
      simpa [recordPut] using member
    · exact .inl (by simpa [recordPut, same] using member)
  have filled : ∀ other ∈ Leader.filling? (.inserting table group (done ++ [entry]) left),
      other = table := by
    intro other isOther
    cases left with
    | nil => cases isOther
    | cons => exact (Option.some.inj isOther).symm
  refine
    { mem := ?_, imm := ?_, old := inv.old, apart := inv.apart, fresh := ?_,
      unplaced := ?_, target := ?_, filling := ?_ }
  · intro item member isHot
    rcases source _ item member with earlier | ⟨rfl, same⟩
    · exact inv.mem item earlier isHot
    · exact (covers item List.mem_cons_self isHot).1 same.symm
  · intro other isOther item member isHot
    rcases source _ item member with earlier | ⟨rfl, rfl⟩
    · exact inv.imm other isOther item earlier isHot
    · exact (covers item List.mem_cons_self isHot).2 isOther
  · intro other later
    have apart : other ≠ table := ((inv.target table isTarget).trans_le later).ne'
    simpa [recordPut, apart] using inv.fresh other later
  · rintro item ⟨⟩
  · intro other isOther
    rw [filled other isOther]
    exact inv.target table isTarget
  · intro other isOther item member isHot
    rw [filled other isOther]
    exact covers item (List.mem_cons_of_mem _ member) isHot

theorem perform {act : Act} (inv : Flagged state) (recorded : Recorded state)
    (covered : state.Covered act) (performed : state.tree.perform act = some tree) :
    Flagged ⟨tree, state.recordBatch act, state.recordPut act state.tree.leader⟩ := by
  by_cases plain : act.plain = true
  · obtain ⟨middle, moves, quiet⟩ := Tree.moves_of_perform plain performed
    have kept := (inv.move covered moves).of_quiet quiet
    cases act with
    | insertBatch | group | fetchMem | putEntry => cases plain
    | _ => exact kept
  · cases act with
    | insertBatch batch => exact inv.insertBatch recorded performed
    | group => exact inv.group recorded covered performed
    | fetchMem => exact inv.fetchMem performed
    | putEntry => exact inv.putEntry performed
    | _ => simp [Act.plain] at plain

end Flagged

/-! ## Scans that skip -/

/-- For the keys between the ends of the scan, the components without the skipped
memtables show what all of them show, and so do the iterators over them, which come to
their end where no page behind the first one is empty.  A scan without an upper end is
compared as far as the hot range goes. -/
structure ScansAgree (state : Attributed) (range : HotRange) (low up : Slice) :
    Prop where
  visible : ∀ rest seqNo key value, low ≤ key → (up ≠ [] → key ≤ up) →
    (up = [] → range.Contains key) →
    (Visible ((state.tree.scanned true rest).flatMap Component.entries) seqNo key value ↔
      Visible ((state.tree.scanned false rest).flatMap Component.entries) seqNo key value)
  shows : ∀ rest seqNo (skipping whole : Streams) seen all,
    skipping.components = state.tree.scanned true rest →
    whole.components = state.tree.scanned false rest →
    skipping.Shows seqNo low seen → whole.Shows seqNo low all →
    ∀ key value, (up ≠ [] → key ≤ up) → (up = [] → range.Contains key) →
      ((key, value) ∈ seen ↔ (key, value) ∈ all)
  ends : ∀ rest seqNo (skipping whole : Streams),
    skipping.components = state.tree.scanned true rest →
    whole.components = state.tree.scanned false rest →
    (∀ pages, Component.pages pages ∈ rest → [] ∉ pages.tail) →
    (∃ seen, skipping.Shows seqNo low seen) ∧ ∃ all, whole.Shows seqNo low all

/-- The flags are sound, and so hotspot scans may go by them. -/
def ColdFlagsSound (state : Attributed) : Prop :=
  FlagsSound state ∧ ∀ range, state.BatchesFlagged range →
    ∀ low up, range.rangeWithinHotspot low up = true →
      ScansAgree state range low up

end Attributed

namespace Attributed

variable {state : Attributed}

/-- A memtable with the flag has no entry in the hot range. -/
theorem Recorded.cold {range : HotRange} (recorded : Recorded state)
    (flagged : state.BatchesFlagged range) {table : Nat}
    (cold : ∀ entry ∈ state.held table, hot state.batches entry.1 = false)
    {entry : Entry} (member : entry ∈ (state.tree.memtableIter table).entries) :
    ¬ range.Contains entry.userKey := by
  intro inRange
  have stored : entry ∈ (state.held table).map Prod.snd := by
    rw [recorded.mirrors]
    exact (List.mergeSort_perm _ _).mem_iff.mp member
  obtain ⟨held, isHeld, rfl⟩ := List.mem_map.mp stored
  obtain ⟨batch, isBatch, op, isOp, sameKey⟩ := recorded.owned table held isHeld
  have batchHot := flagged _ isBatch ⟨op, isOp, sameKey ▸ inRange⟩
  have isCold := cold held isHeld
  rw [recorded.hot_iff isBatch] at isCold
  rw [isCold] at batchHot
  cases batchHot

end Attributed

namespace Tree

variable {tree : Tree} {rest : List Component} {component : Component}

theorem addMemToIter_true (tree : Tree) : tree.addMemToIter true =
    if tree.memColdOnly then [] else tree.addMemToIter false := by
  simp only [addMemToIter]
  cases tree.memColdOnly <;> simp

theorem addImmToIter_true (tree : Tree) : tree.addImmToIter true =
    if tree.immColdOnly then [] else tree.addImmToIter false := by
  simp only [addImmToIter]
  cases tree.immColdOnly <;> simp

theorem eq_of_mem_addMemToIter (member : component ∈ tree.addMemToIter false) :
    component = tree.memtableIter tree.mem := by
  simp only [addMemToIter, Bool.false_and] at member
  split at member
  · cases member
  · simpa using member

theorem eq_of_mem_addImmToIter (member : component ∈ tree.addImmToIter false) :
    ∃ table, tree.imm = some table ∧ component = tree.memtableIter table := by
  simp only [addImmToIter, Bool.false_and] at member
  split at member
  · cases member
  · cases isImm : tree.imm with
    | none => simp [isImm] at member
    | some table => exact ⟨table, rfl, by simpa [isImm] using member⟩

/-- A scan that skips reads no other components. -/
theorem scanned_subset : tree.scanned true rest ⊆ tree.scanned false rest := by
  have mem : tree.addMemToIter true ⊆ tree.addMemToIter false := by
    rw [addMemToIter_true]
    split
    · exact List.nil_subset _
    · exact List.Subset.refl _
  have imm : tree.addImmToIter true ⊆ tree.addImmToIter false := by
    rw [addImmToIter_true]
    split
    · exact List.nil_subset _
    · exact List.Subset.refl _
  intro component member
  rw [scanned, List.mem_append, List.mem_append] at member ⊢
  exact member.imp_left (Or.imp (@mem component) (@imm component))

/-- All pages are among the other components. -/
theorem pages_mem_rest {inHotspot : Bool} {pages : List (List Entry)}
    (member : Component.pages pages ∈ tree.scanned inHotspot rest) :
    Component.pages pages ∈ rest := by
  have all : Component.pages pages ∈ tree.scanned false rest := by
    cases inHotspot with
    | false => exact member
    | true => exact scanned_subset member
  rw [scanned, List.mem_append, List.mem_append] at all
  rcases all with (inMem | inImm) | inRest
  · cases eq_of_mem_addMemToIter inMem
  · obtain ⟨table, -, same⟩ := eq_of_mem_addImmToIter inImm
    cases same
  · exact inRest

end Tree

namespace Attributed

variable {state : Attributed} {range : HotRange} {rest : List Component}

/-- A component that is skipped is a memtable with no entry in the hot range. -/
theorem FlagsSound.skipped (sound : FlagsSound state) (recorded : Recorded state)
    (flagged : state.BatchesFlagged range) {component : Component}
    (scanned : component ∈ state.tree.scanned false rest) :
    component ∈ state.tree.scanned true rest ∨
      ∃ table, component = state.tree.memtableIter table ∧
        ∀ entry ∈ component.entries, ¬ range.Contains entry.userKey := by
  rw [Tree.scanned, List.mem_append, List.mem_append] at scanned ⊢
  rcases scanned with (inMem | inImm) | inRest
  · cases flag : state.tree.memColdOnly with
    | false =>
        have kept : component ∈ state.tree.addMemToIter true := by
          rwa [Tree.addMemToIter_true, flag]
        exact .inl (.inl (.inl kept))
    | true =>
        have isTable := Tree.eq_of_mem_addMemToIter inMem
        refine .inr ⟨_, isTable, fun entry member => ?_⟩
        refine recorded.cold flagged (fun held isHeld => ?_) (isTable ▸ member)
        by_contra isHot
        have down := sound.mem held isHeld (by simpa using isHot)
        rw [flag] at down
        cases down
  · cases flag : state.tree.immColdOnly with
    | false =>
        have kept : component ∈ state.tree.addImmToIter true := by
          rwa [Tree.addImmToIter_true, flag]
        exact .inl (.inl (.inr kept))
    | true =>
        obtain ⟨table, isImm, isTable⟩ := Tree.eq_of_mem_addImmToIter inImm
        refine .inr ⟨_, isTable, fun entry member => ?_⟩
        refine recorded.cold flagged (fun held isHeld => ?_) (isTable ▸ member)
        by_contra isHot
        have down := sound.imm table isImm held isHeld (by simpa using isHot)
        rw [flag] at down
        cases down
  · exact .inl (.inr inRest)

section Agree

variable {skipping whole : Streams}

theorem FlagsSound.scanned_iff (sound : FlagsSound state) (recorded : Recorded state)
    (flagged : state.BatchesFlagged range) {entry : Entry}
    (inRange : range.Contains entry.userKey) :
    entry ∈ (state.tree.scanned true rest).flatMap Component.entries ↔
      entry ∈ (state.tree.scanned false rest).flatMap Component.entries := by
  constructor
  · intro member
    obtain ⟨component, isComponent, stored⟩ := List.mem_flatMap.mp member
    exact List.mem_flatMap.mpr ⟨component, Tree.scanned_subset isComponent, stored⟩
  · intro member
    obtain ⟨component, isComponent, stored⟩ := List.mem_flatMap.mp member
    rcases sound.skipped recorded flagged isComponent with kept | ⟨table, -, cold⟩
    · exact List.mem_flatMap.mpr ⟨component, kept, stored⟩
    · exact absurd inRange (cold entry stored)

/-- The seek leaves the same entries with and without the skipped memtables, as far as the
hot range goes. -/
theorem FlagsSound.left_iff (sound : FlagsSound state) (recorded : Recorded state)
    (flagged : state.BatchesFlagged range)
    (isSkipping : skipping.components = state.tree.scanned true rest)
    (isWhole : whole.components = state.tree.scanned false rest) {seqNo : Nat} {low : Slice}
    {entry : Entry} (inRange : low ≤ entry.userKey → range.Contains entry.userKey) :
    entry ∈ skipping.leftEntries seqNo low ↔ entry ∈ whole.leftEntries seqNo low := by
  rw [Streams.mem_leftEntries, Streams.mem_leftEntries, isSkipping, isWhole]
  constructor
  · rintro ⟨component, isComponent, left⟩
    exact ⟨component, Tree.scanned_subset isComponent, left⟩
  · rintro ⟨component, isComponent, left⟩
    rcases sound.skipped recorded flagged isComponent with kept | ⟨table, isTable, cold⟩
    · exact ⟨component, kept, left⟩
    · have sorted := whole.sorted component (isWhole ▸ isComponent)
      have stored : entry ∈ component.entries := (component.left_sublist _).subset
        (List.reduceOption_mem_iff.mpr left)
      subst isTable
      exact absurd (inRange (Component.le_of_left_sorted sorted left)) (cold entry stored)

theorem FlagsSound.scansAgree (sound : FlagsSound state) (recorded : Recorded state)
    (flagged : state.BatchesFlagged range) {low up : Slice}
    (accepted : range.rangeWithinHotspot low up = true) : ScansAgree state range low up where
  visible rest seqNo key value atLeast atMost unbounded := by
    have inRange := HotRange.contains_of_within accepted atLeast atMost unbounded
    apply visible_congr
    intro entry sameKey
    exact sound.scanned_iff recorded flagged (sameKey ▸ inRange)
  shows rest seqNo skipping whole seen all isSkipping isWhole shows showsAll key value atMost
      unbounded := by
    rw [shows.spec.2, showsAll.spec.2]
    apply visible_congr
    intro entry sameKey
    subst sameKey
    exact sound.left_iff recorded flagged isSkipping isWhole fun atLeast =>
      HotRange.contains_of_within accepted atLeast atMost unbounded
  ends rest seqNo skipping whole isSkipping isWhole filled := by
    have onlyRest : ∀ inHotspot pages,
        Component.pages pages ∈ state.tree.scanned inHotspot rest → [] ∉ pages.tail :=
      fun inHotspot pages member => filled pages (Tree.pages_mem_rest member)
    exact ⟨Streams.exists_shows (isSkipping ▸ onlyRest true),
      Streams.exists_shows (isWhole ▸ onlyRest false)⟩

end Agree

/-- In every run whose steps leave no hot entries to a memtable that is marked as
cold, the flags are sound, and scans that skip a memtable inside the hot range
show what they would show with it. -/
theorem coldFlags_of_reaches
    (reaches : Lib.Reaches step Covered initial state) : ColdFlagsSound state := by
  have both : Recorded state ∧ Flagged state := by
    refine reaches.invariant (fun state => Recorded state ∧ Flagged state)
      ⟨Recorded.initial, Flagged.initial⟩ ?_
    rintro before act after ⟨recorded, flagged⟩ covered stepped
    obtain ⟨tree, treeStepped, rfl⟩ := Option.map_eq_some_iff.mp stepped
    have performed := Tree.perform_of_step treeStepped
    exact ⟨recorded.perform performed, flagged.perform recorded covered performed⟩
  obtain ⟨recorded, flagged⟩ := both
  exact ⟨flagged.toFlagsSound, fun range batchesFlagged low up accepted =>
    flagged.toFlagsSound.scansAgree recorded batchesFlagged accepted⟩

/-- A hot writer leads a group, its memtable is switched after it has returned,
and a cold writer fills the next one. -/
theorem hot_leader_keeps_flags :
    ∃ state, Lib.run step (fun state act => decide (state.Covered act)) initial
        [Act.insertBatch (some ⟨[⟨.kTypeValue, [1], [2]⟩], true⟩),
          Act.makeRoom [⟨false, false, false, false⟩], Act.group, Act.fetchMem,
          Act.putEntry, Act.finishGroup, Act.adaptMem,
          Act.insertBatch (some ⟨[⟨.kTypeValue, [5], [2]⟩], false⟩),
          Act.makeRoom [⟨false, false, false, false⟩], Act.group, Act.fetchMem,
          Act.putEntry, Act.finishGroup] = some state ∧
      (state.tree.memColdOnly = true ∧ state.tree.immColdOnly = false) ∧
      ColdFlagsSound state := by
  have ran : (Lib.run step (fun state act => decide (state.Covered act)) initial
      [Act.insertBatch (some ⟨[⟨.kTypeValue, [1], [2]⟩], true⟩),
        Act.makeRoom [⟨false, false, false, false⟩], Act.group, Act.fetchMem,
        Act.putEntry, Act.finishGroup, Act.adaptMem,
        Act.insertBatch (some ⟨[⟨.kTypeValue, [5], [2]⟩], false⟩),
        Act.makeRoom [⟨false, false, false, false⟩], Act.group, Act.fetchMem,
        Act.putEntry, Act.finishGroup]).map
        (fun state => (state.tree.memColdOnly, state.tree.immColdOnly)) =
      some (true, false) := by
    decide +kernel
  obtain ⟨state, isState, ends⟩ := Option.map_eq_some_iff.mp ran
  refine ⟨state, isState, Prod.mk.inj ends,
    coldFlags_of_reaches (Lib.reaches_of_run ?_ isState)⟩
  intro before act passed
  exact of_decide_eq_true passed

/-- A cold and a hot writer queue up while a first one puts its entry.  The hot writer joins
the group of the cold one, and its entry is in a memtable that is marked as cold. -/
theorem cold_leader_hides_hot_entry :
    ¬ ∀ state, Lib.Reaches step (fun _ _ => True) initial state →
      ColdFlagsSound state := by
  intro claim
  have ran : (Lib.run step (fun _ _ => true) initial
      [Act.insertBatch (some ⟨[⟨.kTypeValue, [2], [2]⟩], false⟩),
        Act.makeRoom [⟨false, false, false, false⟩], Act.group, Act.fetchMem,
        Act.insertBatch (some ⟨[⟨.kTypeValue, [1], [2]⟩], false⟩),
        Act.insertBatch (some ⟨[⟨.kTypeValue, [5], [2]⟩], true⟩),
        Act.putEntry, Act.finishGroup,
        Act.makeRoom [⟨false, false, false, false⟩], Act.group, Act.fetchMem,
        Act.putEntry, Act.putEntry, Act.finishGroup]).map
        (fun state => (state.held state.tree.mem, hot state.batches 2,
          state.tree.memColdOnly)) =
      some ([(0, ⟨⟨[2], 2, .kTypeValue⟩, [2]⟩), (1, ⟨⟨[1], 3, .kTypeValue⟩, [2]⟩),
        (2, ⟨⟨[5], 4, .kTypeValue⟩, [2]⟩)], true, true) := by
    decide +kernel
  obtain ⟨state, isState, ends⟩ := Option.map_eq_some_iff.mp ran
  simp only [Prod.mk.injEq] at ends
  obtain ⟨held, isHot, flag⟩ := ends
  have down := (claim state (Lib.reaches_of_run (fun _ _ _ => trivial) isState)).1.mem
    (2, ⟨⟨[5], 4, .kTypeValue⟩, [2]⟩) (by rw [held]; simp) isHot
  rw [flag] at down
  cases down

end Attributed

end AhaTree
