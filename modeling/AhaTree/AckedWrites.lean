import AhaTree.MemtableFlush

/-!
# Acknowledged writes

A writer puts its entries with the mutex released.  Meanwhile the memtable may
become `imm_`, be built into a table and retired.  What the builder has not seen
is then gone, although the writer returns OK.
-/

namespace AhaTree

/-- The memtable to which an `InsertInto` still has entries to put. -/
def Leader.filling? : Leader → Option Nat
  | .inserting table _ _ (_ :: _) => some table
  | _ => none

namespace Tree

/-- The entry is in `mem_`, in `imm_` or in a file of the root LSMT. -/
def Present (tree : Tree) (entry : Entry) : Prop :=
  entry ∈ tree.tables tree.mem ∨
    (∃ table ∈ tree.imm, entry ∈ tree.tables table) ∨
    ∃ file ∈ tree.added, entry ∈ file.2

/-- An `InsertInto` on the memtable still has entries to put. -/
def InFlight (tree : Tree) (table : Nat) : Prop :=
  tree.leader.filling? = some table

instance (tree : Tree) (table : Nat) : Decidable (tree.InFlight table) :=
  inferInstanceAs (Decidable (_ = _))

/-- The memtable on which the step opens the iterator for `BuildTable`. -/
def opens (tree : Tree) : Act → Option Nat
  | .backgroundCall => tree.imm
  | .adaptMem => if tree.hasImm || tree.scheduled then none else some tree.mem
  | .adaptImm => if tree.scheduled then none else tree.imm
  | _ => none

/-- No iterator is opened on a memtable that an `InsertInto` is still filling. -/
def OpensAtRest (tree : Tree) (act : Act) : Prop :=
  ∀ table ∈ tree.opens act, ¬ tree.InFlight table

instance (tree : Tree) (act : Act) : Decidable (OpensAtRest tree act) :=
  inferInstanceAs (Decidable (∀ table ∈ tree.opens act, _))

/-- The worker's iterator misses nothing of its memtable. -/
def SeesAll (tree : Tree) : Worker → Prop
  | .building table base =>
      base = (tree.tables table).length ∧ ¬ tree.InFlight table
  | .built table contents =>
      contents = tree.tables table ∧ ¬ tree.InFlight table
  | _ => True

/-- What keeps acknowledged entries present. -/
structure Kept (tree : Tree) : Prop where
  acked : ∀ entry ∈ tree.acked, tree.Present entry
  put : ∀ table group put left, tree.leader = .inserting table group put left →
    ∀ entry ∈ put, tree.Present entry.2
  target : ∀ table, tree.InFlight table →
    table = tree.mem ∨ tree.imm = some table
  compactionSees : tree.SeesAll tree.compaction
  pushDownSees : tree.SeesAll tree.pushDown

/-- The writer at the front is not in `InsertInto`. -/
def NotInserting (leader : Leader) : Prop :=
  ∀ table group put left, leader ≠ .inserting table group put left

variable {tree after : Tree}

theorem not_inFlight_of_notInserting (outside : NotInserting tree.leader)
    (table : Nat) : ¬ tree.InFlight table := by
  intro flight
  cases leader : tree.leader with
  | inserting target group put left => exact outside _ _ _ _ leader
  | _ =>
      rw [InFlight, leader] at flight
      cases flight

theorem Present.of_same {entry : Entry} (present : tree.Present entry)
    (same : SameFlushes tree after) : after.Present entry := by
  rw [Present, same.tables, same.mem, same.imm, same.added]
  exact present

/-- What a worker sees does not depend on writers that stay away from its
memtable. -/
theorem SeesAll.mono {worker : Worker} (sees : tree.SeesAll worker)
    (tables : ∀ table ∈ worker.table?, after.tables table = tree.tables table)
    (flights : ∀ table ∈ worker.table?, after.InFlight table → tree.InFlight table) :
    after.SeesAll worker := by
  cases worker with
  | idle | compacting => trivial
  | building table base =>
      refine ⟨?_, fun flight => sees.2 (flights table rfl flight)⟩
      rw [tables table rfl]
      exact sees.1
  | built table contents =>
      refine ⟨?_, fun flight => sees.2 (flights table rfl flight)⟩
      rw [tables table rfl]
      exact sees.1

namespace Kept

theorem initial : Kept initial := by
  constructor <;> simp [Tree.initial, InFlight, Leader.filling?, SeesAll]

/-- Steps that only move writers about, when the front writer is outside of
`InsertInto` afterwards or did not move. -/
theorem of_same (inv : Kept tree) (same : SameFlushes tree after)
    (acked : ∀ entry ∈ after.acked, tree.Present entry)
    (leader : after.leader = tree.leader ∨ NotInserting after.leader) :
    Kept after := by
  have flights : ∀ table, after.InFlight table → tree.InFlight table := by
    intro table flight
    rcases leader with sameLeader | outside
    · rwa [InFlight, sameLeader] at flight
    · exact absurd flight (not_inFlight_of_notInserting outside table)
  constructor
  · exact fun entry member => (acked entry member).of_same same
  · intro table group put left inserting entry member
    rcases leader with sameLeader | outside
    · rw [sameLeader] at inserting
      exact (inv.put table group put left inserting entry member).of_same same
    · exact absurd inserting (outside _ _ _ _)
  · intro table flight
    rw [same.mem, same.imm]
    exact inv.target table (flights table flight)
  · rw [same.compaction]
    exact inv.compactionSees.mono (fun _ _ => by rw [same.tables])
      (fun table _ => flights table)
  · rw [same.pushDown]
    exact inv.pushDownSees.mono (fun _ _ => by rw [same.tables])
      (fun table _ => flights table)

theorem writes {act : Act} (inv : Kept tree) (exclusive : Exclusive tree)
    (writesOnly : act.writesOnly = true)
    (performed : tree.perform act = some after) : Kept after := by
  have same := sameFlushes_of_perform writesOnly performed
  cases act with
  | insertBatch batch =>
      simp only [perform, insertBatch] at performed
      split at performed
      · cases performed
        refine inv.of_same same inv.acked ?_
        by_cases first : tree.writers.isEmpty = true
        · exact .inr (by simp [NotInserting, first])
        · exact .inl (by simp [first])
      · cases performed
  | group =>
      simp only [perform, group] at performed
      split at performed
      · cases performed
        exact inv.of_same same inv.acked (.inr (by simp [NotInserting]))
      · cases performed
  | fetchMem =>
      simp only [perform, fetchMem] at performed
      split at performed
      · rename_i group entries leader
        cases performed
        -- the memtable that is read is not the one being flushed
        have flights : ∀ table, InFlight { tree with
            leader := .inserting tree.mem group [] entries } table →
            table = tree.mem := by
          intro table flight
          cases entries with
          | nil => cases flight
          | cons => exact (Option.some.inj flight).symm
        have away : ∀ table, tree.imm = some table → ¬ InFlight { tree with
            leader := .inserting tree.mem group [] entries } table :=
          fun table held flight => (exclusive.immApart table held).2 (flights table flight)
        constructor
        · exact inv.acked
        · rintro table _ _ _ ⟨⟩
          simp
        · exact fun table flight => .inl (flights table flight)
        · exact inv.compactionSees.mono (fun _ _ => rfl) (fun table isTable flight =>
            absurd flight (away table (exclusive.compactionOwns table isTable)))
        · exact inv.pushDownSees.mono (fun _ _ => rfl) (fun table isTable flight =>
            absurd flight (away table (exclusive.pushDownOwns table isTable)))
      · cases performed
  | finishGroup =>
      simp only [perform, finishGroup] at performed
      split at performed
      · rename_i table group put leader
        cases performed
        refine inv.of_same same ?_ (.inr (by simp [NotInserting]))
        intro entry member
        rcases List.mem_append.mp member with earlier | new
        · exact inv.acked entry earlier
        · obtain ⟨owned, isPut, rfl⟩ := List.mem_map.mp new
          exact inv.put table group put [] leader owned isPut
      · cases performed
  | callSingle key value =>
      cases performed
      exact inv.of_same same inv.acked (.inl rfl)
  | takeSingle id =>
      obtain ⟨call, -, rfl⟩ := Option.map_eq_some_iff.mp performed
      exact inv.of_same same inv.acked (.inl rfl)
  | returnSingle id =>
      simp only [perform, returnSingle] at performed
      split at performed
      · cases performed
        exact inv.of_same same inv.acked (.inl rfl)
      · cases performed
  | beginScan =>
      simp only [perform] at performed
      split at performed
      · cases performed
        exact inv.of_same same inv.acked (.inl rfl)
      · cases performed
  | endScan =>
      simp only [perform] at performed
      split at performed
      · cases performed
        exact inv.of_same same inv.acked (.inl rfl)
      · cases performed
  | _ => cases writesOnly

theorem putEntry (inv : Kept tree) (put : tree.putEntry = some after) :
    Kept after := by
  obtain ⟨table, group, done, entry, left, leader, rfl⟩ := putEntry_cases put
  have flight : tree.InFlight table := by simp [InFlight, leader, Leader.filling?]
  have grown : ∀ other item, item ∈ tree.tables other →
      item ∈ Function.update tree.tables table
        (tree.tables table ++ [entry.2]) other := by
    intro other item member
    by_cases same : other = table
    · subst same
      simp [member]
    · simpa [same] using member
  have present : ∀ item, tree.Present item → Present { tree with
      leader := .inserting table group (done ++ [entry]) left
      tables := Function.update tree.tables table
        (tree.tables table ++ [entry.2]) } item := by
    rintro item (inMem | ⟨held, isHeld, inImm⟩ | inFile)
    · exact .inl (grown _ item inMem)
    · exact .inr (.inl ⟨held, isHeld, grown held item inImm⟩)
    · exact .inr (.inr inFile)
  have flights : ∀ other, InFlight { tree with
      leader := .inserting table group (done ++ [entry]) left
      tables := Function.update tree.tables table
        (tree.tables table ++ [entry.2]) } other → other = table := by
    intro other later
    cases left with
    | nil => cases later
    | cons => exact (Option.some.inj later).symm
  -- a worker's memtable is not the one that is being filled
  have sees : ∀ worker, tree.SeesAll worker → SeesAll { tree with
      leader := .inserting table group (done ++ [entry]) left
      tables := Function.update tree.tables table
        (tree.tables table ++ [entry.2]) } worker := by
    intro worker seen
    refine seen.mono ?_ (fun other _ later => flights other later ▸ flight)
    intro other isOther
    have apart : other ≠ table := by
      rintro rfl
      cases worker with
      | building => cases isOther; exact seen.2 flight
      | built => cases isOther; exact seen.2 flight
      | idle | compacting => cases isOther
    simp [apart]
  constructor
  · exact fun item member => present item (inv.acked item member)
  · rintro _ _ _ _ ⟨⟩ item member
    rcases List.mem_append.mp member with earlier | new
    · exact present item.2 (inv.put table group done _ leader item earlier)
    · rw [List.mem_singleton.mp new]
      rcases inv.target table flight with rfl | held
      · exact .inl (by simp)
      · exact .inr (.inl ⟨table, held, by simp⟩)
  · exact fun other later => flights other later ▸ inv.target table flight
  · exact sees _ inv.compactionSees
  · exact sees _ inv.pushDownSees

theorem maybeScheduleCompaction (inv : Kept tree) (needs : Bool) :
    Kept (tree.maybeScheduleCompaction needs) := by
  obtain ⟨scheduled, jobs, same⟩ := maybeScheduleCompaction_eq needs tree
  rw [same]
  exact { inv with }

/-- After a switch all entries of the old `mem_` are in `imm_`. -/
theorem switchMem (inv : Kept tree) (exclusive : Exclusive tree)
    (free : tree.imm = none) : Kept tree.switchMem := by
  have present : ∀ entry, tree.Present entry → tree.switchMem.Present entry := by
    rintro entry (inMem | ⟨table, held, -⟩ | inFile)
    · exact .inr (.inl ⟨tree.mem, rfl, inMem⟩)
    · rw [free] at held
      cases held
    · exact .inr (.inr inFile)
  obtain ⟨noCompaction, noPushDown⟩ := exclusive.idle_of_free free
  constructor
  · exact fun entry member => present entry (inv.acked entry member)
  · intro table group put left inserting entry member
    exact present entry.2 (inv.put table group put left inserting entry member)
  · intro table flight
    rcases inv.target table flight with rfl | held
    · exact .inr rfl
    · rw [free] at held
      cases held
  · exact inv.compactionSees.mono (fun _ _ => rfl) (fun _ _ => id)
  · exact inv.pushDownSees.mono (fun _ _ => rfl) (fun _ _ => id)

theorem makeRoom (inv : Kept tree) (exclusive : Exclusive tree)
    {views : List RoomView} (made : tree.makeRoom views = some after) :
    Kept after := by
  obtain ⟨writer, rest, flags, middle, -, -, moved, ended⟩ := makeRoom_cases made
  have middleInv : Kept middle := by
    rcases moved with rfl | ⟨free, needs, rfl⟩
    · exact inv
    · exact (inv.switchMem exclusive free).maybeScheduleCompaction needs
  have same : SameFlushes middle after := by
    rcases ended with ⟨force, allowDelay, rfl⟩ | rfl
    · constructor <;> rfl
    · rw [leaveRoom]
      split <;> constructor <;> rfl
  rcases ended with ⟨force, allowDelay, rfl⟩ | rfl
  · exact middleInv.of_same same middleInv.acked (.inr (by simp [NotInserting]))
  · refine middleInv.of_same same ?_ (.inr ?_)
    · rw [leaveRoom]
      split <;> exact middleInv.acked
    · rw [leaveRoom]
      split <;> simp [NotInserting]

theorem backgroundCall (inv : Kept tree)
    (rest : OpensAtRest tree .backgroundCall)
    (called : tree.backgroundCall = some after) : Kept after := by
  obtain ⟨-, -, worker, rfl, opened⟩ := backgroundCall_cases called
  refine { inv with compactionSees := ?_ }
  rcases opened with ⟨table, held, rfl⟩ | ⟨-, rfl⟩
  · exact ⟨rfl, rest table held⟩
  · trivial

/-- A table that is built from a memtable at rest has all its entries. -/
theorem buildTable_sees {seen : Nat} {worker later : Worker}
    (sees : tree.SeesAll worker) (built : tree.buildTable seen worker = some later) :
    tree.SeesAll later := by
  obtain ⟨table, base, rfl, atLeast, -, rfl⟩ := buildTable_cases built
  obtain ⟨whole, atRest⟩ := sees
  refine ⟨List.take_of_length_le ?_, atRest⟩
  omega

theorem adaptMem (inv : Kept tree) (exclusive : Exclusive tree)
    (rest : OpensAtRest tree .adaptMem)
    (adapted : tree.adaptMem = some after) : Kept after := by
  rcases adaptMem_cases adapted with rfl | ⟨noImm, idle, switched⟩
  · exact inv
  · have moved := inv.switchMem exclusive (exclusive.free_of_hasImm noImm)
    rcases switched with ⟨-, rfl⟩ | ⟨notScheduled, rfl⟩
    · exact moved
    · refine { moved with pushDownSees := ⟨rfl, ?_⟩ }
      exact rest tree.mem (by simp [opens, noImm, notScheduled])

theorem adaptImm (inv : Kept tree) (rest : OpensAtRest tree .adaptImm)
    (adapted : tree.adaptImm = some after) : Kept after := by
  rcases adaptImm_cases adapted with rfl | ⟨table, held, notScheduled, -, rfl⟩
  · exact inv
  · refine { inv with pushDownSees := ⟨rfl, ?_⟩ }
    exact rest table (by simp [opens, held, notScheduled])

/-- Retiring a memtable that nobody fills loses nothing when its whole contents
are added. -/
theorem commitImm (inv : Kept tree) {table : Nat} {contents : List Entry}
    (held : tree.imm = some table) (whole : contents = tree.tables table)
    (atRest : ¬ tree.InFlight table) : Kept (tree.commitImm table contents) := by
  obtain ⟨hotspot, same⟩ := @commitImm_of_imm tree table table contents held
  rw [same]
  have present : ∀ entry, tree.Present entry → Present { tree with
      imm := none, hasImm := false, immColdOnly := true
      added := tree.added ++ if contents = [] then [] else [(table, contents)]
      lsmtHotspot := hotspot } entry := by
    rintro entry (inMem | ⟨other, isOther, inImm⟩ | ⟨file, isFile, inFile⟩)
    · exact .inl inMem
    · obtain rfl : table = other := Option.some.inj (held.symm.trans isOther)
      have nonempty : contents ≠ [] := by
        rw [whole]
        exact List.ne_nil_of_mem inImm
      exact .inr (.inr ⟨(table, contents), by simp [nonempty], by simpa [whole]⟩)
    · exact .inr (.inr ⟨file, List.mem_append_left _ isFile, inFile⟩)
  constructor
  · exact fun entry member => present entry (inv.acked entry member)
  · intro target group put left inserting entry member
    exact present entry.2 (inv.put target group put left inserting entry member)
  · intro other flight
    rcases inv.target other flight with isMem | isHeld
    · exact .inl isMem
    · obtain rfl : table = other := Option.some.inj (held.symm.trans isHeld)
      exact absurd flight atRest
  · exact inv.compactionSees.mono (fun _ _ => rfl) (fun _ _ => id)
  · exact inv.pushDownSees.mono (fun _ _ => rfl) (fun _ _ => id)

theorem commitCompaction (inv : Kept tree) (exclusive : Exclusive tree)
    {needs : Bool} (committed : tree.commitCompaction needs = some after) :
    Kept after := by
  obtain ⟨table, contents, isBuilt, rfl⟩ := commitCompaction_cases committed
  have held := exclusive.compactionOwns table (by simp [isBuilt, Worker.table?])
  have sees := inv.compactionSees
  rw [isBuilt] at sees
  have ended : Kept { tree.commitImm table contents with
      compaction := .idle, scheduled := false } :=
    { inv.commitImm held sees.1 sees.2 with compactionSees := trivial }
  exact ended.maybeScheduleCompaction needs

theorem commitPushDown (inv : Kept tree) (exclusive : Exclusive tree)
    (committed : tree.commitPushDown = some after) : Kept after := by
  obtain ⟨table, contents, isBuilt, rfl⟩ := commitPushDown_cases committed
  have held := exclusive.pushDownOwns table (by simp [isBuilt, Worker.table?])
  have sees := inv.pushDownSees
  rw [isBuilt] at sees
  exact { inv.commitImm held sees.1 sees.2 with pushDownSees := trivial }

theorem perform {act : Act} (inv : Kept tree) (exclusive : Exclusive tree)
    (rest : OpensAtRest tree act) (performed : tree.perform act = some after) :
    Kept after := by
  by_cases writes : act.writesOnly = true
  · exact inv.writes exclusive writes performed
  · cases act with
    | makeRoom views => exact inv.makeRoom exclusive performed
    | putEntry => exact inv.putEntry performed
    | backgroundCall => exact inv.backgroundCall rest performed
    | buildCompaction seen =>
        obtain ⟨worker, built, rfl⟩ := Option.map_eq_some_iff.mp performed
        exact { inv with compactionSees := buildTable_sees inv.compactionSees built }
    | commitCompaction needs => exact inv.commitCompaction exclusive performed
    | endCompact needs =>
        obtain ⟨-, rfl⟩ := endCompact_cases performed
        have ended : Kept { tree with compaction := .idle, scheduled := false } :=
          { inv with compactionSees := trivial }
        exact ended.maybeScheduleCompaction needs
    | adaptMem => exact inv.adaptMem exclusive rest performed
    | adaptImm => exact inv.adaptImm rest performed
    | buildPushDown seen =>
        obtain ⟨worker, built, rfl⟩ := Option.map_eq_some_iff.mp performed
        exact { inv with pushDownSees := buildTable_sees inv.pushDownSees built }
    | commitPushDown => exact inv.commitPushDown exclusive performed
    | installed needs =>
        simp only [Tree.perform] at performed
        split at performed
        · cases performed
          exact inv.maybeScheduleCompaction needs
        · cases performed
    | readSample =>
        simp only [Tree.perform] at performed
        split at performed
        · cases performed
          exact inv.maybeScheduleCompaction true
        · cases performed
    | _ => simp [Act.writesOnly] at writes

end Kept

/-- In every run in which iterators are opened only on memtables at rest and no
`BackgroundCall` starts in the middle of a flush by the push-down thread, every
entry of every insert that has returned is present. -/
theorem acked_present_of_reaches {tree : Tree}
    (reaches : Lib.Reaches step (fun tree act =>
      FlushesApart tree act ∧ OpensAtRest tree act) initial tree) :
    ∀ entry ∈ tree.acked, tree.Present entry := by
  have both : Exclusive tree ∧ Kept tree := by
    refine reaches.invariant (fun tree => Exclusive tree ∧ Kept tree)
      ⟨Exclusive.initial, Kept.initial⟩ ?_
    rintro before act after ⟨exclusive, kept⟩ ⟨apart, rest⟩ stepped
    have performed := perform_of_step stepped
    exact ⟨exclusive.perform apart performed, kept.perform exclusive rest performed⟩
  exact both.2.acked

/-- The push-down thread flushes the memtable after the insert has returned. -/
theorem adaptMem_keeps_acked :
    ∃ tree, Lib.run step (fun tree act =>
        decide (FlushesApart tree act ∧ OpensAtRest tree act)) initial
        (insertOne ++ [Act.adaptMem, .buildPushDown 1, .commitPushDown]) = some tree ∧
      ∀ entry ∈ tree.acked, tree.Present entry := by
  have ran : (Lib.run step (fun tree act =>
      decide (FlushesApart tree act ∧ OpensAtRest tree act)) initial
      (insertOne ++ [Act.adaptMem, .buildPushDown 1, .commitPushDown])).isSome = true := by
    decide
  obtain ⟨tree, isTree⟩ := Option.isSome_iff_exists.mp ran
  refine ⟨tree, isTree, acked_present_of_reaches (Lib.reaches_of_run ?_ isTree)⟩
  intro before act passed
  exact of_decide_eq_true passed

/-- The push-down thread switches, builds and retires the memtable between the
moment a writer reads `mem_` and the moment it puts its entry. -/
theorem adaptMem_loses_acked :
    ¬ ∀ tree, Lib.Reaches step (fun _ _ => True) initial tree →
      ∀ entry ∈ tree.acked, tree.Present entry := by
  intro claim
  have ran : (Lib.run step (fun _ _ => true) initial
      [.insertBatch (some ⟨[⟨.kTypeValue, [1], [2]⟩], false⟩),
        .makeRoom [⟨false, false, false, false⟩], .group, .fetchMem,
        .adaptMem, .buildPushDown 0, .putEntry, .commitPushDown, .finishGroup]).map
        (fun tree => tree.acked == [⟨⟨[1], 2, .kTypeValue⟩, [2]⟩] &&
          (tree.tables tree.mem).isEmpty && tree.imm.isNone && tree.added.isEmpty) =
      some true := by
    decide
  obtain ⟨tree, isTree, ends⟩ := Option.map_eq_some_iff.mp ran
  simp only [Bool.and_eq_true, beq_iff_eq, List.isEmpty_iff,
    Option.isNone_iff_eq_none] at ends
  obtain ⟨⟨⟨acked, inMem⟩, noImm⟩, noFile⟩ := ends
  have present := claim tree (Lib.reaches_of_run (fun _ _ _ => trivial) isTree)
    ⟨⟨[1], 2, .kTypeValue⟩, [2]⟩ (by simp [acked])
  simp [Present, inMem, noImm, noFile] at present

end Tree

end AhaTree
