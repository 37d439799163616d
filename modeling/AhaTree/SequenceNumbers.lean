import AhaTree.WritePath
import Mathlib.Data.List.Nodup

/-!
# Sequence numbers

Two write paths share `seq_no_`.  A batch takes it for the last number in use and
numbers its entries behind it; a single insert takes it for the next free number.
A number that one path has given can so be given again by the other.
-/

namespace AhaTree

/-- The number is one of the `count` numbers behind `last`. -/
def InRange (last count number : Nat) : Prop :=
  last < number ∧ number ≤ last + count

instance (last count number : Nat) : Decidable (InRange last count number) :=
  inferInstanceAs (Decidable (_ ∧ _))

/-- The value of `seq_no_` that the front writer has loaded and not yet used. -/
def Leader.loaded? : Leader → Option Nat
  | .loaded last => some last
  | _ => none

def Act.takesSingle : Act → Bool
  | .takeSingle _ => true
  | _ => false

/-- Steps of inserts, which may give numbers or return. -/
def Act.insertStep : Act → Bool
  | .insertBatch _ | .makeRoom _ | .group | .finishGroup => true
  | .callSingle _ _ | .takeSingle _ | .returnSingle _ => true
  | _ => false

namespace Tree

/-- How many entries the next group has. -/
def nextCount (tree : Tree) : Nat :=
  (tree.nextGroup.flatMap Writer.ops).length

/-- A single insert takes its number only while `seq_no_` holds none of the
numbers of the latest group with entries, nor of a group whose writer is between
the load and the addition. -/
def TakesFreeNumber (tree : Tree) (act : Act) : Prop :=
  act.takesSingle = true →
    ¬ InRange tree.lastGroup.1 tree.lastGroup.2 tree.seqNo ∧
      ∀ last ∈ tree.leader.loaded?, ¬ InRange last tree.nextCount tree.seqNo

instance (tree : Tree) (act : Act) : Decidable (TakesFreeNumber tree act) :=
  inferInstanceAs (Decidable (_ → _))

/-- Sequence numbers order the writes: no number is given twice, and an insert
that starts after another has returned gets greater numbers, so that its version
of a key comes first. -/
structure WritesOrdered (tree : Tree) : Prop where
  distinct : (tree.given.map (fun owned => owned.2.sequence)).Nodup
  increasing : ∀ later before, (later, before) ∈ tree.started →
    ∀ earlier ∈ before, ∀ old new, (earlier, old) ∈ tree.given →
      (later, new) ∈ tree.given → old.sequence < new.sequence
  latestFirst : ∀ later before, (later, before) ∈ tree.started →
    ∀ earlier ∈ before, ∀ old new, (earlier, old) ∈ tree.given →
      (later, new) ∈ tree.given → new.userKey = old.userKey →
        new.key.compare old.key = .lt

/-- The inserts that are on their way. -/
structure Pending (tree : Tree) : Prop where
  distinct : (tree.writers.map Writer.id).Nodup
  writersFresh : ∀ id ∈ tree.writers.map Writer.id,
    id < tree.nextInsert ∧ id ∉ tree.returned
  callsFresh : ∀ id ∈ tree.calls.map Prod.fst,
    id < tree.nextInsert ∧ id ∉ tree.returned ∧ id ∉ tree.writers.map Writer.id
  inTreeFresh : ∀ id ∈ tree.inTree, id < tree.nextInsert ∧
    id ∉ tree.writers.map Writer.id ∧ id ∉ tree.calls.map Prod.fst
  returnedKnown : ∀ id ∈ tree.returned, id < tree.nextInsert
  startedBefore : ∀ later before, (later, before) ∈ tree.started →
    ∀ earlier ∈ before, earlier ∈ tree.returned

/-- What the numbers given so far look like from `seq_no_`. -/
structure Numbered (tree : Tree) : Prop where
  owners : ∀ owned ∈ tree.given, owned.1 < tree.nextInsert
  bounded : ∀ owned ∈ tree.given, owned.2.sequence ≤ tree.seqNo
  atTop : ∀ owned ∈ tree.given, owned.2.sequence = tree.seqNo →
    InRange tree.lastGroup.1 tree.lastGroup.2 tree.seqNo
  loaded : ∀ last, tree.leader.loaded? = some last → last ≤ tree.seqNo ∧
    (0 < tree.nextCount →
      (∀ owned ∈ tree.given, owned.2.sequence ≤ last) ∧ tree.seqNo ≤ last + 1)
  distinct : (tree.given.map (fun owned => owned.2.sequence)).Nodup
  increasing : ∀ later before, (later, before) ∈ tree.started →
    ∀ earlier ∈ before, ∀ old new, (earlier, old) ∈ tree.given →
      (later, new) ∈ tree.given → old.sequence < new.sequence

end Tree

/-! ## The numbers of a group -/

/-- A group gets consecutive numbers. -/
theorem numbered_sequences (first : Nat) (ops : List (Nat × Op)) :
    (numbered first ops).map (fun owned => owned.2.sequence) =
      List.range' first ops.length := by
  induction ops generalizing first with
  | nil => rfl
  | cons op ops ih =>
      obtain ⟨owner, op⟩ := op
      rw [numbered, List.map_cons, ih, List.length_cons, List.range'_succ]
      rfl

theorem numbered_owners (first : Nat) (ops : List (Nat × Op)) :
    (numbered first ops).map Prod.fst = ops.map Prod.fst := by
  induction ops generalizing first with
  | nil => rfl
  | cons op ops ih =>
      obtain ⟨owner, op⟩ := op
      rw [numbered, List.map_cons, ih, List.map_cons]

theorem numbered_length (first : Nat) (ops : List (Nat × Op)) :
    (numbered first ops).length = ops.length := by
  rw [← List.length_map (f := Prod.fst), numbered_owners, List.length_map]

theorem inRange_of_mem_numbered {last : Nat} {ops : List (Nat × Op)}
    {owned : Nat × Entry} (member : owned ∈ numbered (last + 1) ops) :
    InRange last ops.length owned.2.sequence := by
  have inside : owned.2.sequence ∈ List.range' (last + 1) ops.length := by
    rw [← numbered_sequences]
    exact List.mem_map_of_mem member
  obtain ⟨offset, less, same⟩ := List.mem_range'.mp inside
  rw [InRange]
  omega

theorem joinGroup_sublist (maxSize size : Nat) (writers : List Writer) :
    (joinGroup maxSize size writers).Sublist writers := by
  induction writers generalizing size with
  | nil => exact List.Sublist.refl _
  | cons writer writers ih =>
      rw [joinGroup]
      split
      · exact (ih size).cons_cons writer
      · split
        · exact List.nil_sublist _
        · exact (ih _).cons_cons writer

theorem Tree.nextGroup_sublist (tree : Tree) :
    tree.nextGroup.Sublist tree.writers := by
  rw [nextGroup]
  split
  · rename_i writer rest queue
    rw [queue]
    cases writer.batch with
    | none => exact List.nil_sublist _
    | some batch => exact (joinGroup_sublist _ _ rest).cons_cons writer
  · exact List.nil_sublist _

/-- The entries of a group belong to writers in the queue. -/
theorem Tree.owner_mem_writers {tree : Tree} {first : Nat} {owned : Nat × Entry}
    (member : owned ∈ numbered first (tree.nextGroup.flatMap Writer.ops)) :
    owned.1 ∈ tree.writers.map Writer.id := by
  have isOwner : owned.1 ∈ (tree.nextGroup.flatMap Writer.ops).map Prod.fst := by
    rw [← numbered_owners first]
    exact List.mem_map_of_mem member
  obtain ⟨⟨owner, op⟩, isOp, same⟩ := List.mem_map.mp isOwner
  obtain ⟨writer, isWriter, inOps⟩ := List.mem_flatMap.mp isOp
  obtain ⟨record, -, pair⟩ := List.mem_map.mp inOps
  rw [← same, ← (Prod.mk.inj pair).1]
  exact List.mem_map_of_mem (tree.nextGroup_sublist.subset isWriter)

namespace Tree

variable {tree after : Tree}

/-! ## Steps that give no numbers -/

/-- Both trees agree on inserts and their numbers, and no load has happened. -/
structure SameNumbers (tree after : Tree) : Prop where
  seqNo : after.seqNo = tree.seqNo
  writers : after.writers = tree.writers
  leader : ∀ last, after.leader.loaded? = some last → tree.leader.loaded? = some last
  nextInsert : after.nextInsert = tree.nextInsert
  calls : after.calls = tree.calls
  inTree : after.inTree = tree.inTree
  given : after.given = tree.given
  started : after.started = tree.started
  returned : after.returned = tree.returned
  lastGroup : after.lastGroup = tree.lastGroup

theorem SameNumbers.refl (tree : Tree) : SameNumbers tree tree := by
  constructor <;> simp

theorem SameNumbers.trans {middle : Tree} (first : SameNumbers tree middle)
    (second : SameNumbers middle after) : SameNumbers tree after where
  seqNo := second.seqNo.trans first.seqNo
  writers := second.writers.trans first.writers
  leader last isLast := first.leader last (second.leader last isLast)
  nextInsert := second.nextInsert.trans first.nextInsert
  calls := second.calls.trans first.calls
  inTree := second.inTree.trans first.inTree
  given := second.given.trans first.given
  started := second.started.trans first.started
  returned := second.returned.trans first.returned
  lastGroup := second.lastGroup.trans first.lastGroup

theorem sameNumbers_maybeSchedule (needs : Bool) (tree : Tree) :
    SameNumbers tree (tree.maybeScheduleCompaction needs) := by
  obtain ⟨scheduled, jobs, same⟩ := maybeScheduleCompaction_eq needs tree
  rw [same]
  constructor <;> simp

theorem sameNumbers_switchMem (tree : Tree) : SameNumbers tree tree.switchMem := by
  constructor <;> simp [switchMem]

theorem sameNumbers_commitImm (table : Nat) (contents : List Entry) (tree : Tree) :
    SameNumbers tree (tree.commitImm table contents) := by
  rw [commitImm]
  split
  · constructor <;> simp
  · simp only
    split <;> constructor <;> simp

theorem sameNumbers_endBackgroundCall (needs : Bool) (tree : Tree) :
    SameNumbers tree (tree.endBackgroundCall needs) := by
  refine SameNumbers.trans ?_ (sameNumbers_maybeSchedule needs _)
  constructor <;> simp

theorem sameNumbers_of_perform {act : Act} (quiet : act.insertStep = false)
    (performed : tree.perform act = some after) : SameNumbers tree after := by
  cases act with
  | fetchMem =>
      simp only [perform, fetchMem] at performed
      split at performed
      · cases performed
        constructor <;> simp [Leader.loaded?]
      · cases performed
  | putEntry =>
      obtain ⟨_, _, _, _, _, -, rfl⟩ := putEntry_cases performed
      constructor <;> simp [Leader.loaded?]
  | backgroundCall =>
      obtain ⟨-, -, worker, rfl, -⟩ := backgroundCall_cases performed
      constructor <;> simp
  | buildCompaction seen =>
      obtain ⟨worker, -, rfl⟩ := Option.map_eq_some_iff.mp performed
      constructor <;> simp
  | commitCompaction needs =>
      obtain ⟨table, contents, -, rfl⟩ := commitCompaction_cases performed
      exact (sameNumbers_commitImm table contents tree).trans
        (sameNumbers_endBackgroundCall needs _)
  | endCompact needs =>
      obtain ⟨-, rfl⟩ := endCompact_cases performed
      exact sameNumbers_endBackgroundCall needs tree
  | adaptMem =>
      rcases adaptMem_cases performed with rfl | ⟨-, -, ⟨-, rfl⟩ | ⟨-, rfl⟩⟩
      · exact .refl _
      · exact sameNumbers_switchMem tree
      · constructor <;> simp [switchMem]
  | adaptImm =>
      rcases adaptImm_cases performed with rfl | ⟨table, -, -, -, rfl⟩
      · exact .refl _
      · constructor <;> simp
  | buildPushDown seen =>
      obtain ⟨worker, -, rfl⟩ := Option.map_eq_some_iff.mp performed
      constructor <;> simp
  | commitPushDown =>
      obtain ⟨table, contents, -, rfl⟩ := commitPushDown_cases performed
      refine (sameNumbers_commitImm table contents tree).trans ?_
      constructor <;> simp
  | installed needs =>
      simp only [perform] at performed
      split at performed
      · cases performed
        exact sameNumbers_maybeSchedule needs tree
      · cases performed
  | beginScan =>
      simp only [perform] at performed
      split at performed
      · cases performed
        constructor <;> simp
      · cases performed
  | endScan =>
      simp only [perform] at performed
      split at performed
      · cases performed
        constructor <;> simp
      · cases performed
  | readSample =>
      simp only [perform] at performed
      split at performed
      · cases performed
        exact sameNumbers_maybeSchedule true tree
      · cases performed
  | _ => cases quiet

/-! ## The inserts on their way -/

/-- The mutex is free, so no load is pending, and a writer joins the queue. -/
theorem insertBatch_cases {batch : Option WriteBatch}
    (inserted : tree.insertBatch batch = some after) :
    ∃ leader, leader.loaded? = none ∧ after = { tree with
      writers := tree.writers ++ [⟨tree.nextInsert, batch⟩]
      leader := leader
      nextInsert := tree.nextInsert + 1
      started := (tree.nextInsert, tree.returned) :: tree.started } := by
  rw [insertBatch] at inserted
  split at inserted
  · rename_i free
    cases inserted
    refine ⟨_, ?_, rfl⟩
    rw [mutexFree] at free
    by_cases first : tree.writers.isEmpty = true
    · simp [first, Leader.loaded?]
    · rw [if_neg first]
      cases leader : tree.leader with
      | loaded last => simp [leader] at free
      | _ => rfl
  · cases inserted

/-- The front writer has loaded `seq_no_`, or nothing is loaded; a writer
without a batch leaves the queue. -/
theorem makeRoom_numbers {views : List RoomView}
    (made : tree.makeRoom views = some after) :
    ∃ middle, SameNumbers tree middle ∧
      ((∃ leader, (leader = .loaded middle.seqNo ∨ leader.loaded? = none) ∧
          after = { middle with leader := leader }) ∨
        ∃ writer rest, middle.writers = writer :: rest ∧ after = { middle with
          leader := .idle
          writers := rest
          returned := middle.returned ++ [writer.id] }) := by
  obtain ⟨writer, rest, flags, middle, queue, -, moved, ended⟩ := makeRoom_cases made
  have same : SameNumbers tree middle := by
    rcases moved with rfl | ⟨-, needs, rfl⟩
    · exact .refl _
    · exact (sameNumbers_switchMem tree).trans (sameNumbers_maybeSchedule needs _)
  refine ⟨middle, same, ?_⟩
  rcases ended with ⟨force, allowDelay, rfl⟩ | rfl
  · exact .inl ⟨_, .inr rfl, rfl⟩
  · rw [leaveRoom]
    split
    · exact .inl ⟨_, .inl rfl, rfl⟩
    · exact .inr ⟨writer, rest, same.writers.trans queue, rfl⟩

theorem group_cases (grouped : tree.group = some after) :
    ∃ last memColdOnly, tree.leader = .loaded last ∧ after = { tree with
      seqNo := tree.seqNo + tree.nextCount
      memEmpty := false
      memColdOnly := memColdOnly
      leader := .grouped tree.nextGroup.length
        (numbered (last + 1) (tree.nextGroup.flatMap Writer.ops))
      given := tree.given ++
        numbered (last + 1) (tree.nextGroup.flatMap Writer.ops)
      lastGroup := if tree.nextCount = 0 then tree.lastGroup
        else (last, tree.nextCount) } := by
  rw [group] at grouped
  split at grouped
  · rename_i last writer rest leader queue
    cases grouped
    refine ⟨last, tree.memColdOnly &&
      !(writer.batch.map WriteBatch.hasHotspot).getD false, leader, ?_⟩
    have counted : (numbered (last + 1)
        (tree.nextGroup.flatMap Writer.ops)).length = tree.nextCount :=
      numbered_length _ _
    have emptyIff : (numbered (last + 1)
        (tree.nextGroup.flatMap Writer.ops)).isEmpty = true ↔ tree.nextCount = 0 := by
      rw [List.isEmpty_iff, ← List.length_eq_zero_iff, counted]
    by_cases none : tree.nextCount = 0
    · simp only [counted, if_pos (emptyIff.mpr none), if_pos none]
    · have some := fun empty => none (emptyIff.mp empty)
      simp only [counted, if_neg some, if_neg none]
  · cases grouped

theorem finishGroup_cases (finished : tree.finishGroup = some after) :
    ∃ (group : Nat) (put : List (Nat × Entry)), after = { tree with
      leader := .idle
      writers := tree.writers.drop group
      returned := tree.returned ++ (tree.writers.take group).map Writer.id
      acked := tree.acked ++ put.map Prod.snd } := by
  rw [finishGroup] at finished
  split at finished
  · cases finished
    exact ⟨_, _, rfl⟩
  · cases finished

theorem takeSingle_cases {id : Nat} (taken : tree.takeSingle id = some after) :
    ∃ key value, id ∈ tree.calls.map Prod.fst ∧ after = { tree with
      seqNo := tree.seqNo + 1
      calls := tree.calls.filter (fun call => call.1 != id)
      inTree := id :: tree.inTree
      given := tree.given ++
        [(id, ⟨⟨key, tree.seqNo, .kTypeValue⟩, value⟩)] } := by
  obtain ⟨call, found, rfl⟩ := Option.map_eq_some_iff.mp taken
  refine ⟨call.2.1, call.2.2, ?_, rfl⟩
  have sameId : call.1 = id := by simpa using List.find?_some found
  rw [← sameId]
  exact List.mem_map_of_mem (List.mem_of_find?_eq_some found)

theorem returnSingle_cases {id : Nat} (ended : tree.returnSingle id = some after) :
    id ∈ tree.inTree ∧ after = { tree with
      inTree := tree.inTree.filter (fun open_ => open_ != id)
      returned := tree.returned ++ [id] } := by
  rw [returnSingle] at ended
  split at ended
  · rename_i inside
    cases ended
    exact ⟨inside, rfl⟩
  · cases ended

namespace Pending

theorem initial : Pending initial := by
  constructor <;> simp [Tree.initial]

theorem of_same (inv : Pending tree) (same : SameNumbers tree after) :
    Pending after := by
  constructor
  · rw [same.writers]
    exact inv.distinct
  · rw [same.writers, same.nextInsert, same.returned]
    exact inv.writersFresh
  · rw [same.calls, same.writers, same.nextInsert, same.returned]
    exact inv.callsFresh
  · rw [same.inTree, same.calls, same.writers, same.nextInsert]
    exact inv.inTreeFresh
  · rw [same.returned, same.nextInsert]
    exact inv.returnedKnown
  · rw [same.started, same.returned]
    exact inv.startedBefore

/-- A new insert has a number that nobody has used. -/
theorem fresh (inv : Pending tree) : tree.nextInsert ∉ tree.returned ∧
    tree.nextInsert ∉ tree.writers.map Writer.id ∧
    tree.nextInsert ∉ tree.calls.map Prod.fst ∧ tree.nextInsert ∉ tree.inTree :=
  ⟨fun member => Nat.lt_irrefl _ (inv.returnedKnown _ member),
    fun member => Nat.lt_irrefl _ (inv.writersFresh _ member).1,
    fun member => Nat.lt_irrefl _ (inv.callsFresh _ member).1,
    fun member => Nat.lt_irrefl _ (inv.inTreeFresh _ member).1⟩

theorem startedBefore_cons (inv : Pending tree) :
    ∀ later before, (later, before) ∈ (tree.nextInsert, tree.returned) :: tree.started →
      ∀ earlier ∈ before, earlier ∈ tree.returned := by
  intro later before member earlier isEarlier
  rcases List.mem_cons.mp member with new | known
  · rw [(Prod.mk.inj new).2] at isEarlier
    exact isEarlier
  · exact inv.startedBefore later before known earlier isEarlier

theorem insertBatch (inv : Pending tree) {batch : Option WriteBatch}
    (inserted : tree.insertBatch batch = some after) : Pending after := by
  obtain ⟨leader, -, rfl⟩ := insertBatch_cases inserted
  obtain ⟨notReturned, notWriter, notCall, notInTree⟩ := inv.fresh
  have joined : ∀ id,
      id ∈ (tree.writers ++ [(⟨tree.nextInsert, batch⟩ : Writer)]).map Writer.id ↔
        id ∈ tree.writers.map Writer.id ∨ id = tree.nextInsert := by
    intro id
    rw [List.map_append, List.mem_append, List.map_singleton, List.mem_singleton]
  constructor
  · rw [List.map_append, List.nodup_append]
    refine ⟨inv.distinct, by simp, ?_⟩
    rintro id member other isNew rfl
    have same : id = tree.nextInsert := by simpa using isNew
    exact notWriter (same ▸ member)
  · intro id member
    rcases (joined id).mp member with known | rfl
    · exact ⟨Nat.lt_succ_of_lt (inv.writersFresh id known).1,
        (inv.writersFresh id known).2⟩
    · exact ⟨Nat.lt_succ_self _, notReturned⟩
  · intro id member
    obtain ⟨less, open_, apart⟩ := inv.callsFresh id member
    refine ⟨Nat.lt_succ_of_lt less, open_, fun writer => ?_⟩
    rcases (joined id).mp writer with known | rfl
    · exact apart known
    · exact notCall member
  · intro id member
    obtain ⟨less, apart, noCall⟩ := inv.inTreeFresh id member
    refine ⟨Nat.lt_succ_of_lt less, fun writer => ?_, noCall⟩
    rcases (joined id).mp writer with known | rfl
    · exact apart known
    · exact notInTree member
  · exact fun id member => Nat.lt_succ_of_lt (inv.returnedKnown id member)
  · exact inv.startedBefore_cons

theorem callSingle (inv : Pending tree) (key value : Slice) :
    Pending (tree.callSingle key value) := by
  obtain ⟨notReturned, notWriter, notCall, notInTree⟩ := inv.fresh
  constructor
  · exact inv.distinct
  · exact fun id member => ⟨Nat.lt_succ_of_lt (inv.writersFresh id member).1,
      (inv.writersFresh id member).2⟩
  · intro id member
    rcases List.mem_cons.mp member with rfl | known
    · exact ⟨Nat.lt_succ_self _, notReturned, notWriter⟩
    · exact ⟨Nat.lt_succ_of_lt (inv.callsFresh id known).1,
        (inv.callsFresh id known).2⟩
  · intro id member
    obtain ⟨less, apart, noCall⟩ := inv.inTreeFresh id member
    refine ⟨Nat.lt_succ_of_lt less, apart, fun call => ?_⟩
    rcases List.mem_cons.mp call with rfl | known
    · exact notInTree member
    · exact noCall known
  · exact fun id member => Nat.lt_succ_of_lt (inv.returnedKnown id member)
  · exact inv.startedBefore_cons

/-- Some writers at the front of the queue return. -/
theorem leave (inv : Pending tree) (count : Nat) (leader : Leader)
    (acked : List Entry) : Pending { tree with
      leader := leader
      writers := tree.writers.drop count
      returned := tree.returned ++ (tree.writers.take count).map Writer.id
      acked := acked } := by
  have parted := inv.distinct
  rw [← List.take_append_drop count tree.writers, List.map_append,
    List.nodup_append] at parted
  have stays : ∀ id, id ∈ (tree.writers.drop count).map Writer.id →
      id ∈ tree.writers.map Writer.id := by
    intro id member
    exact (List.drop_sublist count tree.writers).map Writer.id |>.subset member
  have leaves : ∀ id, id ∈ (tree.writers.take count).map Writer.id →
      id ∈ tree.writers.map Writer.id := by
    intro id member
    exact (List.take_sublist count tree.writers).map Writer.id |>.subset member
  constructor
  · exact parted.2.1
  · intro id member
    refine ⟨(inv.writersFresh id (stays id member)).1, fun returned => ?_⟩
    rcases List.mem_append.mp returned with earlier | now
    · exact (inv.writersFresh id (stays id member)).2 earlier
    · exact parted.2.2 id now id member rfl
  · intro id member
    obtain ⟨less, open_, apart⟩ := inv.callsFresh id member
    refine ⟨less, fun returned => ?_, fun writer => apart (stays id writer)⟩
    rcases List.mem_append.mp returned with earlier | now
    · exact open_ earlier
    · exact apart (leaves id now)
  · intro id member
    obtain ⟨less, apart, noCall⟩ := inv.inTreeFresh id member
    exact ⟨less, fun writer => apart (stays id writer), noCall⟩
  · intro id member
    rcases List.mem_append.mp member with earlier | now
    · exact inv.returnedKnown id earlier
    · exact (inv.writersFresh id (leaves id now)).1
  · intro later before member earlier isEarlier
    exact List.mem_append_left _ (inv.startedBefore later before member earlier isEarlier)

theorem takeSingle (inv : Pending tree) {id : Nat}
    (taken : tree.takeSingle id = some after) : Pending after := by
  obtain ⟨key, value, isCall, rfl⟩ := takeSingle_cases taken
  have remains : ∀ other,
      other ∈ (tree.calls.filter (fun call => call.1 != id)).map Prod.fst →
        other ∈ tree.calls.map Prod.fst ∧ other ≠ id := by
    intro other member
    obtain ⟨call, isCall, rfl⟩ := List.mem_map.mp member
    obtain ⟨known, different⟩ := List.mem_filter.mp isCall
    exact ⟨List.mem_map_of_mem known, by simpa using different⟩
  refine { inv with
    callsFresh := fun other member => inv.callsFresh other (remains other member).1
    inTreeFresh := ?_ }
  intro other member
  rcases List.mem_cons.mp member with rfl | known
  · obtain ⟨less, -, apart⟩ := inv.callsFresh other isCall
    exact ⟨less, apart, fun call => (remains other call).2 rfl⟩
  · obtain ⟨less, apart, noCall⟩ := inv.inTreeFresh other known
    exact ⟨less, apart, fun call => noCall (remains other call).1⟩

theorem returnSingle (inv : Pending tree) {id : Nat}
    (ended : tree.returnSingle id = some after) : Pending after := by
  obtain ⟨inside, rfl⟩ := returnSingle_cases ended
  obtain ⟨less, apart, noCall⟩ := inv.inTreeFresh id inside
  refine { inv with
    writersFresh := ?_
    callsFresh := ?_
    inTreeFresh := ?_
    returnedKnown := ?_
    startedBefore := ?_ }
  · intro other member
    refine ⟨(inv.writersFresh other member).1, fun returned => ?_⟩
    rcases List.mem_append.mp returned with earlier | now
    · exact (inv.writersFresh other member).2 earlier
    · exact apart (List.mem_singleton.mp now ▸ member)
  · intro other member
    obtain ⟨otherLess, open_, otherApart⟩ := inv.callsFresh other member
    refine ⟨otherLess, fun returned => ?_, otherApart⟩
    rcases List.mem_append.mp returned with earlier | now
    · exact open_ earlier
    · exact noCall (List.mem_singleton.mp now ▸ member)
  · intro other member
    exact inv.inTreeFresh other (List.mem_of_mem_filter member)
  · intro other member
    rcases List.mem_append.mp member with earlier | now
    · exact inv.returnedKnown other earlier
    · exact List.mem_singleton.mp now ▸ less
  · intro later before member earlier isEarlier
    exact List.mem_append_left _ (inv.startedBefore later before member earlier isEarlier)

theorem perform {act : Act} (inv : Pending tree)
    (performed : tree.perform act = some after) : Pending after := by
  cases steps : act.insertStep with
  | false => exact inv.of_same (sameNumbers_of_perform steps performed)
  | true =>
      cases act with
      | insertBatch batch => exact inv.insertBatch performed
      | makeRoom views =>
          obtain ⟨middle, same, ⟨leader, -, rfl⟩ | ⟨writer, rest, queue, rfl⟩⟩ :=
            makeRoom_numbers performed
          · exact { inv.of_same same with }
          · have left := (inv.of_same same).leave 1 .idle middle.acked
            simpa [queue] using left
      | group =>
          obtain ⟨last, memColdOnly, -, rfl⟩ := group_cases performed
          exact { inv with }
      | finishGroup =>
          obtain ⟨group, put, rfl⟩ := finishGroup_cases performed
          exact inv.leave group .idle _
      | callSingle key value =>
          cases performed
          exact inv.callSingle key value
      | takeSingle id => exact inv.takeSingle performed
      | returnSingle id => exact inv.returnSingle performed
      | _ => cases steps

end Pending

/-! ## The numbers given so far -/

namespace Numbered

theorem initial : Numbered initial := by
  constructor <;> simp [Tree.initial, Leader.loaded?]

theorem nextCount_eq (same : after.writers = tree.writers) :
    after.nextCount = tree.nextCount := by
  rw [nextCount, nextCount, nextGroup, nextGroup, same]

theorem of_same (inv : Numbered tree) (same : SameNumbers tree after) :
    Numbered after := by
  constructor
  · rw [same.given, same.nextInsert]
    exact inv.owners
  · rw [same.given, same.seqNo]
    exact inv.bounded
  · rw [same.given, same.seqNo, same.lastGroup]
    exact inv.atTop
  · intro last isLoaded
    rw [same.seqNo, same.given, nextCount_eq same.writers]
    exact inv.loaded last (same.leader last isLoaded)
  · rw [same.given]
    exact inv.distinct
  · rw [same.given, same.started]
    exact inv.increasing

/-- A new insert has no numbers yet. -/
theorem increasing_cons (inv : Numbered tree) :
    ∀ later before, (later, before) ∈ (tree.nextInsert, tree.returned) :: tree.started →
      ∀ earlier ∈ before, ∀ old new, (earlier, old) ∈ tree.given →
        (later, new) ∈ tree.given → old.sequence < new.sequence := by
  intro later before member earlier isEarlier old new isOld isNew
  rcases List.mem_cons.mp member with fresh | known
  · have less := inv.owners (later, new) isNew
    rw [(Prod.mk.inj fresh).1] at less
    exact absurd less (Nat.lt_irrefl _)
  · exact inv.increasing later before known earlier isEarlier old new isOld isNew

theorem insertBatch (inv : Numbered tree) {batch : Option WriteBatch}
    (inserted : tree.insertBatch batch = some after) : Numbered after := by
  obtain ⟨leader, notLoaded, rfl⟩ := insertBatch_cases inserted
  exact { inv with
    owners := fun owned member => Nat.lt_succ_of_lt (inv.owners owned member)
    loaded := fun last isLoaded => absurd (notLoaded.symm.trans isLoaded) (by simp)
    increasing := inv.increasing_cons }

theorem callSingle (inv : Numbered tree) (key value : Slice) :
    Numbered (tree.callSingle key value) :=
  { inv with
    owners := fun owned member => Nat.lt_succ_of_lt (inv.owners owned member)
    increasing := inv.increasing_cons }

theorem makeRoom (inv : Numbered tree) {views : List RoomView}
    (made : tree.makeRoom views = some after) : Numbered after := by
  obtain ⟨middle, same, ended⟩ := makeRoom_numbers made
  have middleInv := inv.of_same same
  rcases ended with ⟨leader, loads, rfl⟩ | ⟨writer, rest, -, rfl⟩
  · refine { middleInv with loaded := ?_ }
    intro last isLoaded
    rcases loads with rfl | notLoaded
    · cases isLoaded
      exact ⟨le_rfl, fun _ => ⟨middleInv.bounded, Nat.le_succ _⟩⟩
    · exact absurd (notLoaded.symm.trans isLoaded) (by simp)
  · exact { middleInv with loaded := by simp [Leader.loaded?] }

/-- The entries of a group are numbered above everything given before. -/
theorem group (inv : Numbered tree) (pending : Pending tree)
    (grouped : tree.group = some after) : Numbered after := by
  obtain ⟨last, memColdOnly, leader, rfl⟩ := group_cases grouped
  obtain ⟨lastLe, counted⟩ := inv.loaded last (by simp [leader, Leader.loaded?])
  by_cases none : tree.nextCount = 0
  · have noOps : tree.nextGroup.flatMap Writer.ops = [] :=
      List.eq_nil_of_length_eq_zero none
    simp only [none, noOps, numbered, List.append_nil, Nat.add_zero, if_true]
    exact { inv with loaded := by simp [Leader.loaded?] }
  · obtain ⟨below, close⟩ := counted (Nat.pos_of_ne_zero none)
    have newRange : ∀ owned ∈ numbered (last + 1) (tree.nextGroup.flatMap Writer.ops),
        InRange last tree.nextCount owned.2.sequence :=
      fun owned member => inRange_of_mem_numbered member
    have newOwner : ∀ owned ∈ numbered (last + 1) (tree.nextGroup.flatMap Writer.ops),
        owned.1 < tree.nextInsert ∧ owned.1 ∉ tree.returned :=
      fun owned member => pending.writersFresh owned.1 (owner_mem_writers member)
    constructor
    · intro owned member
      rcases List.mem_append.mp member with old | new
      · exact inv.owners owned old
      · exact (newOwner owned new).1
    · intro owned member
      simp only
      rcases List.mem_append.mp member with old | new
      · have atMost := below owned old
        omega
      · have range := newRange owned new
        simp only [InRange] at range
        omega
    · intro owned member top
      simp only [none, if_false] at top ⊢
      rcases List.mem_append.mp member with old | new
      · have atMost := below owned old
        omega
      · have range := newRange owned new
        rw [top] at range
        exact range
    · simp [Leader.loaded?]
    · rw [List.map_append, List.nodup_append, numbered_sequences]
      refine ⟨inv.distinct, List.nodup_range', ?_⟩
      rintro number isOld other isNew rfl
      obtain ⟨owned, member, rfl⟩ := List.mem_map.mp isOld
      obtain ⟨offset, -, same⟩ := List.mem_range'.mp isNew
      have atMost := below owned member
      omega
    · intro later before known earlier isEarlier old new isOld isNew
      have returned := pending.startedBefore later before known earlier isEarlier
      rcases List.mem_append.mp isOld with oldKnown | oldNew
      · rcases List.mem_append.mp isNew with newKnown | newNew
        · exact inv.increasing later before known earlier isEarlier old new
            oldKnown newKnown
        · have atMost := below _ oldKnown
          have range := newRange _ newNew
          exact Nat.lt_of_le_of_lt atMost range.1
      · exact absurd returned (newOwner _ oldNew).2

/-- A single insert gets a number above everything given before. -/
theorem takeSingle (inv : Numbered tree) (pending : Pending tree) {id : Nat}
    (free : TakesFreeNumber tree (.takeSingle id))
    (taken : tree.takeSingle id = some after) : Numbered after := by
  obtain ⟨key, value, isCall, rfl⟩ := takeSingle_cases taken
  obtain ⟨notLast, notLoaded⟩ := free rfl
  obtain ⟨known, open_, -⟩ := pending.callsFresh id isCall
  have below : ∀ owned ∈ tree.given, owned.2.sequence < tree.seqNo := by
    intro owned member
    refine Nat.lt_of_le_of_ne (inv.bounded owned member) (fun top => ?_)
    exact notLast (inv.atTop owned member top)
  constructor
  · intro owned member
    rcases List.mem_append.mp member with old | new
    · exact inv.owners owned old
    · rw [List.mem_singleton.mp new]
      exact known
  · intro owned member
    rcases List.mem_append.mp member with old | new
    · exact Nat.le_succ_of_le (inv.bounded owned old)
    · rw [List.mem_singleton.mp new]
      exact Nat.le_succ _
  · intro owned member top
    rcases List.mem_append.mp member with old | new
    · have less := below owned old
      simp only at top
      omega
    · rw [List.mem_singleton.mp new] at top
      exact absurd top (Nat.ne_of_lt (Nat.lt_succ_self _))
  · intro last isLoaded
    obtain ⟨lastLe, counted⟩ := inv.loaded last isLoaded
    refine ⟨Nat.le_succ_of_le lastLe, fun some => ?_⟩
    obtain ⟨atMost, close⟩ := counted some
    have outside : ¬ InRange last tree.nextCount tree.seqNo := notLoaded last isLoaded
    have positive : 0 < tree.nextCount := some
    have same : tree.seqNo = last := by
      simp only [InRange] at outside
      omega
    refine ⟨?_, by simp [same]⟩
    intro owned member
    rcases List.mem_append.mp member with old | new
    · exact atMost owned old
    · rw [List.mem_singleton.mp new]
      exact same.le
  · rw [List.map_append, List.nodup_append]
    refine ⟨inv.distinct, by simp, ?_⟩
    rintro number isOld other isNew rfl
    obtain ⟨owned, member, rfl⟩ := List.mem_map.mp isOld
    have less := below owned member
    have top : owned.2.sequence = tree.seqNo := by
      simpa [Entry.sequence] using isNew
    omega
  · intro later before isKnown earlier isEarlier old new isOld isNew
    have returned := pending.startedBefore later before isKnown earlier isEarlier
    rcases List.mem_append.mp isOld with oldKnown | oldNew
    · rcases List.mem_append.mp isNew with newKnown | newNew
      · exact inv.increasing later before isKnown earlier isEarlier old new
          oldKnown newKnown
      · have less := below _ oldKnown
        rw [(Prod.mk.inj (List.mem_singleton.mp newNew)).2]
        exact less
    · rw [(Prod.mk.inj (List.mem_singleton.mp oldNew)).1] at returned
      exact absurd returned open_

theorem perform {act : Act} (inv : Numbered tree) (pending : Pending tree)
    (free : TakesFreeNumber tree act) (performed : tree.perform act = some after) :
    Numbered after := by
  cases steps : act.insertStep with
  | false => exact inv.of_same (sameNumbers_of_perform steps performed)
  | true =>
      cases act with
      | insertBatch batch => exact inv.insertBatch performed
      | makeRoom views => exact inv.makeRoom performed
      | group => exact inv.group pending performed
      | finishGroup =>
          obtain ⟨group, put, rfl⟩ := finishGroup_cases performed
          exact { inv with loaded := by simp [Leader.loaded?] }
      | callSingle key value =>
          cases performed
          exact inv.callSingle key value
      | takeSingle id => exact inv.takeSingle pending free performed
      | returnSingle id =>
          obtain ⟨-, rfl⟩ := returnSingle_cases performed
          exact { inv with }
      | _ => cases steps

theorem writesOrdered (inv : Numbered tree) : WritesOrdered tree where
  distinct := inv.distinct
  increasing := inv.increasing
  latestFirst later before known earlier isEarlier old new isOld isNew sameKey :=
    InternalKey.compare_lt_of_newer sameKey
      (inv.increasing later before known earlier isEarlier old new isOld isNew)

end Numbered

/-- In every run in which single inserts take only free numbers, sequence numbers
order the writes. -/
theorem writesOrdered_of_reaches {tree : Tree}
    (reaches : Lib.Reaches step TakesFreeNumber initial tree) :
    WritesOrdered tree := by
  have both : Pending tree ∧ Numbered tree := by
    refine reaches.invariant (fun tree => Pending tree ∧ Numbered tree)
      ⟨Pending.initial, Numbered.initial⟩ ?_
    rintro before act after ⟨pending, numbered⟩ free stepped
    have performed := perform_of_step stepped
    exact ⟨pending.perform performed, numbered.perform pending free performed⟩
  exact both.2.writesOrdered

/-- A single insert before a batch. -/
theorem single_then_batch_ordered :
    ∃ tree, Lib.run step (fun tree act => decide (TakesFreeNumber tree act)) initial
        [.callSingle [1] [2], .takeSingle 0, .returnSingle 0,
          .insertBatch (some ⟨[⟨.kTypeValue, [1], [3]⟩], false⟩),
          .makeRoom [⟨false, false, false, false⟩], .group] = some tree ∧
      WritesOrdered tree := by
  have ran : (Lib.run step (fun tree act => decide (TakesFreeNumber tree act)) initial
      [.callSingle [1] [2], .takeSingle 0, .returnSingle 0,
        .insertBatch (some ⟨[⟨.kTypeValue, [1], [3]⟩], false⟩),
        .makeRoom [⟨false, false, false, false⟩], .group]).isSome = true := by
    decide
  obtain ⟨tree, isTree⟩ := Option.isSome_iff_exists.mp ran
  refine ⟨tree, isTree, writesOrdered_of_reaches (Lib.reaches_of_run ?_ isTree)⟩
  intro before act passed
  exact of_decide_eq_true passed

/-- A single insert after a batch gets the number of the batch's last entry. -/
theorem single_repeats_number :
    ¬ ∀ tree, Lib.Reaches step (fun _ _ => True) initial tree → WritesOrdered tree := by
  intro claim
  have ran : (Lib.run step (fun _ _ => true) initial
      [.insertBatch (some ⟨[⟨.kTypeValue, [1], [2]⟩], false⟩),
        .makeRoom [⟨false, false, false, false⟩], .group, .fetchMem, .putEntry,
        .finishGroup, .callSingle [1] [3], .takeSingle 1]).map
        (fun tree => tree.given.map (fun owned => owned.2.sequence)) =
      some [2, 2] := by
    decide
  obtain ⟨tree, isTree, numbers⟩ := Option.map_eq_some_iff.mp ran
  have distinct := (claim tree (Lib.reaches_of_run (fun _ _ _ => trivial) isTree)).distinct
  rw [numbers] at distinct
  exact absurd distinct (by decide)

end Tree

end AhaTree
