import AhaTree.DeletionMarks

/-!
# Compaction of a whole LSMT

`CompactTree` merges all levels of an LSMT into files that its caller hands on:
to new nodes after a split, or back to the same node.  Its loop has no
compaction object, and so drops every deletion.
-/

namespace AhaTree

open Lsmt

/-! ## The loop -/

/-- The state of the loop of `DoCompactionTreeWorkImpl`.  `beyondGuard` says that
the keys still lie before the first guard. -/
structure TreeWork where
  outputs : List (List Entry)
  builder : Option (List Entry)
  currentUserKey : Option Slice
  lastSequence : Nat
  guardIndex : Nat
  beyondGuard : Bool

namespace TreeWork

/-- `FinishCompactionOutputFile`. -/
def finish (work : TreeWork) : TreeWork :=
  match work.builder with
  | none => work
  | some entries => { work with outputs := work.outputs ++ [entries], builder := none }

/-- The keys have come to the guards. -/
def enters (guards : List Slice) (entry : Entry) : Bool :=
  match guards with
  | [] => false
  | [guard] => (Slice.compare guard entry.userKey).isLE
  | guard :: rest => (Slice.compare guard entry.userKey).isLE &&
      (Slice.compare entry.userKey (rest.getLast?.getD guard)).isLT

/-- Close the output of the keys before the first guard. -/
def leaveFront (guards : List Slice) (entry : Entry) (work : TreeWork) : TreeWork :=
  if work.beyondGuard && enters guards entry then
    { work.finish with beyondGuard := false }
  else work

/-- Move on to the next guard if the entry reaches it. -/
def passGuard (guards : List Slice) (entry : Entry) (work : TreeWork) : TreeWork :=
  if work.beyondGuard then work
  else
    match guards[work.guardIndex + 1]? with
    | none => work
    | some guard =>
        if (Slice.compare guard entry.userKey).isLE then
          { work.finish with guardIndex := work.guardIndex + 1 }
        else work

/-- Add the entry to the open output, and close that if it is big enough. -/
def add (config : LsmtConfig) (maxOutputFileSize : Nat) (entry : Entry) (work : TreeWork) :
    TreeWork :=
  let entries := work.builder.getD [] ++ [entry]
  let added := { work with builder := some entries }
  if maxOutputFileSize ≤ config.buildingSize entries then added.finish else added

/-- One round of the loop. -/
def round (config : LsmtConfig) (guards : List Slice) (maxOutputFileSize : Nat)
    (work : TreeWork) (entry : Entry) : TreeWork :=
  let last :=
    if work.currentUserKey = some entry.userKey then work.lastSequence
    else kMaxSequenceNumber
  let next := { work with
    currentUserKey := some entry.userKey
    lastSequence := entry.sequence }
  if last < kMaxSequenceNumber then next
  else
    match entry.key.type with
    | .kTypeDeletion => next
    | .kTypeValue => ((next.leaveFront guards entry).passGuard guards entry).add config
        maxOutputFileSize entry

end TreeWork

/-- The number of guards up to the key. -/
def guardsUpTo (guards : List Slice) (key : Slice) : Nat :=
  (guards.takeWhile (fun guard => (Slice.compare guard key).isLE)).length

/-- `DoCompactionTreeWorkImpl` without `stop_early`, which no caller sets. -/
def doCompactionTreeWorkImpl (config : LsmtConfig) (guards : List Slice)
    (maxOutputFileSize : Nat) (input : List Entry) : List (List Entry) :=
  let upTo := (input.head?.map (fun entry => guardsUpTo guards entry.userKey)).getD 1
  let start : TreeWork := {
    outputs := []
    builder := none
    currentUserKey := none
    lastSequence := kMaxSequenceNumber
    guardIndex := upTo - 1
    beyondGuard := !guards.isEmpty && upTo == 0 }
  (input.foldl (TreeWork.round config guards maxOutputFileSize) start).finish.outputs

namespace Lsmt

/-- `AddIterators`: the files of level 0 one by one, every deeper level as one
stream. -/
def levelStreams (lsmt : Lsmt) : List (List Entry) :=
  let contents (file : FileMetaData) : List Entry := lsmt.tables file.number
  (lsmt.files 0).map contents ++
    (List.range' 1 (kNumLevels - 1)).map (fun level => (lsmt.files level).flatMap contents)

/-- What `NewMergedIterator` delivers. -/
def mergedLevels (lsmt : Lsmt) : List Entry :=
  Lib.merge Entry.before lsmt.levelStreams.flatten.length lsmt.levelStreams

/-- The common part of both `CompactTree`: the output files, and the LSMT with
its levels as they were and all their files obsolete. -/
def compactTree (config : LsmtConfig) (guards : List Slice) (maxOutputFileSize : Nat)
    (lsmt : Lsmt) : List FileMetaData × Lsmt :=
  let outputs := doCompactionTreeWorkImpl config guards maxOutputFileSize lsmt.mergedLevels
  let added := outputFiles config lsmt.fileId outputs
  let written := lsmt.writeOutputs config outputs
  (added.foldr insertFile [], { written with
    allowedSeeks := added.foldl (fun (seeks : Nat → Int) (file : FileMetaData) =>
      Function.update seeks file.number (seeksAllowed file)) written.allowedSeeks
    obsoleteFiles := lsmt.obsoleteFiles ++ (List.range (levelCount lsmt.files)).flatMap
      (fun level => (lsmt.files level).map FileMetaData.number) })

/-- `CompactTree(guards, outfiles)`. -/
def compactTreeByGuards (config : LsmtConfig) (guards : List Slice) (lsmt : Lsmt) :
    List FileMetaData × Lsmt :=
  lsmt.compactTree config guards config.outputFileSize

/-- `TotalFileSizeLSMT`. -/
def totalFileSizeLsmt (lsmt : Lsmt) : Nat :=
  ((List.range (levelCount lsmt.files)).map (fun level =>
    totalFileSize (lsmt.files level))).sum

/-- `CompactTree(split_num, outfiles)`, with the new `split_num`. -/
def compactTreeBySplit (config : LsmtConfig) (splitNum : Nat) (lsmt : Lsmt) :
    Option (Nat × List FileMetaData × Lsmt) :=
  if splitNum = 0 then none
  else
    let result := lsmt.compactTree config [] (lsmt.totalFileSizeLsmt / splitNum)
    some (result.1.length, result)

end Lsmt

/-! ## What the loop writes -/

namespace TreeWork

/-- All that is in an output, finished or open. -/
def written (work : TreeWork) : List Entry :=
  work.outputs.flatten ++ work.builder.getD []

@[simp] theorem finish_written (work : TreeWork) :
    work.finish.written = work.written := by
  rw [finish]
  split
  · rfl
  · rename_i entries isOpen
    simp [written, isOpen]

@[simp] theorem leaveFront_written (guards : List Slice) (entry : Entry)
    (work : TreeWork) : (work.leaveFront guards entry).written = work.written := by
  rw [leaveFront]
  split
  · exact finish_written work
  · rfl

@[simp] theorem passGuard_written (guards : List Slice) (entry : Entry)
    (work : TreeWork) : (work.passGuard guards entry).written = work.written := by
  rw [passGuard]
  split
  · rfl
  · split
    · rfl
    · split
      · exact finish_written work
      · rfl

@[simp] theorem add_written (config : LsmtConfig) (maxOutputFileSize : Nat)
    (entry : Entry) (work : TreeWork) :
    (work.add config maxOutputFileSize entry).written = work.written ++ [entry] := by
  have added : written { work with builder := some (work.builder.getD [] ++ [entry]) } =
      work.written ++ [entry] := by
    simp [written]
  simp only [add]
  split
  · rw [finish_written, added]
  · exact added

/-- The user key and the sequence number that the next round compares with. -/
def Remembers (work : TreeWork) (entry : Entry) : Prop :=
  work.currentUserKey = some entry.userKey ∧ work.lastSequence = entry.sequence

theorem Remembers.finish {work : TreeWork} {entry : Entry} (known : work.Remembers entry) :
    work.finish.Remembers entry := by
  rw [TreeWork.finish]
  split <;> exact known

/-- The work that a round goes on with, whether or not it writes. -/
def next (work : TreeWork) (entry : Entry) : TreeWork :=
  { work with
    currentUserKey := some entry.userKey
    lastSequence := entry.sequence }

/-- A round passes over its entry or writes it. -/
theorem round_eq (config : LsmtConfig) (guards : List Slice) (maxOutputFileSize : Nat)
    (work : TreeWork) (entry : Entry) :
    work.round config guards maxOutputFileSize entry = work.next entry ∨
      work.round config guards maxOutputFileSize entry =
        (((work.next entry).leaveFront guards entry).passGuard guards entry).add config
          maxOutputFileSize entry := by
  rw [round]
  by_cases hidden : (if work.currentUserKey = some entry.userKey then
      work.lastSequence else kMaxSequenceNumber) < kMaxSequenceNumber
  · left
    rw [if_pos hidden]
    rfl
  · rw [if_neg hidden]
    cases entry.key.type with
    | kTypeDeletion => exact Or.inl rfl
    | kTypeValue => exact Or.inr rfl

theorem round_remembers (config : LsmtConfig) (guards : List Slice)
    (maxOutputFileSize : Nat) (work : TreeWork) (entry : Entry) :
    (work.round config guards maxOutputFileSize entry).Remembers entry := by
  have next : (work.next entry).Remembers entry := ⟨rfl, rfl⟩
  have front : ∀ other : TreeWork, other.Remembers entry →
      (other.leaveFront guards entry).Remembers entry := by
    intro other known
    rw [leaveFront]
    split
    · exact known.finish
    · exact known
  have guarded : ∀ other : TreeWork, other.Remembers entry →
      (other.passGuard guards entry).Remembers entry := by
    intro other known
    rw [passGuard]
    split
    · exact known
    · split
      · exact known
      · split
        · exact known.finish
        · exact known
  have added : ∀ other : TreeWork, other.Remembers entry →
      (other.add config maxOutputFileSize entry).Remembers entry := by
    intro other known
    simp only [add]
    split
    · exact Remembers.finish known
    · exact known
  rcases round_eq config guards maxOutputFileSize work entry with passed | written
  · rw [passed]
    exact next
  · rw [written]
    exact added _ (guarded _ (front _ next))

/-- The loop writes the live entries of the input. -/
theorem foldl_written (config : LsmtConfig) (guards : List Slice)
    (maxOutputFileSize : Nat) (work : TreeWork) (entries : List Entry) :
    (entries.foldl (TreeWork.round config guards maxOutputFileSize) work).written =
      work.written ++ nonDuplicates work.currentUserKey work.lastSequence entries := by
  induction entries generalizing work with
  | nil => simp [nonDuplicates]
  | cons entry entries ih =>
      obtain ⟨key, sequence⟩ :=
        round_remembers config guards maxOutputFileSize work entry
      rw [List.foldl_cons, ih, key, sequence, nonDuplicates, round]
      by_cases hidden : (if work.currentUserKey = some entry.userKey then
          work.lastSequence else kMaxSequenceNumber) < kMaxSequenceNumber
      · rw [if_pos hidden, if_pos hidden]
        rfl
      · rw [if_neg hidden, if_neg hidden]
        cases entry.key.type with
        | kTypeDeletion => rfl
        | kTypeValue =>
            simp only [add_written, passGuard_written, leaveFront_written,
              List.append_assoc, List.singleton_append]
            rfl

theorem finish_builder (work : TreeWork) : work.finish.builder = none := by
  rw [finish]
  split
  · assumption
  · rfl

/-- No output is empty. -/
def Filled (work : TreeWork) : Prop :=
  (∀ output ∈ work.outputs, output ≠ []) ∧ ∀ entries ∈ work.builder, entries ≠ []

theorem Filled.finish {work : TreeWork} (filled : work.Filled) : work.finish.Filled := by
  rw [TreeWork.finish]
  split
  · exact filled
  · rename_i entries isOpen
    refine ⟨?_, by simp⟩
    intro output member
    rcases List.mem_append.mp member with closed | last
    · exact filled.1 output closed
    · rw [List.mem_singleton.mp last]
      exact filled.2 entries isOpen

theorem Filled.round (config : LsmtConfig) (guards : List Slice) (maxOutputFileSize : Nat)
    {work : TreeWork} (entry : Entry) (filled : work.Filled) :
    (work.round config guards maxOutputFileSize entry).Filled := by
  have next : (work.next entry).Filled := filled
  have front : ∀ other : TreeWork, other.Filled →
      (other.leaveFront guards entry).Filled := by
    intro other full
    rw [leaveFront]
    split
    · exact full.finish
    · exact full
  have guarded : ∀ other : TreeWork, other.Filled →
      (other.passGuard guards entry).Filled := by
    intro other full
    rw [passGuard]
    split
    · exact full
    · split
      · exact full
      · split
        · exact full.finish
        · exact full
  have added : ∀ other : TreeWork, other.Filled →
      (other.add config maxOutputFileSize entry).Filled := by
    intro other full
    have longer : Filled { other with
        builder := some (other.builder.getD [] ++ [entry]) } := ⟨full.1, by simp⟩
    simp only [add]
    split
    · exact longer.finish
    · exact longer
  rcases round_eq config guards maxOutputFileSize work entry with passed | written
  · rw [passed]
    exact next
  · rw [written]
    exact added _ (guarded _ (front _ next))

theorem Filled.foldl (config : LsmtConfig) (guards : List Slice) (maxOutputFileSize : Nat)
    {work : TreeWork} (entries : List Entry) (filled : work.Filled) :
    (entries.foldl (TreeWork.round config guards maxOutputFileSize) work).Filled := by
  induction entries generalizing work with
  | nil => exact filled
  | cons entry entries ih => exact ih (filled.round config guards maxOutputFileSize entry)

end TreeWork

/-- The outputs, joined, are the live entries of the input. -/
theorem doCompactionTreeWorkImpl_flatten (config : LsmtConfig) (guards : List Slice)
    (maxOutputFileSize : Nat) (input : List Entry) :
    (doCompactionTreeWorkImpl config guards maxOutputFileSize input).flatten =
      liveEntries input := by
  simp only [doCompactionTreeWorkImpl]
  generalize isStart : (⟨[], none, none, kMaxSequenceNumber, _, _⟩ : TreeWork) = start
  have whole := TreeWork.foldl_written config guards maxOutputFileSize start input
  rw [← TreeWork.finish_written, TreeWork.written, TreeWork.finish_builder] at whole
  rw [← isStart] at whole ⊢
  simpa [TreeWork.written, liveEntries] using whole

theorem doCompactionTreeWorkImpl_ne_nil (config : LsmtConfig) (guards : List Slice)
    (maxOutputFileSize : Nat) (input : List Entry) {output : List Entry}
    (member : output ∈ doCompactionTreeWorkImpl config guards maxOutputFileSize input) :
    output ≠ [] := by
  refine (TreeWork.Filled.finish (TreeWork.Filled.foldl config guards maxOutputFileSize
    input ?_)).1 output member
  exact ⟨by simp, by simp⟩

/-- Live entries are first versions of their user keys. -/
theorem nonDuplicates_sublist {current : Option Slice} {last : Nat} {entries : List Entry}
    (bounded : ∀ entry ∈ entries, entry.sequence < kMaxSequenceNumber)
    (settled : current = none ∨ last < kMaxSequenceNumber) :
    (nonDuplicates current last entries).Sublist (firstVersions current entries) := by
  induction entries generalizing current last with
  | nil => exact List.Sublist.refl _
  | cons entry entries ih =>
      have rest : (nonDuplicates (some entry.userKey) entry.sequence entries).Sublist
          (firstVersions (some entry.userKey) entries) :=
        ih (fun other later => bounded other (List.mem_cons_of_mem _ later))
          (.inr (bounded entry List.mem_cons_self))
      rw [nonDuplicates, firstVersions]
      by_cases same : current = some entry.userKey
      · have hidden : last < kMaxSequenceNumber :=
          settled.resolve_left (by simp [same])
        rw [if_pos same, if_pos hidden, if_pos same, same]
        exact rest
      · rw [if_neg same, if_neg (lt_irrefl _), if_neg same]
        cases entry.key.type with
        | kTypeDeletion => exact rest.cons entry
        | kTypeValue => exact rest.cons_cons entry

/-! ## What a compaction of all levels hands on -/

/-- The versions of a user key in the tables of files. -/
def tableVersions (tables : Nat → List Entry) (files : List FileMetaData) (key : Slice) :
    Set Entry :=
  {entry | (∃ file ∈ files, entry ∈ tables file.number) ∧ entry.userKey = key}

section Levels

variable {lsmt : Lsmt} (inv : Leveled lsmt)
  (shallow : ∀ level, kNumLevels ≤ level → lsmt.files level = [])

include inv

theorem levelStreams_sorted {stream : List Entry} (member : stream ∈ lsmt.levelStreams) :
    stream.Pairwise (fun front behind => behind.before front = false) := by
  rcases List.mem_append.mp member with top | deep
  · obtain ⟨file, isTop, rfl⟩ := List.mem_map.mp top
    exact (inv.described 0 file isTop).sorted
  · obtain ⟨level, inside, rfl⟩ := List.mem_map.mp deep
    have positive := (List.mem_range'_1.mp inside).1
    exact flatMap_sorted (inv.apart level positive) (inv.described level)

theorem mergedLevels_spec :
    lsmt.mergedLevels.Perm lsmt.levelStreams.flatten ∧
      lsmt.mergedLevels.Pairwise (fun front behind => behind.before front = false) :=
  Entry.before_strictOrder.merge_spec _ (fun _ member => levelStreams_sorted inv member)

include shallow

theorem mem_mergedLevels {entry : Entry} : entry ∈ lsmt.mergedLevels ↔ lsmt.Stored entry := by
  rw [(mergedLevels_spec inv).1.mem_iff, List.mem_flatten]
  constructor
  · rintro ⟨stream, member, inside⟩
    rcases List.mem_append.mp member with top | deep
    · obtain ⟨file, isTop, rfl⟩ := List.mem_map.mp top
      exact ⟨0, file, isTop, inside⟩
    · obtain ⟨level, -, rfl⟩ := List.mem_map.mp deep
      obtain ⟨file, isFile, stored⟩ := List.mem_flatMap.mp inside
      exact ⟨level, file, isFile, stored⟩
  · rintro ⟨level, file, isFile, stored⟩
    by_cases top : level = 0
    · subst top
      exact ⟨_, List.mem_append_left _ (List.mem_map_of_mem isFile), stored⟩
    · have inside : level < kNumLevels := by
        by_contra deep
        rw [shallow level (Nat.le_of_not_lt deep)] at isFile
        cases isFile
      refine ⟨_, List.mem_append_right _ (List.mem_map_of_mem (List.mem_range'_1.mpr
        ⟨Nat.pos_of_ne_zero top, by omega⟩)), ?_⟩
      exact List.mem_flatMap.mpr ⟨file, isFile, stored⟩

theorem mergedLevels_bounded {entry : Entry} (member : entry ∈ lsmt.mergedLevels) :
    entry.sequence < kMaxSequenceNumber := by
  obtain ⟨level, file, isFile, stored⟩ := (mem_mergedLevels inv shallow).mp member
  exact (inv.described level file isFile).bounded entry stored

theorem versions_mergedLevels (key : Slice) :
    versions lsmt.mergedLevels key = lsmt.storedVersions key := by
  ext entry
  exact and_congr_left' (mem_mergedLevels inv shallow)

variable (config : LsmtConfig) (guards : List Slice) (maxOutputFileSize : Nat)

/-- The output files hold the live entries of all levels. -/
theorem tableVersions_compactTree (key : Slice) :
    tableVersions (lsmt.compactTree config guards maxOutputFileSize).2.tables
        (lsmt.compactTree config guards maxOutputFileSize).1 key =
      versions (liveEntries lsmt.mergedLevels) key := by
  let outputs := doCompactionTreeWorkImpl config guards maxOutputFileSize lsmt.mergedLevels
  have whole : outputs.flatten = liveEntries lsmt.mergedLevels :=
    doCompactionTreeWorkImpl_flatten config guards maxOutputFileSize lsmt.mergedLevels
  have filled : ∀ output ∈ outputs, output ≠ [] := fun output isOutput =>
    doCompactionTreeWorkImpl_ne_nil config guards maxOutputFileSize _ isOutput
  have bounded : ∀ entry ∈ lsmt.mergedLevels, entry.sequence < kMaxSequenceNumber :=
    fun entry member => mergedLevels_bounded inv shallow member
  have sublist : outputs.flatten.Sublist (firstVersions none lsmt.mergedLevels) := by
    rw [whole]
    exact nonDuplicates_sublist bounded (.inl rfl)
  have strict : outputs.flatten.Pairwise
      (fun front behind => front.userKey < behind.userKey) :=
    (firstVersions_strict (ascending_of_not_before (mergedLevels_spec inv).2) none).sublist
      sublist
  have outputBounded : ∀ entry ∈ outputs.flatten, entry.sequence < kMaxSequenceNumber :=
    fun entry member =>
      bounded entry ((firstVersions_sublist none _).subset (sublist.subset member))
  have files : (lsmt.compactTree config guards maxOutputFileSize).1 =
      outputFiles config lsmt.fileId outputs :=
    foldr_insertFile_of_apart (outputFiles_apart filled strict outputBounded)
  have tables : (lsmt.compactTree config guards maxOutputFileSize).2.tables =
      (lsmt.writeOutputs config outputs).tables := rfl
  ext entry
  rw [files, tables, ← whole]
  refine and_congr_left' ?_
  rw [List.mem_flatten]
  constructor
  · rintro ⟨file, isFile, inside⟩
    obtain ⟨place, output, found, isNumber, -⟩ :=
      mem_outputFiles filled strict outputBounded isFile
    rw [isNumber, writeOutputs_new config found] at inside
    exact ⟨output, List.mem_of_getElem? found, inside⟩
  · rintro ⟨output, isOutput, inside⟩
    obtain ⟨place, found⟩ := List.mem_iff_getElem?.mp isOutput
    obtain ⟨file, isFile, isNumber⟩ := exists_outputFile config lsmt.fileId filled found
    refine ⟨file, isFile, ?_⟩
    rw [isNumber, writeOutputs_new config found]
    exact inside

/-- The newest version of each user key is handed on, unless it is a deletion. -/
theorem mem_tableVersions_compactTree_iff (named : lsmt.Named) (key : Slice)
    (entry : Entry) :
    entry ∈ tableVersions (lsmt.compactTree config guards maxOutputFileSize).2.tables
        (lsmt.compactTree config guards maxOutputFileSize).1 key ↔
      Lib.Newest Entry.sequence (lsmt.storedVersions key) entry ∧ entry.IsValue := by
  have sorted : Sorted lsmt.mergedLevels := by
    refine ⟨(mergedLevels_spec inv).2, ?_⟩
    intro left isLeft right isRight
    exact named left right ((mem_mergedLevels inv shallow).mp isLeft)
      ((mem_mergedLevels inv shallow).mp isRight)
  have live : ∀ other, other ∈ liveEntries lsmt.mergedLevels ↔
      Lib.Shows Entry.sequence Entry.IsValue
        (versions lsmt.mergedLevels other.userKey) other := fun other =>
    sorted.mem_liveEntries_iff (fun _ member => mergedLevels_bounded inv shallow member)
  rw [tableVersions_compactTree inv shallow]
  constructor
  · rintro ⟨member, rfl⟩
    have shows := (live entry).mp member
    rw [versions_mergedLevels inv shallow] at shows
    exact ⟨shows.toNewest, shows.living⟩
  · rintro ⟨isNewest, isValue⟩
    obtain ⟨-, rfl⟩ := isNewest.member
    refine ⟨(live entry).mpr ?_, rfl⟩
    rw [versions_mergedLevels inv shallow]
    exact ⟨isNewest, isValue⟩

end Levels

end AhaTree
