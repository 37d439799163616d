import AhaTree.RootCompaction

/-!
# The first bulk load

While the root page is a leaf, `DoCompact` answers kOverflow when the cached level
is the last one the limit allows, and the bottom level is then to become the leaves
of a tree.  The cached level is the best one for any score, and read samples use
it too, so nothing may be full when the bulk load is scheduled.
-/

namespace AhaTree

open Lsmt

namespace RootLsmt

/-- The steps that can be taken while the root page is a leaf, up to the first
bulk load. -/
def Act.onLeaf : Act → Bool
  | .switchMem _ | .startFlush _ | .commitFlush _ _ _ => true
  | .readSample _ | .backgroundCall _ => true
  | _ => false

/-- Whether a compaction is sure to write a file to the next level. -/
def writesFile (config : LsmtConfig) (tables : Nat → List Entry)
    (compaction : Compaction) : Bool :=
  isTrivialMove config compaction || holdsLive none (mergedInput tables compaction)

/-- The files of the bottom level that `DoCompact` does not read, and one more if
it is sure to write one there. -/
def bottomLeft (config : LsmtConfig) (root : RootLsmt) : Nat :=
  (getBottomLevel root.lsmt.files).elim 0 (fun bottom =>
    (unreadLevels root.lsmt.files (root.nextCompaction config) bottom).length +
      (root.nextCompaction config).elim 0 (fun compaction =>
        if compaction.level + 1 = bottom ∧
            writesFile config root.lsmt.tables compaction = true then 1 else 0))

end RootLsmt

/-- The root LSMT under a leaf root page, with `background_flush_scheduled_` and a
record of the levels for which `DoCompact` has answered kOverflow. -/
structure LeafRoot where
  root : RootLsmt
  flushScheduled : Bool
  overflowed : List (Nat × List FileMetaData)

namespace LeafRoot

def initial : LeafRoot := ⟨.initial, false, []⟩

/-- What `BackgroundCompaction` does with the answer of `DoCompact`. -/
def answered (before : RootLsmt) (answer : Except Fault (OpState × Lsmt))
    (state : LeafRoot) : LeafRoot :=
  match answer with
  | .ok (.kOverflow, _) =>
      { state with
        flushScheduled := true
        overflowed := state.overflowed ++ (before.lsmt.compactLevel.map (fun level =>
          (level, before.lsmt.files level))).toList }
  | _ => state

def step (config : LsmtConfig) (state : LeafRoot) (act : RootLsmt.Act) :
    Option LeafRoot :=
  if state.root.isLeaf && act.onLeaf then
    (state.root.step config act).map (fun after =>
      match act with
      | .backgroundCall guards => answered state.root
          (state.root.lsmt.doCompact config state.root.isLeaf guards)
          { state with root := after }
      | _ => { state with root := after })
  else none

/-- `BulkloadLSMTFiles` passes its two assertions. -/
def BulkloadPasses (state : LeafRoot) : Prop :=
  ∃ level, getBottomLevel state.root.lsmt.files = some level ∧ 0 < level ∧
    1 < (state.root.lsmt.files level).length

/-- Every kOverflow was the answer to a full level, and a scheduled bulk load can
run. -/
structure OverflowsFull (state : LeafRoot) : Prop where
  full : ∀ answer ∈ state.overflowed, 1 ≤ levelScore answer.1 answer.2
  bulkload : state.flushScheduled = true → state.BulkloadPasses

/-- A compaction that overflows was asked for by a size and finds several files in
the bottom level; a compaction that runs while a bulk load waits leaves several of
them. -/
def Grounded (config : LsmtConfig) (state : LeafRoot) (act : RootLsmt.Act) : Prop :=
  act.compacts = true →
    (state.root.leafOverflows config = true → 1 ≤ state.root.lsmt.compactionScore ∧
      (state.flushScheduled = false →
        ∀ bottom ∈ getBottomLevel state.root.lsmt.files,
          1 < (state.root.lsmt.files bottom).length)) ∧
    (state.root.leafOverflows config = false → state.flushScheduled = true →
      1 < state.root.bottomLeft config)

instance (config : LsmtConfig) (state : LeafRoot) (act : RootLsmt.Act) :
    Decidable (state.Grounded config act) :=
  inferInstanceAs (Decidable (_ → _))

end LeafRoot

/-! ## Levels below the limit -/

theorem pickLevelForMemTableOutput_lt {config : LsmtConfig} (limited : 0 < config.levelLimit)
    (levels : Levels) (smallest largest : Slice) :
    (pickLevelForMemTableOutput config levels smallest largest : Int) <
      config.levelLimit := by
  have general : ∀ level : Nat, ((if 0 < config.levelLimit ∧ config.levelLimit ≤ level
      then 0 else level : Nat) : Int) < config.levelLimit := by
    intro level
    split
    · exact limited
    · rename_i below
      exact Int.not_le.mp (fun above => below ⟨limited, above⟩)
  exact general _

/-- Files are neither lost nor made by placing them. -/
theorem placeFiles_length (deleted : List Nat) (added base : List FileMetaData) :
    (placeFiles deleted added base).length =
      (added.filter (fun file => !deleted.contains file.number)).length +
        (base.filter (fun file => !deleted.contains file.number)).length := by
  induction added generalizing base with
  | nil => simp [placeFiles]
  | cons first added ih =>
      have split : base.filter (fun file => !deleted.contains file.number) =
          (base.takeWhile (fun file => (file.largest.compare first.smallest).isLT)).filter
            (fun file => !deleted.contains file.number) ++
          (base.dropWhile (fun file => (file.largest.compare first.smallest).isLT)).filter
            (fun file => !deleted.contains file.number) := by
        rw [← List.filter_append, List.takeWhile_append_dropWhile]
      rw [placeFiles, List.length_append, ih, List.filter_append, List.length_append, split,
        List.length_append]
      by_cases gone : first.number ∈ deleted
      · simp [gone]
        omega
      · simp [gone]
        omega

namespace Lsmt

/-- A file that is added makes its level longer and leaves the others. -/
theorem placeFile_files (level : Nat) (file : FileMetaData) (lsmt : Lsmt) (place : Nat) :
    ((lsmt.placeFile level file).files place).length =
      (lsmt.files place).length + if place = level then 1 else 0 := by
  simp only [placeFile]
  split
  · simp only [applyFileChanges]
    by_cases same : place = level
    · subst same
      rw [Function.update_self, placeFiles_length]
      simp [insertFile]
      omega
    · rw [Function.update_of_ne same, if_neg same]
      rfl
  · by_cases same : place = level
    · subst same
      simp
    · simp [same]

/-- What a compaction leaves of a level: the files it has not read, and the files it
has written to the next level. -/
theorem compact_files_length {config : LsmtConfig} {guards : List Slice}
    {compaction : Compaction} {lsmt : Lsmt} (numbered : lsmt.Numbered)
    (subset : compaction.nextInputs ⊆ lsmt.files (compaction.level + 1)) (place : Nat) :
    ((lsmt.compact config guards compaction (compaction.level + 1)).files place).length =
      (unreadLevels lsmt.files (some compaction) place).length +
        if place = compaction.level + 1 then
          ((outputFiles config lsmt.fileId (doCompactionWorkImpl config guards compaction
            lsmt.files (mergedInput lsmt.tables compaction))).foldr insertFile []).length
        else 0 := by
  have apart : ¬ compaction.level + 1 = compaction.level := by omega
  simp only [compact, installCompactionResults, if_neg apart, applyFileChanges,
    unreadLevels]
  by_cases next : place = compaction.level + 1
  · subst next
    rw [Function.update_self, Function.update_of_ne (Nat.succ_ne_self _), placeFiles_length,
      if_neg (Nat.succ_ne_self _), if_pos rfl, if_pos rfl, Nat.add_comm]
    congr 2
    · apply List.filter_eq_self.mpr
      intro file isOutput
      have new := (outputFiles_number (foldr_insertFile_subset _ isOutput)).1
      simp only [List.contains_eq_mem, Bool.not_eq_true', decide_eq_false_iff_not]
      intro isDeleted
      obtain ⟨input, isInput, same⟩ := List.mem_map.mp isDeleted
      have old := numbered _ input (subset isInput)
      omega
  · rw [Function.update_of_ne next, if_neg next]
    by_cases same : place = compaction.level
    · subst same
      rw [Function.update_self, if_pos rfl]
      simp [placeFiles, writeOutputs]
    · rw [Function.update_of_ne same, if_neg same, if_neg next]
      simp [writeOutputs]

theorem trivialMove_files_length {compaction : Compaction} {lsmt : Lsmt}
    {moved : FileMetaData} (one : compaction.inputs = [moved])
    (none : compaction.nextInputs = []) (place : Nat) :
    ((lsmt.trivialMove compaction).files place).length =
      (unreadLevels lsmt.files (some compaction) place).length +
        if place = compaction.level + 1 then 1 else 0 := by
  simp only [trivialMove, applyFileChanges, unreadLevels, one, none]
  by_cases same : place = compaction.level
  · subst same
    have apart : ¬ compaction.level = compaction.level + 1 := by omega
    rw [Function.update_self, Function.update_of_ne apart, if_neg apart, if_pos rfl]
    simp [placeFiles]
  · rw [Function.update_of_ne same, if_neg same]
    by_cases next : place = compaction.level + 1
    · subst next
      rw [Function.update_self, placeFiles_length]
      simp [insertFile]
      omega
    · rw [Function.update_of_ne next, if_neg next, if_neg next]
      simp

end Lsmt

theorem getBottomLevel_of_last {levels : Levels} {bottom : Nat}
    (inside : bottom < kNumLevels) (filled : levels bottom ≠ [])
    (deeper : ∀ level, bottom < level → levels level = []) :
    getBottomLevel levels = some bottom := by
  cases found : getBottomLevel levels with
  | none => exact absurd ((getBottomLevel_eq_none_iff levels).mp found bottom inside) filled
  | some other =>
      obtain ⟨-, otherFilled, otherDeeper⟩ := getBottomLevel_eq_some found
      congr 1
      apply Nat.le_antisymm
      · apply Nat.le_of_not_lt
        exact fun below => otherFilled (deeper other below)
      · apply Nat.le_of_not_lt
        exact fun below => filled (otherDeeper bottom inside below)

/-! ## What holds under a leaf root -/

/-- No level lies beyond the limit, read samples ask for levels above the last one,
and a score that is due belongs to the cached level. -/
structure Bounded (config : LsmtConfig) (lsmt : Lsmt) : Prop where
  limited : ∀ level : Nat, config.levelLimit ≤ level → lsmt.files level = []
  seekable : ∀ level ∈ lsmt.fileToCompactLevel, (level : Int) + 1 < config.levelLimit
  scored : 1 ≤ lsmt.compactionScore → ∃ level, lsmt.compactLevel = some level ∧
    levelScore level (lsmt.files level) = lsmt.compactionScore

namespace Bounded

variable {config : LsmtConfig} {lsmt : Lsmt}

theorem finalize
    (limited : ∀ level : Nat, config.levelLimit ≤ level → lsmt.files level = [])
    (seekable : ∀ level ∈ lsmt.fileToCompactLevel,
      (level : Int) + 1 < config.levelLimit) :
    Bounded config lsmt.finalize := by
  refine ⟨limited, seekable, ?_⟩
  intro due
  rcases finalize_spec lsmt with ⟨-, -, low⟩ | ⟨best, -, isLevel, score⟩
  · rw [low] at due
    exact absurd due (by norm_num)
  · exact ⟨best, isLevel, score.symm⟩

theorem addFile (inv : Bounded config lsmt) {level : Nat}
    (allowed : (level : Int) < config.levelLimit) (file : FileMetaData) :
    Bounded config (lsmt.addFile level file) := by
  apply finalize
  · intro place beyond
    have apart : place ≠ level := by
      rintro rfl
      omega
    have same := placeFile_files level file lsmt place
    rw [if_neg apart, inv.limited place beyond] at same
    exact List.length_eq_zero_iff.mp same
  · rw [(placeFile_keeps level file lsmt).2]
    exact inv.seekable

/-- A file that a read looks at first lies above the last level. -/
theorem overlapping_below (inv : Bounded config lsmt) (atLeastTwo : 2 ≤ config.levelLimit)
    {key : InternalKey} {level : Nat} {file : FileMetaData}
    (member : (level, file) ∈ overlappingFiles lsmt.files key) :
    (level : Int) + 1 < config.levelLimit := by
  simp only [overlappingFiles] at member
  rcases List.mem_append.mp member with top | deeper
  · obtain ⟨other, -, same⟩ := List.mem_map.mp top
    rw [← (Prod.mk.inj same).1]
    omega
  · obtain ⟨place, isPlace, found⟩ := List.mem_filterMap.mp deeper
    have same : place = level := by
      split at found
      · cases found
      · split at found
        · cases found
        · exact (Prod.mk.inj (Option.some.inj found)).1
    obtain ⟨offset, less, isOffset⟩ := List.mem_range'.mp isPlace
    cases bottom : getBottomLevel lsmt.files with
    | none => simp [bottom] at less
    | some deepest =>
        obtain ⟨-, filled, -⟩ := getBottomLevel_eq_some bottom
        have below : (deepest : Int) < config.levelLimit := by
          by_contra beyond
          exact filled (inv.limited deepest (Int.not_lt.mp beyond))
        rw [bottom] at less
        simp only [Option.getD_some] at less
        omega

theorem recordReadSample (inv : Bounded config lsmt) (atLeastTwo : 2 ≤ config.levelLimit)
    (key : InternalKey) : Bounded config (lsmt.recordReadSample key).2 := by
  rw [Lsmt.recordReadSample]
  split
  · rename_i level file second rest isList
    rw [updateStats]
    simp only
    split
    · refine { inv with seekable := ?_ }
      intro place isPlace
      cases isPlace
      apply inv.overlapping_below atLeastTwo
      rw [isList]
      exact List.mem_cons_self
    · exact { inv with }
  · exact inv

end Bounded

namespace RootLsmt

/-- The level of the next compaction: the cached one, or the one that a read sample
has asked for. -/
theorem nextCompaction_level {config : LsmtConfig} {root : RootLsmt}
    {compaction : Compaction} (isNext : root.nextCompaction config = some compaction) :
    (root.lsmt.compactLevel = some compaction.level ∧
        (overflows config compaction.level && root.isLeaf) = false) ∨
      root.lsmt.fileToCompactLevel = some compaction.level := by
  rw [nextCompaction] at isNext
  split at isNext
  · cases isNext
  · rename_i level isLevel
    split at isNext
    · cases isNext
    · rename_i notLeaf
      rw [compactionOf] at isNext
      split at isNext
      · rename_i found after set
        split at isNext
        · cases isNext
        · cases isNext
          rw [setCompactionInputs] at set
          by_cases due : 1 ≤ root.lsmt.compactionScore
          · rw [if_pos due] at set
            split at set
            · cases set
            · split at set
              · cases set
              · cases set
                exact .inl ⟨isLevel, by simpa using notLeaf⟩
          · rw [if_neg due] at set
            split at set
            · cases set
            · rename_i seekLevel seek
              simp only at set
              split at set
              · cases set
              · split at set
                · cases set
                · cases set
                  exact .inr seek
      · cases isNext

variable {config : LsmtConfig} {root after : RootLsmt}

@[simp] theorem maybeScheduleCompaction_lsmt (root : RootLsmt) :
    root.maybeScheduleCompaction.lsmt = root.lsmt := by
  rw [maybeScheduleCompaction]
  split
  · rfl
  · split <;> rfl

@[simp] theorem maybeScheduleCompaction_isLeaf (root : RootLsmt) :
    root.maybeScheduleCompaction.isLeaf = root.isLeaf := by
  rw [maybeScheduleCompaction]
  split
  · rfl
  · split <;> rfl

@[simp] theorem endBackgroundCall_lsmt (root : RootLsmt) :
    root.endBackgroundCall.lsmt = root.lsmt :=
  maybeScheduleCompaction_lsmt _

@[simp] theorem endBackgroundCall_isLeaf (root : RootLsmt) :
    root.endBackgroundCall.isLeaf = root.isLeaf :=
  maybeScheduleCompaction_isLeaf _

/-- Steps that only add files. -/
structure Grows (config : LsmtConfig) (root after : RootLsmt) : Prop where
  isLeaf : after.isLeaf = root.isLeaf
  bounded : Bounded config after.lsmt
  longer : ∀ place, (root.lsmt.files place).length ≤ (after.lsmt.files place).length

theorem addTable_grows (bounded : Bounded config root.lsmt)
    (limited : 0 < config.levelLimit) (number : Nat) (entries : List Entry) :
    Grows config root (root.addTable config number entries) := by
  rw [addTable]
  split
  · exact ⟨rfl, bounded, fun _ => le_rfl⟩
  · rename_i file isFile
    have stored : Bounded config { root.lsmt with
        tables := Function.update root.lsmt.tables number entries } := { bounded with }
    refine ⟨rfl, stored.addFile (pickLevelForMemTableOutput_lt limited _ _ _) file, ?_⟩
    intro place
    refine Nat.le_trans ?_ (placeFile_files _ file _ place).ge
    exact Nat.le_add_right _ _

theorem commitFlush_grows (bounded : Bounded config root.lsmt)
    (limited : 0 < config.levelLimit) {onCompaction : Bool} {number : Nat}
    {entries : List Entry}
    (committed : root.commitFlush config onCompaction number entries = some after) :
    Grows config root after := by
  rw [commitFlush] at committed
  split at committed
  · have dropped : Bounded config { root with
        hasImm := false
        pendingOutputs := root.pendingOutputs.filter (· != number) }.lsmt := bounded
    have added := addTable_grows dropped limited number entries
    cases onCompaction with
    | true =>
        cases committed
        refine ⟨?_, ?_, ?_⟩
        · simpa using added.isLeaf
        · simpa using added.bounded
        · simpa using added.longer
    | false =>
        cases committed
        exact ⟨added.isLeaf, added.bounded, added.longer⟩
  · cases committed

theorem readSample_grows (bounded : Bounded config root.lsmt)
    (atLeastTwo : 2 ≤ config.levelLimit) {key : InternalKey}
    (sampled : root.readSample key = some after) : Grows config root after := by
  have sameFiles : (root.lsmt.recordReadSample key).2.files = root.lsmt.files := by
    rw [Lsmt.recordReadSample]
    split
    · rw [updateStats]
      simp only
      split <;> rfl
    · rfl
  have recorded := bounded.recordReadSample atLeastTwo key
  have grown : Grows config root { root with lsmt := (root.lsmt.recordReadSample key).2 } :=
    ⟨rfl, recorded, fun place => by simp [sameFiles]⟩
  rw [readSample] at sampled
  split at sampled
  · simp only [Option.some.injEq] at sampled
    subst sampled
    cases requested : (root.lsmt.recordReadSample key).1 with
    | true =>
        rw [if_pos rfl]
        exact ⟨by simp, by simpa using grown.bounded, by simpa using grown.longer⟩
    | false => exact grown
  · cases sampled

theorem startFlush_grows (bounded : Bounded config root.lsmt) {onCompaction : Bool}
    (started : root.startFlush config onCompaction = some after) : Grows config root after := by
  rw [startFlush] at started
  split at started
  · cases started
    exact ⟨rfl, { bounded with }, fun _ => le_rfl⟩
  · cases started

theorem switchMem_grows (bounded : Bounded config root.lsmt) {schedules : Bool}
    (switched : root.step config (.switchMem schedules) = some after) :
    Grows config root after := by
  simp only [step] at switched
  split at switched
  · cases switched
  · cases switched
    split
    · exact ⟨by simp, by simpa using bounded, fun place => by simp⟩
    · exact ⟨rfl, bounded, fun _ => le_rfl⟩

/-- A level below the last one is compacted into a level that the limit allows. -/
theorem nextCompaction_below (bounded : Bounded config root.lsmt)
    (limited : 0 < config.levelLimit) (isLeaf : root.isLeaf = true)
    {compaction : Compaction} (isNext : root.nextCompaction config = some compaction) :
    (compaction.level : Int) + 1 < config.levelLimit := by
  rcases nextCompaction_level isNext with ⟨-, notLast⟩ | seek
  · simp only [isLeaf, Bool.and_true, overflows, limited, true_and,
      decide_eq_false_iff_not] at notLast
    omega
  · exact bounded.seekable compaction.level seek

/-- A compaction leaves the files it has not read, and what it writes goes to the
next level. -/
theorem compacted_length {guards : List Slice} {set : Lsmt} {compaction : Compaction}
    (numbered : set.Numbered)
    (nextSubset : compaction.nextInputs ⊆ set.files (compaction.level + 1)) :
    ∃ written, (writesFile config set.tables compaction = true → 1 ≤ written) ∧
      ∀ place, ((if isTrivialMove config compaction then set.trivialMove compaction
          else set.compact config guards compaction
            (compaction.level + 1)).files place).length =
        (unreadLevels set.files (some compaction) place).length +
          if place = compaction.level + 1 then written else 0 := by
  by_cases moves : isTrivialMove config compaction = true
  · rw [if_pos moves]
    simp only [isTrivialMove, Bool.and_eq_true, beq_iff_eq, List.isEmpty_iff] at moves
    obtain ⟨moved, one⟩ := List.length_eq_one_iff.mp moves.1.1
    exact ⟨1, fun _ => le_rfl, trivialMove_files_length one moves.1.2⟩
  · rw [if_neg moves]
    refine ⟨_, ?_, compact_files_length numbered nextSubset⟩
    intro writes
    rw [writesFile, Bool.or_eq_true] at writes
    have live := writes.resolve_left moves
    have some := outputFiles_ne_nil config set.fileId
      (doCompactionWorkImpl_of_live config guards compaction set.files live)
    obtain ⟨first, rest, same⟩ := List.exists_cons_of_ne_nil some
    rw [same]
    exact List.length_pos_of_ne_nil (insertFile_ne_nil first _)

theorem compacted_seek {guards : List Slice} {set : Lsmt} {compaction : Compaction} :
    (if isTrivialMove config compaction then set.trivialMove compaction
      else set.compact config guards compaction
        (compaction.level + 1)).fileToCompactLevel = set.fileToCompactLevel := by
  split
  · rfl
  · simp only [compact, installCompactionResults]
    split <;> rfl

/-- Under a leaf root `DoCompact` answers kOverflow exactly for an overflow, which
it leaves to the bulk load. -/
theorem doCompact_answer {guards : List Slice} {answer : OpState} {lsmt : Lsmt}
    (isLeaf : root.isLeaf = true)
    (done : root.lsmt.doCompact config root.isLeaf guards = .ok (answer, lsmt)) :
    answer = .kOverflow ↔ root.leafOverflows config = true := by
  rw [doCompact] at done
  rw [leafOverflows, isLeaf, Bool.true_and]
  split at done
  · cases done
  · rename_i level isLevel
    rw [isLeaf, Bool.and_true] at done
    rw [isLevel, Option.map_some, Option.getD_some]
    by_cases last : overflows config level = true
    · rw [if_pos last] at done
      cases done
      simp [last]
    · rw [if_neg last] at done
      have isOk : answer = .kOk := by
        split at done
        · cases done
        · cases done
          rfl
        · split at done
          · cases done
            rfl
          · simp only [Except.ok.injEq, Prod.mk.injEq] at done
            exact done.1.symm
      simp [isOk, last]

/-- `BackgroundCall` leaves what `DoCompact` leaves. -/
theorem backgroundCall_lsmt {guards : List Slice}
    (called : root.backgroundCall config guards = some after) :
    ∃ answer lsmt, root.lsmt.doCompact config root.isLeaf guards = .ok (answer, lsmt) ∧
      after.lsmt = lsmt ∧ after.isLeaf = root.isLeaf := by
  rw [backgroundCall] at called
  split at called
  · split at called
    · cases called
    · rename_i answer lsmt done
      split at called
      · cases called
      · cases called
        refine ⟨answer, lsmt, done, ?_, ?_⟩
        · rw [endBackgroundCall_lsmt]
          split
          · rfl
          · split <;> rfl
        · rw [endBackgroundCall_isLeaf]
          split
          · rfl
          · split <;> rfl
  · cases called

end RootLsmt

namespace LeafRoot

variable {config : LsmtConfig} {state after : LeafRoot}

/-- What a run keeps until the bulk load: while one waits, the last level that the
limit allows has several files. -/
structure Steady (config : LsmtConfig) (state : LeafRoot) : Prop where
  judged : state.root.Judged
  leaf : state.root.isLeaf = true
  bounded : Bounded config state.root.lsmt
  full : ∀ answer ∈ state.overflowed, 1 ≤ levelScore answer.1 answer.2
  waiting : state.flushScheduled = true → ∃ bottom : Nat,
    (bottom : Int) + 1 = config.levelLimit ∧ bottom < kNumLevels ∧
      1 < (state.root.lsmt.files bottom).length

namespace Steady

theorem initial (config : LsmtConfig) : Steady config initial where
  judged := RootLsmt.Judged.initial
  leaf := rfl
  bounded := ⟨fun _ _ => rfl, by simp [LeafRoot.initial, RootLsmt.initial, Lsmt.empty],
    fun due => absurd due (by norm_num [LeafRoot.initial, RootLsmt.initial, Lsmt.empty])⟩
  full := by simp [LeafRoot.initial]
  waiting := by simp [LeafRoot.initial]

theorem grows {root : RootLsmt} (inv : Steady config state) (judged : root.Judged)
    (grown : RootLsmt.Grows config state.root root) :
    Steady config { state with root := root } where
  judged := judged
  leaf := grown.isLeaf.trans inv.leaf
  bounded := grown.bounded
  full := inv.full
  waiting := by
    intro scheduled
    obtain ⟨bottom, isLast, inside, several⟩ := inv.waiting scheduled
    exact ⟨bottom, isLast, inside, several.trans_le (grown.longer bottom)⟩

/-- The last level that the limit allows is the bottom one when it has files. -/
theorem bottom_eq (inv : Steady config state) {bottom : Nat}
    (isLast : (bottom : Int) + 1 = config.levelLimit) (inside : bottom < kNumLevels)
    (filled : state.root.lsmt.files bottom ≠ []) :
    getBottomLevel state.root.lsmt.files = some bottom := by
  apply getBottomLevel_of_last inside filled
  intro level below
  apply inv.bounded.limited
  omega

theorem overflowsFull (inv : Steady config state) (atLeastTwo : 2 ≤ config.levelLimit) :
    OverflowsFull state := by
  refine ⟨inv.full, ?_⟩
  intro scheduled
  obtain ⟨bottom, isLast, inside, several⟩ := inv.waiting scheduled
  have filled : state.root.lsmt.files bottom ≠ [] :=
    List.ne_nil_of_length_pos (Nat.zero_lt_one.trans several)
  exact ⟨bottom, inv.bottom_eq isLast inside filled, by omega, several⟩

/-- An overflow that a size has asked for finds the last level full. -/
theorem overflow {root : RootLsmt} (inv : Steady config state) (judged : root.Judged)
    (sameLeaf : root.isLeaf = state.root.isLeaf)
    (isLsmt : root.lsmt = { state.root.lsmt with compactionScore := -1, compactLevel := none })
    (overflows : state.root.leafOverflows config = true)
    (due : 1 ≤ state.root.lsmt.compactionScore)
    (several : state.flushScheduled = false →
      ∀ bottom ∈ getBottomLevel state.root.lsmt.files,
        1 < (state.root.lsmt.files bottom).length) :
    Steady config { state with
      root := root
      flushScheduled := true
      overflowed := state.overflowed ++ (state.root.lsmt.compactLevel.map (fun level =>
        (level, state.root.lsmt.files level))).toList } := by
  obtain ⟨level, isLevel, score⟩ := inv.bounded.scored due
  obtain ⟨other, -, isOther, -, inside, -⟩ := inv.judged.due due
  obtain rfl : level = other := Option.some.inj (isLevel.symm.trans isOther)
  have filled : state.root.lsmt.files level ≠ [] := by
    intro empty
    rw [← score, empty, levelScore_nil] at due
    exact absurd due (by norm_num)
  have isLast : (level : Int) + 1 = config.levelLimit := by
    have below : (level : Int) < config.levelLimit := by
      by_contra beyond
      exact filled (inv.bounded.limited level (Int.not_lt.mp beyond))
    simp only [RootLsmt.leafOverflows, isLevel, Option.map_some, Option.getD_some,
      Lsmt.overflows, Bool.and_eq_true, decide_eq_true_eq] at overflows
    omega
  refine ⟨judged, sameLeaf.trans inv.leaf, ?_, ?_, ?_⟩
  · rw [isLsmt]
    exact { inv.bounded with scored := fun due => absurd due (by norm_num) }
  · intro answer member
    rcases List.mem_append.mp member with earlier | new
    · exact inv.full answer earlier
    · obtain rfl : answer = (level, state.root.lsmt.files level) := by
        simpa [isLevel] using new
      rw [score]
      exact due
  · intro _
    rw [isLsmt]
    cases scheduled : state.flushScheduled with
    | true => exact inv.waiting scheduled
    | false => exact ⟨level, isLast, inside,
        several scheduled level (inv.bottom_eq isLast inside filled)⟩

/-- A compaction while a bulk load waits leaves several files in the last level. -/
theorem compacted {root : RootLsmt} (inv : Steady config state) (judged : root.Judged)
    (limited : 0 < config.levelLimit) (sameLeaf : root.isLeaf = state.root.isLeaf)
    (left : state.flushScheduled = true → 1 < state.root.bottomLeft config)
    {guards : List Slice} {answer : OpState}
    (notLeaf : state.root.leafOverflows config = false)
    (done : state.root.lsmt.doCompact config state.root.isLeaf guards =
      .ok (answer, root.lsmt)) :
    Steady config { state with root := root } := by
  rcases RootLsmt.doCompact_cases done with
    ⟨leaf, -⟩ | ⟨-, level, set, same, sized, ⟨none, isLsmt⟩ |
      ⟨compaction, isNext, -, -, -, nextSubset, isLsmt⟩⟩
  · rw [notLeaf] at leaf
    cases leaf
  · refine ⟨judged, sameLeaf.trans inv.leaf, ?_, inv.full, ?_⟩
    · rw [isLsmt]
      refine ⟨?_, ?_, ?_⟩
      · simp only [same.files]
        exact inv.bounded.limited
      · exact fun place isPlace => inv.bounded.seekable place (same.seek place isPlace)
      · intro due
        simp only [same.score] at due
        obtain ⟨other, isOther, score⟩ := inv.bounded.scored due
        cases (sized due).symm.trans isOther
        exact ⟨level, rfl, by simpa only [same.files, same.score] using score⟩
    · intro scheduled
      obtain ⟨bottom, isLast, inside, several⟩ := inv.waiting scheduled
      refine ⟨bottom, isLast, inside, ?_⟩
      simpa only [isLsmt, same.files] using several
  · have setNumbered := inv.judged.numbered.of_same same
    have numbered : Numbered { set with compactLevel := some level } := setNumbered
    have below := RootLsmt.nextCompaction_below inv.bounded limited inv.leaf isNext
    obtain ⟨written, writes, length⟩ := @RootLsmt.compacted_length config guards
      { set with compactLevel := some level } compaction numbered
      (by simpa only [same.files] using nextSubset)
    refine ⟨judged, sameLeaf.trans inv.leaf, ?_, inv.full, ?_⟩
    · rw [isLsmt]
      apply Bounded.finalize
      · intro place beyond
        have apart : place ≠ compaction.level + 1 := by
          rintro rfl
          push_cast at beyond
          omega
        have unread : unreadLevels set.files (some compaction) place = [] := by
          simp [unreadLevels, same.files, inv.bounded.limited place beyond]
        have emptied := length place
        rw [if_neg apart, unread] at emptied
        exact List.length_eq_zero_iff.mp emptied
      · rw [RootLsmt.compacted_seek]
        exact fun place isPlace => inv.bounded.seekable place (same.seek place isPlace)
    · intro scheduled
      obtain ⟨bottom, isLast, inside, several⟩ := inv.waiting scheduled
      refine ⟨bottom, isLast, inside, ?_⟩
      have isBottom := inv.bottom_eq isLast inside
        (List.ne_nil_of_length_pos (Nat.zero_lt_one.trans several))
      have kept := left scheduled
      simp only [RootLsmt.bottomLeft, isBottom, isNext, Option.elim_some] at kept
      rw [isLsmt]
      refine kept.trans_le (Nat.le_trans ?_ (length bottom).ge)
      simp only [same.files, same.tables] at writes ⊢
      apply Nat.add_le_add_left
      by_cases target : compaction.level + 1 = bottom
      · rw [if_pos target.symm]
        split
        · rename_i sure
          exact writes sure.2
        · exact Nat.zero_le _
      · rw [if_neg (fun both => target both.1)]
        exact Nat.zero_le _

theorem backgroundCall {guards : List Slice} {root : RootLsmt}
    (inv : Steady config state) (limited : 0 < config.levelLimit)
    (grounded : state.Grounded config (.backgroundCall guards))
    (called : state.root.backgroundCall config guards = some root) :
    Steady config (answered state.root
      (state.root.lsmt.doCompact config state.root.isLeaf guards)
      { state with root := root }) := by
  have judged : root.Judged := inv.judged.backgroundCall called
  obtain ⟨answer, lsmt, done, rfl, sameLeaf⟩ := RootLsmt.backgroundCall_lsmt called
  have isOverflow := RootLsmt.doCompact_answer inv.leaf done
  obtain ⟨overflows, keeps⟩ := grounded rfl
  rw [done]
  cases answer with
  | kOverflow =>
      have leaf := isOverflow.mp rfl
      obtain ⟨due, several⟩ := overflows leaf
      rcases RootLsmt.doCompact_cases done with ⟨-, -, isLsmt⟩ | ⟨notLeaf, -⟩
      · exact inv.overflow judged sameLeaf isLsmt leaf due several
      · rw [leaf] at notLeaf
        cases notLeaf
  | kOk =>
      have notLeaf : state.root.leafOverflows config = false := by
        rw [← Bool.not_eq_true, ← isOverflow]
        simp
      exact inv.compacted judged limited sameLeaf (keeps notLeaf) notLeaf done

theorem step {act : RootLsmt.Act} (inv : Steady config state)
    (atLeastTwo : 2 ≤ config.levelLimit) (grounded : state.Grounded config act)
    (stepped : state.step config act = some after) : Steady config after := by
  have limited : 0 < config.levelLimit := by omega
  rw [LeafRoot.step] at stepped
  split at stepped
  · obtain ⟨root, taken, rfl⟩ := Option.map_eq_some_iff.mp stepped
    cases act with
    | switchMem schedules =>
        exact inv.grows (inv.judged.step taken) (RootLsmt.switchMem_grows inv.bounded taken)
    | startFlush onCompaction =>
        exact inv.grows (inv.judged.step taken) (RootLsmt.startFlush_grows inv.bounded taken)
    | commitFlush onCompaction number entries =>
        exact inv.grows (inv.judged.step taken)
          (RootLsmt.commitFlush_grows inv.bounded limited taken)
    | readSample key =>
        exact inv.grows (inv.judged.step taken)
          (RootLsmt.readSample_grows inv.bounded atLeastTwo taken)
    | backgroundCall guards => exact inv.backgroundCall limited grounded taken
    | _ => simp [RootLsmt.Act.onLeaf] at *
  · cases stepped

end Steady

/-- In every run under a leaf root in which compactions that overflow were asked for
by a size and find several files in the bottom level, and later compactions leave
several of them, every kOverflow is the answer to a full level and the bulk load it
schedules can run. -/
theorem overflowsFull_of_reaches (atLeastTwo : 2 ≤ config.levelLimit)
    (reaches : Lib.Reaches (step config) (Grounded config) initial state) :
    OverflowsFull state := by
  have steady : Steady config state := by
    refine reaches.invariant (Steady config) (Steady.initial config) ?_
    intro before act after inv grounded stepped
    exact inv.step atLeastTwo grounded stepped
  exact steady.overflowsFull atLeastTwo

/-- Options whose tables are as large as their values, with values in megabytes. -/
def largeTables (levelLimit : Int) : LsmtConfig where
  levelLimit := levelLimit
  maxFileSize := 2097152
  outputFileSize := 2097152
  buildingSize := fun entries => 1048576 * (entries.map (fun entry =>
    entry.value.length)).sum
  tableSize := fun entries => 100 + 1048576 * (entries.map (fun entry =>
    entry.value.length)).sum
  elsewhere := fun _ => 0

/-- Two tables of 60 megabytes fill level 2, and the bulk load is scheduled. -/
theorem two_large_tables_overflow :
    2 ≤ (largeTables 3).levelLimit ∧
      ∃ state, Lib.run (step (largeTables 3))
          (fun state act => decide (state.Grounded (largeTables 3) act)) initial
          (RootLsmt.flushOne 1 ⟨⟨[9], 2, .kTypeValue⟩, List.replicate 60 7⟩ ++
            RootLsmt.flushOne 2 ⟨⟨[5], 3, .kTypeValue⟩, List.replicate 60 7⟩ ++
            [.backgroundCall []]) = some state ∧
        state.flushScheduled = true ∧ OverflowsFull state := by
  refine ⟨by decide, ?_⟩
  have ran : (Lib.run (step (largeTables 3))
      (fun state act => decide (state.Grounded (largeTables 3) act)) initial
      (RootLsmt.flushOne 1 ⟨⟨[9], 2, .kTypeValue⟩, List.replicate 60 7⟩ ++
        RootLsmt.flushOne 2 ⟨⟨[5], 3, .kTypeValue⟩, List.replicate 60 7⟩ ++
        [.backgroundCall []])).map (fun state => state.flushScheduled) = some true := by
    decide +kernel
  obtain ⟨state, isState, scheduled⟩ := Option.map_eq_some_iff.mp ran
  refine ⟨state, isState, scheduled,
    @overflowsFull_of_reaches (largeTables 3) state (by decide) ?_⟩
  exact Lib.reaches_of_run (fun _ _ passed => of_decide_eq_true passed) isState

/-- A table of 60 megabytes in level 2 makes it the best level, although it is not
full; a read sample of another key asks for a compaction of level 0, and `DoCompact`
answers kOverflow. -/
theorem readSample_overflows :
    ¬ ∀ config state, 2 ≤ config.levelLimit →
      Lib.Reaches (step config) (fun _ _ => True) initial state →
        OverflowsFull state := by
  intro claim
  have ran : (Lib.run (step (largeTables 3)) (fun _ _ => true) initial
      (RootLsmt.flushOne 1 ⟨⟨[9], 2, .kTypeValue⟩, List.replicate 60 7⟩ ++
        RootLsmt.flushOne 2 ⟨⟨[1], 3, .kTypeValue⟩, []⟩ ++
        RootLsmt.flushOne 3 ⟨⟨[1], 4, .kTypeValue⟩, []⟩ ++
        RootLsmt.flushOne 4 ⟨⟨[1], 5, .kTypeValue⟩, []⟩ ++
        [.readSample ⟨[1], 9, .kTypeValue⟩, .backgroundCall []])).map
        (fun state => state.overflowed.any (fun answer =>
          decide (levelScore answer.1 answer.2 < 1))) = some true := by
    decide +kernel
  obtain ⟨state, isState, some⟩ := Option.map_eq_some_iff.mp ran
  obtain ⟨answer, member, low⟩ := List.any_eq_true.mp some
  have full := (claim (largeTables 3) state (by decide)
    (Lib.reaches_of_run (fun _ _ _ => trivial) isState)).full answer member
  exact absurd full (not_le.mpr (of_decide_eq_true low))

end LeafRoot

end AhaTree
