import AhaTree.VisibleMap
import AhaTree.Lib.Bisect
import Mathlib.Data.List.Sort
import Mathlib.Data.Rat.Defs
import Mathlib.Algebra.Order.Ring.Rat
import Mathlib.Logic.Function.Basic
import Mathlib.Tactic.NormNum

/-!
# Levels of table files

The state of a `LevelDBLSMT`, the cached decision which level to compact, and
the choice of the files that a compaction reads.  Level 0 holds files in the
order they were added, every deeper level is meant to be sorted; nothing of
that is assumed here.
-/

namespace AhaTree

def kNumLevels : Nat := 7

def kL0CompactionTrigger : Nat := 4

def kMaxMemCompactLevel : Nat := 2

abbrev Levels := Nat → List FileMetaData

/-- The options an LSMT is built with, and its own `output_file_size`.  The sizes of
tables are those of the table builder: before `Finish`, and after it.  `flush_id_` is
shared: `elsewhere` says how many numbers others take from it before this LSMT gets its
next file number, by the number that it got last. -/
structure LsmtConfig where
  levelLimit : Int
  maxFileSize : Nat
  outputFileSize : Nat
  buildingSize : List Entry → Nat
  tableSize : List Entry → Nat
  elsewhere : Nat → Nat

/-- The fields of a standalone `LevelDBLSMT`, with the table files on disk.  In
`compactLevel` and `fileToCompactLevel`, `none` stands for -1; `none` as a
pointer is the empty string. -/
structure Lsmt where
  files : Levels
  compactPointer : Nat → Option InternalKey
  flushPointer : Nat → Option InternalKey
  compactLevel : Option Nat
  compactionScore : ℚ
  fileNumToCompact : Nat
  fileToCompactLevel : Option Nat
  obsoleteFiles : List Nat
  allowedSeeks : Nat → Int
  tables : Nat → List Entry
  fileId : Nat

def Lsmt.empty : Lsmt where
  files := fun _ => []
  compactPointer := fun _ => none
  flushPointer := fun _ => none
  compactLevel := none
  compactionScore := -1
  fileNumToCompact := 0
  fileToCompactLevel := none
  obsoleteFiles := []
  allowedSeeks := fun _ => 0
  tables := fun _ => []
  fileId := 0

/-! ## File numbers -/

namespace LsmtConfig

/-- The number of the table that `CompactMemTable` builds. -/
def flushNumber (config : LsmtConfig) (number : Nat) : Nat :=
  number + config.elsewhere number + 1

/-- `OpenCompactionOutputFile` takes two numbers and keeps the second. -/
def outputNumber (config : LsmtConfig) (number : Nat) : Nat :=
  number + config.elsewhere number + 2

/-- The number of the last of so many outputs. -/
def numberAfter (config : LsmtConfig) (number : Nat) : Nat → Nat
  | 0 => number
  | count + 1 => config.numberAfter (config.outputNumber number) count

theorem lt_flushNumber (config : LsmtConfig) (number : Nat) :
    number < config.flushNumber number := by
  unfold flushNumber
  omega

theorem lt_outputNumber (config : LsmtConfig) (number : Nat) :
    number < config.outputNumber number := by
  unfold outputNumber
  omega

theorem le_numberAfter (config : LsmtConfig) (number count : Nat) :
    number ≤ config.numberAfter number count := by
  induction count generalizing number with
  | zero => exact le_rfl
  | succ count ih => exact (config.lt_outputNumber number).le.trans (ih _)

end LsmtConfig

/-! ## Sizes and scores -/

def totalFileSize (files : List FileMetaData) : Nat :=
  (files.map FileMetaData.fileSize).sum

/-- `MaxBytesForLevel`, for levels above 0. -/
def maxBytesForLevel (level : Nat) : Nat :=
  10 * 1048576 * 10 ^ (level - 1)

def LsmtConfig.maxGrandParentOverlapBytes (config : LsmtConfig) : Nat :=
  10 * config.maxFileSize

def LsmtConfig.expandedCompactionByteSizeLimit (config : LsmtConfig) : Nat :=
  25 * config.maxFileSize

/-- The score that `Finalize` gives a level, without the rounding of `double`. -/
def levelScore (level : Nat) (files : List FileMetaData) : ℚ :=
  if level = 0 then files.length / kL0CompactionTrigger
  else totalFileSize files / maxBytesForLevel level

/-- The deepest of the first `count` levels that has a file. -/
def deepestLevel (levels : Levels) : Nat → Option Nat
  | 0 => none
  | level + 1 => if levels level = [] then deepestLevel levels level else some level

def getBottomLevel (levels : Levels) : Option Nat :=
  deepestLevel levels kNumLevels

theorem deepestLevel_spec (levels : Levels) (count : Nat) :
    match deepestLevel levels count with
    | none => ∀ level < count, levels level = []
    | some bottom => bottom < count ∧ levels bottom ≠ [] ∧
        ∀ level < count, bottom < level → levels level = [] := by
  induction count with
  | zero =>
      intro level less
      exact absurd less (Nat.not_lt_zero _)
  | succ count ih =>
      rw [deepestLevel]
      by_cases empty : levels count = []
      · rw [if_pos empty]
        cases deepest : deepestLevel levels count with
        | none =>
            simp only [deepest] at ih
            intro level less
            rcases Nat.lt_succ_iff_lt_or_eq.mp less with below | rfl
            · exact ih level below
            · exact empty
        | some bottom =>
            simp only [deepest] at ih
            obtain ⟨inside, filled, deeper⟩ := ih
            refine ⟨Nat.lt_succ_of_lt inside, filled, ?_⟩
            intro level less below
            rcases Nat.lt_succ_iff_lt_or_eq.mp less with smaller | rfl
            · exact deeper level smaller below
            · exact empty
      · rw [if_neg empty]
        exact ⟨Nat.lt_succ_self _, empty, fun level less above => by omega⟩

theorem getBottomLevel_eq_none_iff (levels : Levels) :
    getBottomLevel levels = none ↔ ∀ level < kNumLevels, levels level = [] := by
  have spec := deepestLevel_spec levels kNumLevels
  rw [getBottomLevel]
  cases bottom : deepestLevel levels kNumLevels with
  | none =>
      rw [bottom] at spec
      exact ⟨fun _ => spec, fun _ => rfl⟩
  | some level =>
      rw [bottom] at spec
      exact ⟨fun isNone => absurd isNone (by simp),
        fun allEmpty => absurd (allEmpty level spec.1) spec.2.1⟩

theorem getBottomLevel_eq_some {levels : Levels} {bottom : Nat}
    (isBottom : getBottomLevel levels = some bottom) :
    bottom < kNumLevels ∧ levels bottom ≠ [] ∧
      ∀ level < kNumLevels, bottom < level → levels level = [] := by
  have spec := deepestLevel_spec levels kNumLevels
  rw [getBottomLevel] at isBottom
  rw [isBottom] at spec
  exact spec

/-- The loop of `Finalize` over the first `count` levels. -/
def bestLevel (levels : Levels) : Nat → Option Nat × ℚ
  | 0 => (none, -1)
  | level + 1 =>
      let best := bestLevel levels level
      let score := levelScore level (levels level)
      if best.2 < score then (some level, score) else best

/-- How many levels `Finalize` looks at. -/
def levelCount (levels : Levels) : Nat :=
  match getBottomLevel levels with
  | none => 0
  | some level => level + 1

namespace Lsmt

def finalize (lsmt : Lsmt) : Lsmt :=
  let best := bestLevel lsmt.files (levelCount lsmt.files)
  { lsmt with compactLevel := best.1, compactionScore := best.2 }

def needsCompaction (lsmt : Lsmt) : Bool :=
  decide (1 ≤ lsmt.compactionScore) || lsmt.fileToCompactLevel.isSome

end Lsmt

/-! ## Files and ranges -/

/-- `FindFile`: the first file whose largest key is not below the key. -/
def findFile (files : List FileMetaData) (key : InternalKey) : Nat :=
  match Lib.bisect (fun index => match files[index]? with
      | some file => if (file.largest.compare key).isLT then .gt else .lt
      | none => .lt) files.length 0 files.length with
  | .hit index => index
  | .gap index => index

/-- `OverlapInLevel`: in level 0 every file is looked at, deeper levels are
searched. -/
def overlapInLevel (levels : Levels) (level : Nat) (smallest largest : Slice) : Bool :=
  if level = 0 then
    (levels 0).any (fun file => !((Slice.compare smallest file.limit).isGT ||
      (Slice.compare largest file.start).isLT))
  else
    match (levels level)[findFile (levels level)
        ⟨smallest, kMaxSequenceNumber, kValueTypeForSeek⟩]? with
    | none => false
    | some file => !(Slice.compare largest file.start).isLT

/-- One pass of `GetOverlappingInputs` over a level: the files in the range, or
a wider range to start again with. -/
inductive OverlapPass where
  | done (inputs : List FileMetaData)
  | widen (low up : Slice)
  deriving DecidableEq, Repr

def overlapPass (restarts : Bool) (low up : Slice) : List FileMetaData → OverlapPass
  | [] => .done []
  | file :: files =>
      if (Slice.compare file.limit low).isLT then overlapPass restarts low up files
      else if (Slice.compare file.start up).isGT then overlapPass restarts low up files
      else if restarts && (Slice.compare file.start low).isLT then .widen file.start up
      else if restarts && (Slice.compare file.limit up).isGT then .widen low file.limit
      else match overlapPass restarts low up files with
        | .done inputs => .done (file :: inputs)
        | .widen low up => .widen low up

/-- The passes of `GetOverlappingInputs`; every new one has a wider range. -/
def overlapPasses (restarts : Bool) (files : List FileMetaData) :
    Nat → Slice → Slice → List FileMetaData
  | 0, _, _ => []
  | fuel + 1, low, up =>
      match overlapPass restarts low up files with
      | .done inputs => inputs
      | .widen low up => overlapPasses restarts files fuel low up

def getOverlappingInputs (levels : Levels) (level : Nat) (low up : InternalKey) :
    List FileMetaData :=
  overlapPasses (level == 0) (levels level) (2 * (levels level).length + 1)
    low.userKey up.userKey

/-- `GetRange`; callers have at least one file. -/
def getRange : List FileMetaData → InternalKey × InternalKey
  | [] => (⟨[], 0, .kTypeDeletion⟩, ⟨[], 0, .kTypeDeletion⟩)
  | first :: files => files.foldl (fun range file =>
      (if (file.smallest.compare range.1).isLT then file.smallest else range.1,
        if (file.largest.compare range.2).isGT then file.largest else range.2))
      (first.smallest, first.largest)

/-- One round of `FindSmallestBoundaryFile`. -/
def nearerBoundary (largest : InternalKey) (found : Option FileMetaData)
    (file : FileMetaData) : Option FileMetaData :=
  if (file.smallest.compare largest).isGT && file.start == largest.userKey then
    match found with
    | none => some file
    | some other =>
        if (file.smallest.compare other.smallest).isLT then some file else found
  else found

/-- `FindSmallestBoundaryFile`: the first file behind the key that starts with
the same user key. -/
def findSmallestBoundaryFile (levelFiles : List FileMetaData) (largest : InternalKey) :
    Option FileMetaData :=
  levelFiles.foldl (nearerBoundary largest) none

/-- The loop of `AddBoundaryInputs`; the key moves behind the file it has added,
so no file is added twice. -/
def addBoundaryLoop (levelFiles : List FileMetaData) :
    Nat → InternalKey → List FileMetaData → List FileMetaData
  | 0, _, files => files
  | fuel + 1, largest, files =>
      match findSmallestBoundaryFile levelFiles largest with
      | none => files
      | some file => addBoundaryLoop levelFiles fuel file.largest (files ++ [file])

def addBoundaryInputs (levelFiles files : List FileMetaData) : List FileMetaData :=
  match files with
  | [] => []
  | _ :: _ => addBoundaryLoop levelFiles levelFiles.length (getRange files).2 files

/-! ## The level of a flushed memtable -/

/-- The loop of `PickLevelForMemTableOutput`. -/
def pickDeeper (config : LsmtConfig) (levels : Levels) (smallest largest : Slice) :
    Nat → Nat → Nat
  | 0, level => level
  | fuel + 1, level =>
      if overlapInLevel levels (level + 1) smallest largest then level
      else if level + 2 < kNumLevels ∧ config.maxGrandParentOverlapBytes <
          totalFileSize (getOverlappingInputs levels (level + 2)
            ⟨smallest, kMaxSequenceNumber, kValueTypeForSeek⟩
            ⟨largest, 0, .kTypeDeletion⟩) then level
      else pickDeeper config levels smallest largest fuel (level + 1)

def pickLevelForMemTableOutput (config : LsmtConfig) (levels : Levels)
    (smallest largest : Slice) : Nat :=
  let level :=
    if overlapInLevel levels 0 smallest largest then 0
    else pickDeeper config levels smallest largest
      (min (kMaxMemCompactLevel : Int) config.levelLimit).toNat 0
  if 0 < config.levelLimit ∧ config.levelLimit ≤ level then 0 else level

/-! ## Read samples -/

/-- `ForEachOverlapping`: the files a read of the key looks at, newest first in
level 0, then one file in each level above the bottom one. -/
def overlappingFiles (levels : Levels) (key : InternalKey) :
    List (Nat × FileMetaData) :=
  let top := (levels 0).filter (fun file =>
    (Slice.compare key.userKey file.start).isGE &&
      (Slice.compare key.userKey file.limit).isLE)
  let deeper := (List.range' 1 ((getBottomLevel levels).getD 0 - 1)).filterMap
    (fun level => match (levels level)[findFile (levels level) key]? with
      | none => none
      | some file =>
          if (Slice.compare key.userKey file.start).isLT then none
          else some (level, file))
  (top.insertionSort (fun newer older => older.number ≤ newer.number)).map
    (fun file => (0, file)) ++ deeper

namespace Lsmt

/-- `UpdateStats`. -/
def updateStats (lsmt : Lsmt) (level : Nat) (file : FileMetaData) : Bool × Lsmt :=
  let seeks := lsmt.allowedSeeks file.number - 1
  let counted := { lsmt with
    allowedSeeks := Function.update lsmt.allowedSeeks file.number seeks }
  if seeks ≤ 0 ∧ lsmt.fileToCompactLevel = none then
    (true, { counted with
      fileNumToCompact := file.number
      fileToCompactLevel := some level })
  else (false, counted)

def recordReadSample (lsmt : Lsmt) (key : InternalKey) : Bool × Lsmt :=
  match overlappingFiles lsmt.files key with
  | (level, file) :: _ :: _ => lsmt.updateStats level file
  | _ => (false, lsmt)

end Lsmt

/-! ## The inputs of a compaction -/

/-- A `LevelDBCompaction` with its inputs. -/
structure Compaction where
  level : Nat
  inputs : List FileMetaData
  nextInputs : List FileMetaData
  grandparents : List FileMetaData
  deriving DecidableEq, Repr

namespace Lsmt

/-- The growth of the inputs in `SetupOtherInputs`: more files of the level, if
that takes no more files of the next one. -/
def expandInputs (config : LsmtConfig) (levels : Levels) (level : Nat)
    (inputs nextInputs : List FileMetaData) :
    List FileMetaData × List FileMetaData :=
  if nextInputs.isEmpty then (inputs, nextInputs)
  else
    let all := getRange (inputs ++ nextInputs)
    let expanded := addBoundaryInputs (levels level)
      (getOverlappingInputs levels level all.1 all.2)
    if inputs.length < expanded.length ∧
        totalFileSize nextInputs + totalFileSize expanded <
          config.expandedCompactionByteSizeLimit then
      let range := getRange expanded
      let nextExpanded := addBoundaryInputs (levels (level + 1))
        (getOverlappingInputs levels (level + 1) range.1 range.2)
      if nextExpanded.length = nextInputs.length then (expanded, nextExpanded)
      else (inputs, nextInputs)
    else (inputs, nextInputs)

/-- `SetupOtherInputs`, with the new compaction pointer of the level. -/
def setupOtherInputs (config : LsmtConfig) (lsmt : Lsmt) (level : Nat)
    (chosen : List FileMetaData) : Compaction × Lsmt :=
  let inputs := addBoundaryInputs (lsmt.files level) chosen
  let range := getRange inputs
  let nextInputs := addBoundaryInputs (lsmt.files (level + 1))
    (getOverlappingInputs lsmt.files (level + 1) range.1 range.2)
  let grown := expandInputs config lsmt.files level inputs nextInputs
  let all := getRange (grown.1 ++ grown.2)
  let grandparents :=
    if (config.levelLimit < 0 ∧ level + 2 < kNumLevels) ∨
        (0 < config.levelLimit ∧ level + 2 < config.levelLimit) then
      getOverlappingInputs lsmt.files (level + 2) all.1 all.2
    else []
  (⟨level, grown.1, grown.2, grandparents⟩,
    { lsmt with compactPointer :=
        Function.update lsmt.compactPointer level (some (getRange grown.1).2) })

/-- What ends the process inside `DoCompact`. -/
inductive Fault where
  /-- `assert(compact_level_ >= 0)`. -/
  | noLevel
  /-- `assert(level + 1 < config::kNumLevels)`. -/
  | lastLevel
  /-- `files_[level][0]` of a level without files. -/
  | emptyLevel
  deriving DecidableEq, Repr

/-- The file that a compaction by size starts with: the first one behind the
compaction pointer, or the first one of all. -/
def firstBehind (lsmt : Lsmt) (level : Nat) : Option FileMetaData :=
  match (lsmt.files level).find? (fun file =>
      match lsmt.compactPointer level with
      | none => true
      | some pointer => (file.largest.compare pointer).isGT) with
  | some file => some file
  | none => (lsmt.files level).head?

/-- The files of `inputs_[0]` with which `SetupOtherInputs` starts. -/
def overlapTop (lsmt : Lsmt) (level : Nat) (file : FileMetaData) : List FileMetaData :=
  if level = 0 then
    getOverlappingInputs lsmt.files 0 (getRange [file]).1 (getRange [file]).2
  else [file]

/-- `SetCompactionInputs` of a standalone LSMT.  Without a compaction the level
of the vanished seek target, or the given one, is all that is left. -/
def setCompactionInputs (config : LsmtConfig) (lsmt : Lsmt) (level : Nat) :
    Except Fault ((Nat ⊕ Compaction) × Lsmt) :=
  if 1 ≤ lsmt.compactionScore then
    if kNumLevels ≤ level + 1 then .error .lastLevel
    else
      match lsmt.firstBehind level with
      | none => .error .emptyLevel
      | some file =>
          let (compaction, after) :=
            setupOtherInputs config lsmt level (lsmt.overlapTop level file)
          .ok (.inr compaction, after)
  else
    match lsmt.fileToCompactLevel with
    | none => .ok (.inl level, lsmt)
    | some seekLevel =>
        let taken := { lsmt with fileToCompactLevel := none }
        match (lsmt.files seekLevel).find? (fun file =>
            file.number == lsmt.fileNumToCompact) with
        | none => .ok (.inl seekLevel, taken)
        | some file =>
            if kNumLevels ≤ seekLevel + 1 then .error .lastLevel
            else
              let (compaction, after) :=
                setupOtherInputs config taken seekLevel (taken.overlapTop seekLevel file)
              .ok (.inr compaction, after)

end Lsmt

end AhaTree
