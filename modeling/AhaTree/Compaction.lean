import AhaTree.Lsmt

/-!
# Compactions

What a compaction writes and how its result is installed.  The merged input is
read once; an entry is dropped when an entry of the same user key stands before
it, or when it is a deletion and no deeper file covers its key.
-/

namespace AhaTree

namespace FileMetaData

/-- The description of a finished table.  Its entries ascend, so the last key is
the largest one; the test only serves the field `ordered`. -/
def ofEntries (config : LsmtConfig) (number : Nat) (first last : Entry)
    (entries : List Entry) : FileMetaData where
  number := number
  fileSize := config.tableSize entries
  fileEntry := entries.length
  smallest := first.key
  largest := if first.userKey ≤ last.userKey then last.key else first.key
  ordered := by
    split
    · assumption
    · exact le_refl _

end FileMetaData

/-- The file for a list of entries, if there are any. -/
def tableFile (config : LsmtConfig) (number : Nat) (entries : List Entry) :
    Option FileMetaData :=
  match entries with
  | [] => none
  | first :: _ =>
      some (.ofEntries config number first (entries.getLast?.getD first) entries)

/-! ## The compaction loop -/

/-- The state of the loop of `DoCompactionWorkImpl`: finished outputs, the open
one, and what `ShouldStopBefore` and `IsBaseLevelForKey` keep between calls (the
files they have not passed yet). -/
structure Work where
  outputs : List (List Entry)
  builder : Option (List Entry)
  currentUserKey : Option Slice
  lastSequence : Nat
  guardIndex : Nat
  grandparents : List FileMetaData
  seenKey : Bool
  overlappedBytes : Nat
  ahead : Levels

namespace Work

/-- `FinishCompactionOutputFile`. -/
def finish (work : Work) : Work :=
  match work.builder with
  | none => work
  | some entries => { work with outputs := work.outputs ++ [entries], builder := none }

/-- `ShouldStopBefore`. -/
def shouldStopBefore (config : LsmtConfig) (key : InternalKey) (work : Work) :
    Bool × Work :=
  let passes (file : FileMetaData) : Bool := (key.compare file.largest).isGT
  let overlapped := work.overlappedBytes +
    (if work.seenKey then totalFileSize (work.grandparents.takeWhile passes) else 0)
  let stops := decide (config.maxGrandParentOverlapBytes < overlapped)
  (stops, { work with
    grandparents := work.grandparents.dropWhile passes
    seenKey := true
    overlappedBytes := if stops then 0 else overlapped })

/-- `IsBaseLevelForKey` over the given levels. -/
def isBaseLevelForKey (key : Slice) : List Nat → Levels → Bool × Levels
  | [], ahead => (true, ahead)
  | level :: levels, ahead =>
      let rest := (ahead level).dropWhile (fun file =>
        (Slice.compare key file.limit).isGT)
      let moved := Function.update ahead level rest
      match rest with
      | file :: _ =>
          if (Slice.compare key file.start).isGE then (false, moved)
          else isBaseLevelForKey key levels moved
      | [] => isBaseLevelForKey key levels moved

/-- The levels that `IsBaseLevelForKey` looks at in a compaction of `level`. -/
def deeperLevels (level : Nat) : List Nat :=
  List.range' (level + 2) (kNumLevels - (level + 2))

/-- An entry of the same user key stands before this one; a new user key sets
the last sequence number back to the greatest one. -/
def hides (entry : Entry) (work : Work) : Bool :=
  work.currentUserKey == some entry.userKey &&
    decide (work.lastSequence < kMaxSequenceNumber)

/-- Whether the entry is dropped. -/
def drops (level : Nat) (entry : Entry) (work : Work) : Bool × Work :=
  let next := { work with
    currentUserKey := some entry.userKey
    lastSequence := entry.sequence }
  if work.hides entry then (true, next)
  else
    match entry.key.type with
    | .kTypeValue => (false, next)
    | .kTypeDeletion =>
        let (base, ahead) :=
          isBaseLevelForKey entry.userKey (deeperLevels level) work.ahead
        (base, { next with ahead := ahead })

/-- Move on to the next guard if the entry reaches it. -/
def passGuard (guards : List Slice) (entry : Entry) (work : Work) : Work :=
  match guards[work.guardIndex + 1]? with
  | none => work
  | some guard =>
      if (Slice.compare guard entry.userKey).isLE then
        { work.finish with guardIndex := work.guardIndex + 1 }
      else work

/-- Add the entry to the open output, and close that if it is big enough. -/
def add (config : LsmtConfig) (guards : List Slice) (entry : Entry) (work : Work) :
    Work :=
  let entries := work.builder.getD [] ++ [entry]
  let added := { work with builder := some entries }
  if guards.isEmpty && decide (config.outputFileSize ≤ config.buildingSize entries) then
    added.finish
  else added

/-- Close the open output if `ShouldStopBefore` says so. -/
def stopBefore (config : LsmtConfig) (key : InternalKey) (work : Work) : Work :=
  let (stops, work) := work.shouldStopBefore config key
  if stops then work.finish else work

/-- One round of the loop. -/
def round (config : LsmtConfig) (guards : List Slice) (level : Nat) (work : Work)
    (entry : Entry) : Work :=
  let (drop, work) := (work.stopBefore config entry.key).drops level entry
  if drop then work
  else (work.passGuard guards entry).add config guards entry

end Work

/-- The index of the first guard interval that holds the key. -/
def firstGuard (guards : List Slice) (key : Slice) : Nat :=
  (guards.takeWhile (fun guard => (Slice.compare guard key).isLE)).length - 1

/-- `DoCompactionWorkImpl`: the entries of each output file.  `guards` are the
pivots of the page, if it has any. -/
def doCompactionWorkImpl (config : LsmtConfig) (guards : List Slice)
    (compaction : Compaction) (levels : Levels) (input : List Entry) :
    List (List Entry) :=
  let start : Work := {
    outputs := []
    builder := none
    currentUserKey := none
    lastSequence := kMaxSequenceNumber
    guardIndex := (input.head?.map (fun entry => firstGuard guards entry.userKey)).getD 0
    grandparents := compaction.grandparents
    seenKey := false
    overlappedBytes := 0
    ahead := levels }
  (input.foldl (Work.round config guards compaction.level) start).finish.outputs

/-- `MakeInputIterator`: the files of level 0 are merged one by one, those of a
deeper level form one stream. -/
def inputStreams (tables : Nat → List Entry) (compaction : Compaction) :
    List (List Entry) :=
  let contents (file : FileMetaData) : List Entry := tables file.number
  (if compaction.level = 0 then compaction.inputs.map contents
    else [compaction.inputs.flatMap contents]) ++
      [compaction.nextInputs.flatMap contents]

/-- What the merging iterator over the inputs delivers. -/
def mergedInput (tables : Nat → List Entry) (compaction : Compaction) : List Entry :=
  let streams := inputStreams tables compaction
  Lib.merge Entry.before streams.flatten.length streams

/-! ## Installing the result -/

/-- `BySmallestKey`. -/
def bySmallestKey (left right : FileMetaData) : Bool :=
  match left.smallest.compare right.smallest with
  | .lt => true
  | .gt => false
  | .eq => decide (left.number < right.number)

/-- `FileSet::insert`. -/
def insertFile (file : FileMetaData) : List FileMetaData → List FileMetaData
  | [] => [file]
  | first :: files =>
      if bySmallestKey file first then file :: first :: files
      else if bySmallestKey first file then first :: insertFile file files
      else first :: files

/-- The loop of `ApplyFileChanges` that puts the added files between those of
the level; `MaybeAddFile` leaves out the deleted ones. -/
def placeFiles (deleted : List Nat) :
    List FileMetaData → List FileMetaData → List FileMetaData
  | [], base => base.filter (fun file => !deleted.contains file.number)
  | added :: rest, base =>
      (base.takeWhile (fun file =>
        (file.largest.compare added.smallest).isLT) ++ [added]).filter
          (fun file => !deleted.contains file.number) ++
        placeFiles deleted rest (base.dropWhile (fun file =>
          (file.largest.compare added.smallest).isLT))

namespace Lsmt

def applyFileChanges (level : Nat) (added : List FileMetaData) (deleted : List Nat)
    (lsmt : Lsmt) : Lsmt :=
  { lsmt with
    files := Function.update lsmt.files level
      (placeFiles deleted (added.foldr insertFile []) (lsmt.files level))
    flushPointer := if lsmt.files level = [] then
      Function.update lsmt.flushPointer level none else lsmt.flushPointer }

/-- The output files: every one takes its number when it is opened. -/
def outputFiles (config : LsmtConfig) : Nat → List (List Entry) → List FileMetaData
  | _, [] => []
  | number, entries :: outputs =>
      (tableFile config (config.outputNumber number) entries).toList ++
        outputFiles config (config.outputNumber number) outputs

/-- The outputs are written to disk, each under its number. -/
def storeOutputs (config : LsmtConfig) :
    Nat → List (List Entry) → (Nat → List Entry) → Nat → List Entry
  | _, [], tables => tables
  | number, entries :: outputs, tables =>
      storeOutputs config (config.outputNumber number) outputs
        (Function.update tables (config.outputNumber number) entries)

/-- The tables of the outputs are on disk. -/
def writeOutputs (config : LsmtConfig) (outputs : List (List Entry)) (lsmt : Lsmt) :
    Lsmt :=
  { lsmt with
    fileId := config.numberAfter lsmt.fileId outputs.length
    tables := storeOutputs config lsmt.fileId outputs lsmt.tables }

/-- `allowed_seeks` of a file that a compaction has written. -/
def seeksAllowed (file : FileMetaData) : Int :=
  max 100 (file.fileSize / 16384 : Nat)

/-- `InstallCompactionResults` to the level or to the next one. -/
def installCompactionResults (compaction : Compaction) (target : Nat)
    (added : List FileMetaData) (lsmt : Lsmt) : Lsmt :=
  let deleted := compaction.inputs.map FileMetaData.number
  let nextDeleted := compaction.nextInputs.map FileMetaData.number
  let seen := { lsmt with
    obsoleteFiles := lsmt.obsoleteFiles ++ deleted ++ nextDeleted
    allowedSeeks := added.foldl (fun (seeks : Nat → Int) (file : FileMetaData) =>
      Function.update seeks file.number (seeksAllowed file)) lsmt.allowedSeeks }
  if target = compaction.level then
    seen.applyFileChanges target added deleted
  else
    (seen.applyFileChanges compaction.level [] deleted).applyFileChanges
      target added nextDeleted

/-- `MakeInputIterator`, `DoCompactionWorkImpl` and `InstallCompactionResults`. -/
def compact (config : LsmtConfig) (guards : List Slice) (compaction : Compaction)
    (target : Nat) (lsmt : Lsmt) : Lsmt :=
  let outputs := doCompactionWorkImpl config guards compaction lsmt.files
    (mergedInput lsmt.tables compaction)
  (lsmt.writeOutputs config outputs).installCompactionResults compaction target
    (outputFiles config lsmt.fileId outputs)

/-- `IsTrivialMove(-1)`. -/
def isTrivialMove (config : LsmtConfig) (compaction : Compaction) : Bool :=
  compaction.inputs.length == 1 && compaction.nextInputs.isEmpty &&
    decide (totalFileSize compaction.grandparents ≤ config.maxGrandParentOverlapBytes)

def trivialMove (compaction : Compaction) (lsmt : Lsmt) : Lsmt :=
  (lsmt.applyFileChanges (compaction.level + 1) (compaction.inputs.take 1) []
    ).applyFileChanges compaction.level []
      ((compaction.inputs.take 1).map FileMetaData.number)

inductive OpState where
  | kOk
  | kOverflow
  deriving DecidableEq, Repr

/-- The level to compact is the last one that the limit allows. -/
def overflows (config : LsmtConfig) (level : Nat) : Bool :=
  decide (0 < config.levelLimit ∧ config.levelLimit - 1 ≤ level)

/-- `DoCompact` with the root page: whether it is a leaf, and its pivots. -/
def doCompact (config : LsmtConfig) (isLeaf : Bool) (guards : List Slice)
    (lsmt : Lsmt) : Except Fault (OpState × Lsmt) :=
  match lsmt.compactLevel with
  | none => .error .noLevel
  | some level =>
      if overflows config level && isLeaf then
        .ok (.kOverflow, { lsmt with compactionScore := -1, compactLevel := none })
      else
        match lsmt.setCompactionInputs config level with
        | .error fault => .error fault
        | .ok (.inl left, after) => .ok (.kOk, { after with compactLevel := some left })
        | .ok (.inr compaction, after) =>
            let set := { after with compactLevel := some compaction.level }
            if compaction.inputs.isEmpty then .ok (.kOk, set)
            else
              let done :=
                if isTrivialMove config compaction then set.trivialMove compaction
                else set.compact config guards compaction (compaction.level + 1)
              .ok (if overflows config level then .kOverflow else .kOk, done.finalize)

/-! ## The other operations on the root LSMT -/

/-- The part of `AddFile` before the decision: deeper levels are kept sorted. -/
def placeFile (level : Nat) (file : FileMetaData) (lsmt : Lsmt) : Lsmt :=
  let seeks : Int := (file.fileSize / 16384 : Nat)
  let seen := { lsmt with
    allowedSeeks := Function.update lsmt.allowedSeeks file.number seeks }
  if 0 < level then seen.applyFileChanges level [file] []
  else { seen with
    files := Function.update seen.files level (seen.files level ++ [file]) }

/-- `AddFile` of a standalone LSMT. -/
def addFile (level : Nat) (file : FileMetaData) (lsmt : Lsmt) : Lsmt :=
  (lsmt.placeFile level file).finalize

/-- `FinalizeRetrieval`. -/
def finalizeRetrieval (level : Nat) (retrieved : List FileMetaData) (lsmt : Lsmt) :
    Lsmt :=
  if getBottomLevel lsmt.files = none then lsmt
  else { lsmt with
    files := Function.update lsmt.files level ((lsmt.files level).filter (fun file =>
      !(retrieved.map FileMetaData.number).contains file.number))
    compactPointer := (retrieved.getLast?.map (fun last =>
      Function.update lsmt.compactPointer level (some last.largest))).getD
        lsmt.compactPointer }

/-- `CompactBottomLevel` with a page. -/
def compactBottomLevel (config : LsmtConfig) (guards : List Slice) (lsmt : Lsmt) :
    Lsmt :=
  match getBottomLevel lsmt.files with
  | none => lsmt
  | some level =>
      lsmt.compact config guards ⟨level, lsmt.files level, [], []⟩ level

/-- `ClearBottomLevelFiles`. -/
def clearBottomLevelFiles (lsmt : Lsmt) : Lsmt :=
  match getBottomLevel lsmt.files with
  | none => lsmt
  | some level => { lsmt with files := Function.update lsmt.files level [] }

end Lsmt

end AhaTree
