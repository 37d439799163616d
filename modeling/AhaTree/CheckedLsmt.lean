import AhaTree.LeafMerge

/-!
# An LSMT that checks the order of its levels

The operations of `LevelDBLSMT` as they run with assertions: `MaybeAddFile` ends
the process when a file does not start behind the last one of a deeper level.
The LSMT of a node compacts level after level when a file makes one overflow;
the standalone one leaves that to `DoCompact`.
-/

namespace AhaTree

inductive LsmtStatus where
  | kBuffer
  | kRootBuffer
  | kLeaf
  | kSmallLeaf
  | kStandalone
  deriving DecidableEq, Repr

/-- The options of an LSMT of any status. -/
structure BufferConfig extends LsmtConfig where
  status : LsmtStatus
  leafLimit : Nat

/-- What ends the process. -/
inductive Halt where
  /-- `assert(icmp_.Compare(last->largest, f->smallest) < 0)` in `MaybeAddFile`. -/
  | unordered
  | fault (fault : Lsmt.Fault)
  deriving DecidableEq, Repr

/-! ## Installing with the assertion -/

def maybeAddFile (level : Nat) (deleted : List Nat) (files : List FileMetaData)
    (file : FileMetaData) : Except Halt (List FileMetaData) :=
  if deleted.contains file.number then .ok files
  else
    match files.getLast? with
    | none => .ok (files ++ [file])
    | some last =>
        if 0 < level && !(last.largest.compare file.smallest).isLT then .error .unordered
        else .ok (files ++ [file])

/-- The files in the order in which `ApplyFileChanges` hands them to
`MaybeAddFile`. -/
def handedFiles : List FileMetaData → List FileMetaData → List FileMetaData
  | [], base => base
  | added :: rest, base =>
      base.takeWhile (fun file => (file.largest.compare added.smallest).isLT) ++ [added] ++
        handedFiles rest (base.dropWhile (fun file =>
          (file.largest.compare added.smallest).isLT))

/-- What `InstallCompactionResults` does before it changes the levels. -/
def Lsmt.noteOutputs (compaction : Compaction) (added : List FileMetaData) (lsmt : Lsmt) :
    Lsmt :=
  { lsmt with
    obsoleteFiles := lsmt.obsoleteFiles ++ compaction.inputs.map FileMetaData.number ++
      compaction.nextInputs.map FileMetaData.number
    allowedSeeks := added.foldl (fun (seeks : Nat → Int) (file : FileMetaData) =>
      Function.update seeks file.number (Lsmt.seeksAllowed file)) lsmt.allowedSeeks }

namespace Checked

open Lsmt

def applyFileChanges (level : Nat) (added : List FileMetaData) (deleted : List Nat)
    (lsmt : Lsmt) : Except Halt Lsmt :=
  match (handedFiles (added.foldr insertFile []) (lsmt.files level)).foldlM
      (maybeAddFile level deleted) [] with
  | .error halt => .error halt
  | .ok files => .ok { lsmt with
      files := Function.update lsmt.files level files
      flushPointer := if lsmt.files level = [] then
        Function.update lsmt.flushPointer level none else lsmt.flushPointer }

def installCompactionResults (compaction : Compaction) (target : Nat)
    (added : List FileMetaData) (lsmt : Lsmt) : Except Halt Lsmt :=
  let deleted := compaction.inputs.map FileMetaData.number
  let nextDeleted := compaction.nextInputs.map FileMetaData.number
  let seen := lsmt.noteOutputs compaction added
  if target = compaction.level then applyFileChanges target added deleted seen
  else
    match applyFileChanges compaction.level [] deleted seen with
    | .error halt => .error halt
    | .ok removed => applyFileChanges target added nextDeleted removed

/-- `MakeInputIterator`, `DoCompactionWorkImpl` and `InstallCompactionResults`. -/
def compact (config : LsmtConfig) (guards : List Slice) (compaction : Compaction)
    (target : Nat) (lsmt : Lsmt) : Except Halt Lsmt :=
  let outputs := doCompactionWorkImpl config guards compaction lsmt.files
    (mergedInput lsmt.tables compaction)
  installCompactionResults compaction target (outputFiles config lsmt.fileId outputs)
    (lsmt.writeOutputs config outputs)

def trivialMove (compaction : Compaction) (lsmt : Lsmt) : Except Halt Lsmt :=
  match applyFileChanges (compaction.level + 1) (compaction.inputs.take 1) [] lsmt with
  | .error halt => .error halt
  | .ok moved => applyFileChanges compaction.level []
      ((compaction.inputs.take 1).map FileMetaData.number) moved

/-! ## Compacting level after level -/

/-- `MayNeedCompaction`: the score, a quotient of `double`s, is at least 1. -/
def mayNeedCompaction (config : BufferConfig) (level : Nat) (lsmt : Lsmt) : Bool :=
  match config.status with
  | .kSmallLeaf => decide (0 < (lsmt.files level).length ∧
      config.leafLimit ≤ (lsmt.files level).length)
  | _ => decide (1 ≤ levelScore level (lsmt.files level))

/-- `IsTrivialMove(level_limit_)`. -/
def isTrivialMoveWithin (config : LsmtConfig) (compaction : Compaction) : Bool :=
  !decide (0 < config.levelLimit ∧ config.levelLimit ≤ compaction.level + 1) &&
    isTrivialMove config compaction

/-- The work of `CompactLevelImpl` on a compaction to the next level. -/
def compactTo (config : BufferConfig) (guards : List Slice) (compaction : Compaction)
    (lsmt : Lsmt) : Except Halt Lsmt :=
  if isTrivialMoveWithin config.toLsmtConfig compaction then trivialMove compaction lsmt
  else compact config.toLsmtConfig guards compaction (compaction.level + 1) lsmt

/-- `CompactLevel` of a node's LSMT, as long as there are levels below. -/
def compactLevels (config : BufferConfig) (guards : List Slice) :
    Nat → Nat → Lsmt → Except Halt (OpState × Lsmt)
  | 0, level, lsmt =>
      if overflows config.toLsmtConfig level then .ok (.kOverflow, lsmt)
      else .error (.fault .lastLevel)
  | below + 1, level, lsmt =>
      if overflows config.toLsmtConfig level then .ok (.kOverflow, lsmt)
      else
        match lsmt.firstBehind level with
        | none => .error (.fault .emptyLevel)
        | some file =>
            let (compaction, after) :=
              setupOtherInputs config.toLsmtConfig lsmt level (lsmt.overlapTop level file)
            match compactTo config guards compaction after with
            | .error halt => .error halt
            | .ok done =>
                if mayNeedCompaction config (level + 1) done then
                  compactLevels config guards below (level + 1) done
                else .ok (.kOk, done)

def compactLevel (config : BufferConfig) (guards : List Slice) (level : Nat) (lsmt : Lsmt) :
    Except Halt (OpState × Lsmt) :=
  compactLevels config guards (kNumLevels - 1 - level) level lsmt

/-! ## Adding files -/

/-- The part of `AddFile` before the compaction. -/
def placeFile (level : Nat) (file : FileMetaData) (lsmt : Lsmt) : Except Halt Lsmt :=
  let seeks : Int := (file.fileSize / 16384 : Nat)
  let seen := { lsmt with
    allowedSeeks := Function.update lsmt.allowedSeeks file.number seeks }
  if 0 < level then applyFileChanges level [file] [] seen
  else .ok { seen with
    files := Function.update seen.files level (seen.files level ++ [file]) }

/-- The end of `AddFile` and of `AddFiles`. -/
def settle (config : BufferConfig) (guards : List Slice) (level : Nat) (lsmt : Lsmt) :
    Except Halt (OpState × Lsmt) :=
  if mayNeedCompaction config level lsmt then compactLevel config guards level lsmt
  else .ok (.kOk, lsmt)

def addFile (config : BufferConfig) (guards : List Slice) (level : Nat)
    (file : FileMetaData) (lsmt : Lsmt) : Except Halt (OpState × Lsmt) :=
  match placeFile level file lsmt with
  | .error halt => .error halt
  | .ok placed =>
      if config.status = .kStandalone then .ok (.kOk, placed.finalize)
      else settle config guards level placed

/-- The files go to level 0. -/
def pushFiles (metas : List FileMetaData) (lsmt : Lsmt) : Lsmt :=
  { lsmt with files := Function.update lsmt.files 0 (lsmt.files 0 ++ metas) }

/-- `AppendFiles`: without a compaction. -/
def appendFiles (config : BufferConfig) (metas : List FileMetaData) (lsmt : Lsmt) :
    OpState × Lsmt :=
  let pushed := pushFiles metas lsmt
  (if mayNeedCompaction config 0 pushed then .kOverflow else .kOk, pushed)

def addFiles (config : BufferConfig) (guards : List Slice) (metas : List FileMetaData)
    (lsmt : Lsmt) : Except Halt (OpState × Lsmt) :=
  settle config guards 0 (pushFiles metas lsmt)

/-! ## Compactions of the standalone LSMT -/

/-- `DoCompact` with the root page: whether it is a leaf, and its pivots. -/
def doCompact (config : LsmtConfig) (isLeaf : Bool) (guards : List Slice)
    (lsmt : Lsmt) : Except Halt (OpState × Lsmt) :=
  match lsmt.compactLevel with
  | none => .error (.fault .noLevel)
  | some level =>
      if overflows config level && isLeaf then
        .ok (.kOverflow, { lsmt with compactionScore := -1, compactLevel := none })
      else
        match lsmt.setCompactionInputs config level with
        | .error fault => .error (.fault fault)
        | .ok (.inl left, after) => .ok (.kOk, { after with compactLevel := some left })
        | .ok (.inr compaction, after) =>
            let set := { after with compactLevel := some compaction.level }
            if compaction.inputs.isEmpty then .ok (.kOk, set)
            else
              match if isTrivialMove config compaction then trivialMove compaction set
                else compact config guards compaction (compaction.level + 1) set with
              | .error halt => .error halt
              | .ok done => .ok (if overflows config level then .kOverflow else .kOk,
                  done.finalize)

/-! ## Compactions within a level -/

/-- `CompactBottomLevel`; a single file is left alone if there is no page. -/
def compactBottomLevel (config : LsmtConfig) (page : Option (List Slice)) (lsmt : Lsmt) :
    Except Halt Lsmt :=
  match getBottomLevel lsmt.files with
  | none => .ok lsmt
  | some level =>
      if (lsmt.files level).length == 1 && page.isNone then .ok lsmt
      else compact config (page.getD []) ⟨level, lsmt.files level, [], []⟩ level lsmt

/-- The loop of `GetLevelFilesInRange`. -/
def takeInRange (low up : Slice) : List FileMetaData → List FileMetaData
  | [] => []
  | file :: files =>
      if (Slice.compare file.limit low).isLT then takeInRange low up files
      else if (Slice.compare file.start up).isGT then []
      else file :: takeInRange low up files

def getLevelFilesInRange (levels : Levels) (low up : Slice) (level : Nat) :
    List FileMetaData :=
  takeInRange low up ((levels level).drop (findFile (levels level)
    ⟨low, kMaxSequenceNumber, kValueTypeForSeek⟩))

def getLevel0FilesInRange (levels : Levels) (low up : Slice) : List FileMetaData :=
  (levels 0).filter (fun file => !(Slice.compare file.limit low).isLT &&
    !(Slice.compare file.start up).isGT)

/-- The loop of `GetFilesInRange` over the first `count` levels, bottom first. -/
def filesInRange (levels : Levels) (low up : Slice) :
    Nat → Option (Nat × List FileMetaData)
  | 0 => none
  | level + 1 =>
      let files := if level = 0 then getLevel0FilesInRange levels low up
        else getLevelFilesInRange levels low up level
      if files.isEmpty then filesInRange levels low up level else some (level, files)

/-- `GetFilesInRange`: the files of the deepest level that has any in the range. -/
def getFilesInRange (levels : Levels) (low up : Slice) :
    Option (Nat × List FileMetaData) :=
  filesInRange levels low up (levelCount levels)

def compactFilesInRange (config : LsmtConfig) (guards : List Slice) (level : Nat)
    (files : List FileMetaData) (lsmt : Lsmt) : Except Halt Lsmt :=
  compact config guards ⟨level, files, [], []⟩ level lsmt

/-! ## Clearing -/

def clear (lsmt : Lsmt) : Lsmt := { lsmt with files := fun _ => [] }

def clearAll (lsmt : Lsmt) : Lsmt :=
  { lsmt with
    files := fun _ => []
    obsoleteFiles := lsmt.obsoleteFiles ++ (List.range kNumLevels).flatMap
      (fun level => (lsmt.files level).map FileMetaData.number) }

/-! ## The operations -/

/-- What is done to an LSMT.  `buildTable` is a table that someone writes to the
disk: a flushed memtable, or an output of another LSMT.  A page is given by its
pivots. -/
inductive Act where
  | buildTable (number : Nat) (entries : List Entry)
  | addFile (page : Option (List Slice)) (file : FileMetaData)
  | addTopFile (page : Option (List Slice)) (file : FileMetaData)
  | appendFiles (metas : List FileMetaData)
  | addFiles (page : Option (List Slice)) (metas : List FileMetaData)
  | compactLevel (page : Option (List Slice)) (level : Nat)
  | recordReadSample (key : InternalKey)
  | doCompact (isLeaf : Bool) (guards : List Slice)
  | compactBottomLevel (page : Option (List Slice))
  | compactFilesInRange (page : Option (List Slice)) (low up : Slice)
  | finalizeRetrieval (level : Nat) (files : List FileMetaData)
  | finalizeRetrievalAndDelete (level : Nat) (files : List FileMetaData)
  | clear
  | clearAll
  | clearBottomLevelFiles
  deriving DecidableEq, Repr

/-- The table is on disk. -/
def buildTable (number : Nat) (entries : List Entry) (lsmt : Lsmt) : Lsmt :=
  { lsmt with
    tables := Function.update lsmt.tables number entries
    fileId := max lsmt.fileId number }

/-- One operation.  A flushed memtable goes to the level that
`PickLevelForMemTableOutput` chooses, the files of a node to level 0. -/
def exec (config : BufferConfig) (lsmt : Lsmt) : Act → Except Halt Lsmt
  | .buildTable number entries => .ok (buildTable number entries lsmt)
  | .addFile page file =>
      (addFile config (page.getD []) (pickLevelForMemTableOutput config.toLsmtConfig
        lsmt.files file.start file.limit) file lsmt).map Prod.snd
  | .addTopFile page file => (addFile config (page.getD []) 0 file lsmt).map Prod.snd
  | .appendFiles metas => .ok (appendFiles config metas lsmt).2
  | .addFiles page metas => (addFiles config (page.getD []) metas lsmt).map Prod.snd
  | .compactLevel page level =>
      (compactLevel config (page.getD []) level lsmt).map Prod.snd
  | .recordReadSample key => .ok (lsmt.recordReadSample key).2
  | .doCompact isLeaf guards =>
      (doCompact config.toLsmtConfig isLeaf guards lsmt).map Prod.snd
  | .compactBottomLevel page => compactBottomLevel config.toLsmtConfig page lsmt
  | .compactFilesInRange page low up =>
      match getFilesInRange lsmt.files low up with
      | none => .ok lsmt
      | some (level, files) =>
          compactFilesInRange config.toLsmtConfig (page.getD []) level files lsmt
  | .finalizeRetrieval level files => .ok (lsmt.finalizeRetrieval level files)
  | .finalizeRetrievalAndDelete level files =>
      .ok (lsmt.finalizeRetrievalAndDelete level files)
  | .clear => .ok (clear lsmt)
  | .clearAll => .ok (clearAll lsmt)
  | .clearBottomLevelFiles => .ok lsmt.clearBottomLevelFiles

def step (config : BufferConfig) (lsmt : Lsmt) (act : Act) : Option Lsmt :=
  (exec config lsmt act).toOption

end Checked

end AhaTree
