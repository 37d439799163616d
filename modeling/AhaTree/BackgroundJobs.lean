import AhaTree.Routing
import AhaTree.Compaction
import AhaTree.Lib.Ascending
import AhaTree.Lib.Program

/-!
# The background jobs

The jobs that compact, that flush a memtable and that push files down take a lock
in one function and give it back in another one.  The lock `-1` stands for the
memtables and for the LSMT above the tree.

Which way a job goes depends on what it reads and on what the calls around it
return.  All of this is asked of the surroundings, so that what is shown of a job
is shown of every control path.  What a job writes, what it schedules and what it
reads without a consequence for a lock is left out, and so are the assertions: a
run that one of them ends does not return.
-/

namespace AhaTree.Jobs

open Lib (Program)
open Lsmt

/-! ## The code -/

/-- The calls of the lock manager. -/
inductive LockCall where
  | readLock | readUnlock | writeLock | writeUnlock | escalateLock | alleviateLock
  deriving DecidableEq, Repr

/-- What a job reads to go one way or the other. -/
inductive Flag where
  | shuttingDown
  | hasImm
  | immIsNull
  | backgroundCompactionScheduled
  | hotRangeEmpty
  | isLeafPage (id : PageId)
  | inNodeTable (id : PageId)
  | hasNodeLsmt (id : PageId)
  | nodeOverflow (id : PageId)
  | fileAcrossPivots (id : PageId) (files : List FileMetaData)

inductive Ask where
  | lock (call : LockCall) (id : Int)
  | read (flag : Flag)
  | bottomLevel
  /-- `GetAllBottomLevelFiles` or `GetSomeBottomLevelFiles`, with the level. -/
  | bottomLevelFiles (id : PageId)
  | getFilesInRange
  | bulkloadFiles
  | lookup (id : PageId)
  | bufferAppendFiles (id : PageId) (files : List FileMetaData)
  | bufferCompactTopLevel (id : PageId)
  /-- `WriteToPage` on the files and on the page of a small leaf. -/
  | writeToPage (id : PageId) (files : List FileMetaData)
  | equalSplitInternalPage (id : PageId)
  /-- `BufferCompactTree`, with the number of its output files. -/
  | bufferCompactTree (id : PageId)
  /-- The parts that a node is split into. -/
  | splitParts (id : PageId)
  | allocateRoot
  /-- `std::abort()` or an exception that nobody catches. -/
  | abort

variable (rootPgId : PageId)

/-- The root page keeps its id, and no page leads to it. -/
abbrev ChildId := {id : PageId // id ≠ rootPgId}

def Reply : Ask → Type
  | .lock _ _ => Unit
  | .read _ => Bool
  | .bottomLevel => Int
  | .bottomLevelFiles _ => Int × List FileMetaData
  | .getFilesInRange => Int × List FileMetaData
  | .bulkloadFiles => List PageId
  | .lookup _ => List (Slice × ChildId rootPgId)
  | .bufferAppendFiles _ _ => OpState
  | .bufferCompactTopLevel _ => OpState
  | .writeToPage _ _ => IndexItems
  | .equalSplitInternalPage _ => Int
  | .bufferCompactTree _ => Nat
  | .splitParts _ => IndexItems
  | .allocateRoot => PageId
  | .abort => Empty

abbrev Code := Program Ask (Reply rootPgId)

variable {rootPgId}

def readLock (id : Int) : Code rootPgId Unit := Program.perform (Ask.lock .readLock id)

def readUnlock (id : Int) : Code rootPgId Unit := Program.perform (Ask.lock .readUnlock id)

def writeLock (id : Int) : Code rootPgId Unit := Program.perform (Ask.lock .writeLock id)

def writeUnlock (id : Int) : Code rootPgId Unit := Program.perform (Ask.lock .writeUnlock id)

def escalateLock (id : Int) : Code rootPgId Unit := Program.perform (Ask.lock .escalateLock id)

def alleviateLock (id : Int) : Code rootPgId Unit :=
  Program.perform (Ask.lock .alleviateLock id)

def read (flag : Flag) : Code rootPgId Bool := Program.perform (Ask.read flag)

def bottomLevelFiles (id : PageId) : Code rootPgId (Int × List FileMetaData) :=
  Program.perform (Ask.bottomLevelFiles id)

def getFilesInRange : Code rootPgId (Int × List FileMetaData) :=
  Program.perform Ask.getFilesInRange

def bottomLevel : Code rootPgId Int := Program.perform Ask.bottomLevel

def bulkloadFiles : Code rootPgId (List PageId) := Program.perform Ask.bulkloadFiles

def lookup (id : PageId) : Code rootPgId (List (Slice × ChildId rootPgId)) :=
  Program.perform (Ask.lookup id)

def bufferAppendFiles (id : PageId) (files : List FileMetaData) : Code rootPgId OpState :=
  Program.perform (Ask.bufferAppendFiles id files)

def bufferCompactTopLevel (id : PageId) : Code rootPgId OpState :=
  Program.perform (Ask.bufferCompactTopLevel id)

def writeToPage (id : PageId) (files : List FileMetaData) : Code rootPgId IndexItems :=
  Program.perform (Ask.writeToPage id files)

def equalSplitInternalPage (id : PageId) : Code rootPgId Int :=
  Program.perform (Ask.equalSplitInternalPage id)

def bufferCompactTree (id : PageId) : Code rootPgId Nat :=
  Program.perform (Ask.bufferCompactTree id)

def splitParts (id : PageId) : Code rootPgId IndexItems := Program.perform (Ask.splitParts id)

def allocateRoot : Code rootPgId PageId := Program.perform Ask.allocateRoot

def abort {α : Type} : Code rootPgId α := .ask .abort (fun impossible => impossible.elim)

/-! ### Flushing a memtable and compacting -/

/-- `AhaTree::CompactMemTable`: the lock is free while the table is built.  The
constructor asserts that there is a `leveldb_lsmt_`. -/
def compactMemTable : Code rootPgId Unit := do
  writeUnlock (-1)
  writeLock (-1)
  writeUnlock (-1)

def backgroundCompaction : Code rootPgId Unit := do
  let immIsNull ← read .immIsNull
  if !immIsNull then compactMemTable
  else do
    readLock rootPgId
    readUnlock rootPgId
    let bottom ← bottomLevel
    if bottom = 0 then abort else writeUnlock (-1)

def backgroundCall : Code rootPgId Unit := do
  writeLock (-1)
  let shuttingDown ← read .shuttingDown
  if shuttingDown then pure () else backgroundCompaction

/-- The end of `AdaptMem` and `AdaptImm`. -/
def compactUnlessScheduled : Code rootPgId Unit := do
  let scheduled ← read .backgroundCompactionScheduled
  if !scheduled then compactMemTable else writeUnlock (-1)

def adaptMem : Code rootPgId Unit := do
  writeLock (-1)
  let shuttingDown ← read .shuttingDown
  if shuttingDown then writeUnlock (-1)
  else do
    let hasImm ← read .hasImm
    if hasImm then writeUnlock (-1) else compactUnlessScheduled

def adaptImm : Code rootPgId Unit := do
  writeLock (-1)
  let shuttingDown ← read .shuttingDown
  if shuttingDown then writeUnlock (-1)
  else do
    let immIsNull ← read .immIsNull
    if immIsNull then writeUnlock (-1) else compactUnlessScheduled

/-! ### Flushing to the children -/

/-- The maps that `AppendFilesToChild` fills. -/
structure Children (rootPgId : PageId) where
  overflow : List (Slice × ChildId rootPgId)
  needCompaction : List (Slice × ChildId rootPgId)

def appendToNode (child : ChildId rootPgId) (remains : List FileMetaData) (pivot : Slice)
    (children : Children rootPgId) : Code rootPgId (Children rootPgId) := do
  let state ← bufferAppendFiles child remains
  pure (if state = .kOverflow then
    { children with needCompaction := Lib.place pivot child children.needCompaction }
    else children)

def appendFilesToChild (child : ChildId rootPgId) (remains : List FileMetaData) (pivot : Slice)
    (children : Children rootPgId) : Code rootPgId (Children rootPgId) := do
  readLock child.1
  let inTable ← read (.inNodeTable child)
  let hasLsmt ← read (.hasNodeLsmt child)
  let after ← (if inTable && hasLsmt && !remains.isEmpty then
      appendToNode child remains pivot children
    else if !inTable || !hasLsmt then
      pure { children with overflow := Lib.place pivot child children.overflow }
    else pure children)
  readUnlock child.1
  pure after

/-- The loop of `FlushFilesToChildrenNoSplit`. -/
def appendToChildren : List (Slice × ChildId rootPgId) → List FileMetaData →
    Children rootPgId → Code rootPgId (Children rootPgId)
  | [], _, children => pure children
  | _, [], children => pure children
  | [(pivot, child)], files, children => appendFilesToChild child files pivot children
  | (pivot, child) :: (nextPivot, next) :: items, files, children => do
      let after ← appendFilesToChild child
        (files.takeWhile fun file => !flushLeavesTo nextPivot file) pivot children
      appendToChildren ((nextPivot, next) :: items)
        (files.dropWhile fun file => !flushLeavesTo nextPivot file) after

def compactChildren : List (Slice × ChildId rootPgId) → List (Slice × ChildId rootPgId) →
    Code rootPgId (List (Slice × ChildId rootPgId))
  | [], overflow => pure overflow
  | (pivot, child) :: children, overflow => do
      readLock child.1
      let state ← bufferCompactTopLevel child
      readUnlock child.1
      compactChildren children
        (if state = .kOverflow then Lib.place pivot child overflow else overflow)

/-- `pg_id_ == tree_->root_pg_id_ ? tree_->GetLockedRoot() : pg_id_`. -/
def lockNodeId (rootPgId pgId : PageId) : Int :=
  if pgId = rootPgId then -1 else pgId

def flushFilesToChildrenNoSplit (pgId : PageId) (files : List FileMetaData) :
    Code rootPgId (List (Slice × ChildId rootPgId)) := do
  let items ← lookup pgId
  let children ← appendToChildren items files ⟨[], []⟩
  let overflow ← compactChildren children.needCompaction children.overflow
  escalateLock (lockNodeId rootPgId pgId)
  alleviateLock (lockNodeId rootPgId pgId)
  (if lockNodeId rootPgId pgId = -1 then readUnlock (-1) else pure ())
  pure overflow

/-- The files that `FlushAndMergeSmallLeaf` finds for a child. -/
def smallLeafFiles (child : ChildId rootPgId) (files : List FileMetaData) :
    List (Slice × ChildId rootPgId) → List FileMetaData
  | [] => []
  | (pivot, other) :: items =>
      if other = child then
        files.filter fun file => !(Slice.compare file.start pivot).isLT &&
          items.head?.all fun next => (Slice.compare file.limit next.1).isLT
      else smallLeafFiles child files items

def flushAndMergeSmallLeaf (pgId : PageId) (child : ChildId rootPgId)
    (files : List FileMetaData) : Code rootPgId IndexItems := do
  let items ← lookup pgId
  if (smallLeafFiles child files items).isEmpty then pure []
  else do
    let result ← writeToPage child (smallLeafFiles child files items)
    if result.length = 1 then do
      escalateLock pgId
      alleviateLock pgId
      pure []
    else pure result

/-- The pivots that splits below a node have made, and those they replace. -/
structure Pivots where
  newPivots : List IndexItems
  oldPivots : IndexItems

/-- The loop of `FlushFilesToChildren`; `split` is `MaybeSplitOrFlush`. -/
def flushOverflow (split : ChildId rootPgId → Code rootPgId IndexItems) (pgId : PageId)
    (files : List FileMetaData) (oneLevelOnly : Bool) :
    List (Slice × ChildId rootPgId) → Pivots → Code rootPgId Pivots
  | [], pivots => pure pivots
  | (pivot, child) :: children, pivots => do
      readLock child.1
      let inTable ← read (.inNodeTable child)
      let newKids ← (if inTable then (if oneLevelOnly then pure [] else split child)
        else flushAndMergeSmallLeaf pgId child files)
      readUnlock child.1
      flushOverflow split pgId files oneLevelOnly children
        (if newKids.isEmpty then pivots
        else ⟨pivots.newPivots ++ [newKids], pivots.oldPivots ++ [(pivot, child.1)]⟩)

def updatePivots (pgId : PageId) : Code rootPgId Unit := do
  let splitNum ← equalSplitInternalPage pgId
  if 1 < splitNum then pure ()
  else do
    escalateLock pgId
    alleviateLock pgId

def splitNodeAndLSMT (pgId : PageId) : Code rootPgId IndexItems := do
  let isLeaf ← read (.isLeafPage pgId)
  if isLeaf then do
    let outFiles ← bufferCompactTree pgId
    if outFiles = 1 then do
      escalateLock pgId
      alleviateLock pgId
      pure []
    else splitParts pgId
  else splitParts pgId

/-- `flush` is `FlushFilesToChildren`. -/
def compactAndFlushToChildren
    (flush : PageId → List FileMetaData → Bool → Code rootPgId Pivots) (pgId : PageId) :
    Code rootPgId Pivots := do
  let (_, files) ← bottomLevelFiles pgId
  let across ← read (.fileAcrossPivots pgId files)
  if across then do
    escalateLock pgId
    alleviateLock pgId
    let (_, compacted) ← bottomLevelFiles pgId
    flush pgId compacted false
  else flush pgId files false

def flushAndUpdate (flush : PageId → List FileMetaData → Bool → Code rootPgId Pivots)
    (pgId : PageId) : Code rootPgId Unit := do
  let _ ← compactAndFlushToChildren flush pgId
  updatePivots pgId

def maybeSplitOrFlush (flush : PageId → List FileMetaData → Bool → Code rootPgId Pivots)
    (child : ChildId rootPgId) : Code rootPgId IndexItems := do
  let isLeaf ← read (.isLeafPage child)
  (if isLeaf then pure () else flushAndUpdate flush child.1)
  let overflow ← read (.nodeOverflow child)
  if overflow then splitNodeAndLSMT child.1 else pure []

/-- The fuel bounds the height of the tree.  `AllChildrenLeaf` is false in an
`AhaTree`. -/
def flushFilesToChildren : Nat → PageId → List FileMetaData → Bool → Code rootPgId Pivots
  | 0, _, _, _ => abort
  | fuel + 1, pgId, files, oneLevelOnly => do
      let overflow ← flushFilesToChildrenNoSplit pgId files
      flushOverflow (maybeSplitOrFlush (flushFilesToChildren fuel)) pgId files oneLevelOnly
        overflow ⟨[], []⟩

/-! ### Pushing files down -/

def updateRoot : Code rootPgId Unit := do
  let newId ← allocateRoot
  writeLock newId
  writeUnlock newId

def splitRoot : Code rootPgId Unit := do
  let _ ← splitNodeAndLSMT rootPgId
  escalateLock rootPgId
  updateRoot
  alleviateLock rootPgId

def flushLSMTfilesToBol (fuel : Nat) (files : List FileMetaData) (oneLevelOnly : Bool) :
    Code rootPgId Unit := do
  let across ← read (.fileAcrossPivots rootPgId files)
  if across then abort
  else do
    let pivots ← flushFilesToChildren fuel rootPgId files oneLevelOnly
    (if pivots.newPivots.isEmpty then pure () else updatePivots rootPgId)
    let overflow ← read (.nodeOverflow rootPgId)
    (if overflow then splitRoot else pure ())
    readUnlock rootPgId

def bulkloadLSMTFiles : Code rootPgId Unit := do
  readLock (-1)
  let topLevel ← bulkloadFiles
  escalateLock (-1)
  writeLock rootPgId
  match topLevel with
  | [] => abort
  | top :: _ => do
      writeLock top
      writeUnlock top
      writeUnlock rootPgId
      alleviateLock (-1)
      readUnlock (-1)

/-- The end of `InstallLSMTfilesToBol`. -/
def finalize : Code rootPgId Unit := do
  writeLock (-1)
  writeUnlock (-1)

/-- The files that `InstallLSMTfilesToBol` flushes. -/
def filesByPivots (files : List FileMetaData) : Code rootPgId (List FileMetaData) := do
  let across ← read (.fileAcrossPivots rootPgId files)
  if across then do
    escalateLock (-1)
    alleviateLock (-1)
    let (_, compacted) ← bottomLevelFiles rootPgId
    pure compacted
  else pure files

def flushToBol (fuel : Nat) (files : List FileMetaData) : Code rootPgId Unit :=
  if files.isEmpty then do
    readUnlock rootPgId
    readUnlock (-1)
  else do
    escalateLock rootPgId
    alleviateLock rootPgId
    flushLSMTfilesToBol fuel files false

def installLSMTfilesToBol (fuel : Nat) : Code rootPgId Unit := do
  let isLeaf ← read (.isLeafPage rootPgId)
  if isLeaf then do
    bulkloadLSMTFiles
    finalize
  else do
    readLock (-1)
    readLock rootPgId
    let (level, files) ← bottomLevelFiles rootPgId
    if level < 0 then do
      readUnlock rootPgId
      readUnlock (-1)
    else do
      let compacted ← filesByPivots files
      flushToBol fuel compacted
      finalize

/-! ### Adapting -/

/-- `DefaultAdapt::CompactRootBufferForFlush`; `files->at(0)` throws. -/
def compactRootBufferForFlush : Code rootPgId (List FileMetaData) := do
  let (_, files) ← bottomLevelFiles rootPgId
  let again ← (if files.isEmpty then pure true else read (.fileAcrossPivots rootPgId files))
  if again then do
    escalateLock rootPgId
    if files.isEmpty then abort
    else do
      alleviateLock rootPgId
      escalateLock (-1)
      let (_, compacted) ← bottomLevelFiles rootPgId
      alleviateLock (-1)
      pure compacted
  else pure files

/-- The loop of `HotOnlyAdapt::CompactRootBufferForFlush`.  Only a pass that compacts
sets `level_mismatch` again. -/
def hotLoop : Nat → Bool → Code rootPgId (List FileMetaData)
  | 0, _ => abort
  | fuel + 1, levelMismatch => do
      let (level, files) ← getFilesInRange
      if level = -1 && files.isEmpty then do
        escalateLock (-1)
        alleviateLock (-1)
        pure []
      else do
        let across ← read (.fileAcrossPivots rootPgId files)
        if across then do
          escalateLock rootPgId
          alleviateLock rootPgId
          escalateLock (-1)
          alleviateLock (-1)
          let (after, compacted) ← getFilesInRange
          if after ≠ level || compacted.isEmpty then hotLoop fuel true else pure compacted
        else do
          (if files.isEmpty then pure () else do
            escalateLock rootPgId
            alleviateLock rootPgId)
          if levelMismatch then hotLoop fuel true else pure files

inductive Strategy where
  | defaultAdapt
  | hotOnlyAdapt
  deriving DecidableEq, Repr

/-- The virtual function. -/
def Strategy.compactRootBufferForFlush (fuel : Nat) :
    Strategy → Code rootPgId (List FileMetaData)
  | .defaultAdapt => Jobs.compactRootBufferForFlush
  | .hotOnlyAdapt => do
      let rangeEmpty ← read .hotRangeEmpty
      if rangeEmpty then Jobs.compactRootBufferForFlush else hotLoop fuel false

/-- `DefaultAdapt::AdaptLSMT`. -/
def adaptLSMT (strategy : Strategy) (fuel : Nat) : Code rootPgId Unit := do
  readLock (-1)
  readLock rootPgId
  let files ← strategy.compactRootBufferForFlush fuel
  if files.isEmpty then do
    readUnlock rootPgId
    readUnlock (-1)
  else flushLSMTfilesToBol fuel files true

inductive Job where
  | backgroundCall
  | adaptMem
  | adaptImm
  | installLSMTfilesToBol
  | adaptLSMT (strategy : Strategy)
  deriving DecidableEq, Repr

def Job.code (fuel : Nat) : Job → Code rootPgId Unit
  | .backgroundCall => Jobs.backgroundCall
  | .adaptMem => Jobs.adaptMem
  | .adaptImm => Jobs.adaptImm
  | .installLSMTfilesToBol => Jobs.installLSMTfilesToBol fuel
  | .adaptLSMT strategy => Jobs.adaptLSMT strategy fuel

end AhaTree.Jobs
