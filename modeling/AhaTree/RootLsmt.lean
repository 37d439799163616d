import AhaTree.Compaction
import AhaTree.Lib.Run

/-!
# The root LSMT

The threads that change the root LSMT, as a step function: flushes commit files
to it, scans sample reads, the compaction thread runs `DoCompact`, and the
push-down thread takes files away.  Each step holds lock -1.  `compact_level_`
and `compaction_score_` are a decision that `Finalize` has made on the levels it
saw; files that leave later make it stale.
-/

namespace AhaTree

open Lsmt

/-- The root LSMT, what schedules its compactions, and a record of what
`Finalize` has last seen and of the levels that have lost all files since. -/
structure RootLsmt where
  lsmt : Lsmt
  isLeaf : Bool
  hasImm : Bool
  scheduled : Bool
  /-- The compaction thread is between the two halves of `CompactMemTable`. -/
  flushing : Bool
  pendingOutputs : List Nat
  /-- The levels at the last `Finalize`; `none` after an overflow under a leaf
  root has dropped the decision. -/
  seen : Option Levels
  emptied : List Nat

namespace RootLsmt

def initial : RootLsmt where
  lsmt := .empty
  isLeaf := true
  hasImm := false
  scheduled := false
  flushing := false
  pendingOutputs := []
  seen := none
  emptied := []

def maybeScheduleCompaction (root : RootLsmt) : RootLsmt :=
  if root.scheduled then root
  else if !root.hasImm && !root.lsmt.needsCompaction then root
  else { root with scheduled := true }

/-- An operation that ends with `Finalize` has left the LSMT so. -/
def finalized (lsmt : Lsmt) (root : RootLsmt) : RootLsmt :=
  { root with lsmt := lsmt, seen := some lsmt.files, emptied := [] }

/-- An operation without `Finalize` has left the LSMT so. -/
def changed (lsmt : Lsmt) (root : RootLsmt) : RootLsmt :=
  { root with
    lsmt := lsmt
    emptied := root.emptied ++ (List.range kNumLevels).filter (fun level =>
      !(root.lsmt.files level).isEmpty && (lsmt.files level).isEmpty) }

/-- The compaction that `SetCompactionInputs` has found inputs for. -/
def compactionOf (config : LsmtConfig) (lsmt : Lsmt) (level : Nat) : Option Compaction :=
  match lsmt.setCompactionInputs config level with
  | .ok (.inr compaction, _) =>
      if compaction.inputs.isEmpty then none else some compaction
  | _ => none

/-- The compaction that `DoCompact` is about to make, if it makes one. -/
def nextCompaction (config : LsmtConfig) (root : RootLsmt) : Option Compaction :=
  match root.lsmt.compactLevel with
  | none => none
  | some level =>
      if overflows config level && root.isLeaf then none
      else compactionOf config root.lsmt level

/-- The overflow of a leaf root, which `DoCompact` answers without compacting. -/
def leafOverflows (config : LsmtConfig) (root : RootLsmt) : Bool :=
  root.isLeaf && (root.lsmt.compactLevel.map (overflows config)).getD false

/-- `CompactMemTable` up to `BuildTable`, on the compaction thread or on the
push-down thread. -/
def startFlush (config : LsmtConfig) (onCompaction : Bool) (root : RootLsmt) :
    Option RootLsmt :=
  if root.hasImm && (!onCompaction || (root.scheduled && !root.flushing)) then
    let number := config.flushNumber root.lsmt.fileId
    some { root with
      lsmt := { root.lsmt with fileId := number }
      pendingOutputs := number :: root.pendingOutputs
      flushing := root.flushing || onCompaction }
  else none

/-- The end of `BackgroundCall`. -/
def endBackgroundCall (root : RootLsmt) : RootLsmt :=
  { root with scheduled := false, flushing := false }.maybeScheduleCompaction

/-- A table with these entries is added to the LSMT, if there are any. -/
def addTable (config : LsmtConfig) (number : Nat) (entries : List Entry)
    (root : RootLsmt) : RootLsmt :=
  match tableFile config number entries with
  | none => root
  | some file =>
      let level := pickLevelForMemTableOutput config root.lsmt.files
        file.start file.limit
      let stored := { root.lsmt with
        tables := Function.update root.lsmt.tables number entries }
      root.finalized (stored.addFile level file)

/-- `CompactMemTable` after `BuildTable` has written these entries. -/
def commitFlush (config : LsmtConfig) (onCompaction : Bool) (number : Nat)
    (entries : List Entry) (root : RootLsmt) : Option RootLsmt :=
  if root.hasImm && root.pendingOutputs.contains number &&
      (!onCompaction || root.flushing) then
    let added := { root with
      hasImm := false
      pendingOutputs := root.pendingOutputs.filter (· != number) }.addTable config
        number entries
    some (if onCompaction then added.endBackgroundCall else added)
  else none

/-- `BackgroundCall` when there is no `imm_`; a failed assertion or the abort
ends the process. -/
def backgroundCall (config : LsmtConfig) (guards : List Slice) (root : RootLsmt) :
    Option RootLsmt :=
  if root.scheduled && !root.flushing && !root.hasImm && root.lsmt.needsCompaction then
    match root.lsmt.doCompact config root.isLeaf guards with
    | .error _ => none
    | .ok (_, lsmt) =>
        if getBottomLevel lsmt.files = some 0 then none
        else
          let done :=
            if root.leafOverflows config then { root with lsmt := lsmt, seen := none }
            else if (root.nextCompaction config).isSome then root.finalized lsmt
            else { root with lsmt := lsmt }
          some done.endBackgroundCall
  else none

/-- `RecordReadSample` of the tree. -/
def readSample (key : InternalKey) (root : RootLsmt) : Option RootLsmt :=
  if root.isLeaf then
    let (requested, lsmt) := root.lsmt.recordReadSample key
    let sampled := { root with lsmt := lsmt }
    some (if requested then sampled.maybeScheduleCompaction else sampled)
  else none

/-- `BulkloadLSMTFiles`: the bottom level becomes the leaves of a tree. -/
def bulkload (root : RootLsmt) : Option RootLsmt :=
  match getBottomLevel root.lsmt.files with
  | none => none
  | some level =>
      if root.isLeaf && decide (0 < level) &&
          decide (1 < (root.lsmt.files level).length) then
        some { root.changed root.lsmt.clearBottomLevelFiles with isLeaf := false }
      else none

inductive Act where
  /-- A memtable becomes `imm_`, in `MakeRoomForWrite` (which schedules) or in
  `AdaptMem`. -/
  | switchMem (schedules : Bool)
  | startFlush (onCompaction : Bool)
  | commitFlush (onCompaction : Bool) (number : Nat) (entries : List Entry)
  | readSample (key : InternalKey)
  | backgroundCall (guards : List Slice)
  /-- Files of a level have moved to the children of the root. -/
  | retrieve (level : Nat) (files : List FileMetaData)
  | compactBottomLevel (guards : List Slice)
  | bulkload
  /-- The end of `InstallLSMTfilesToBol`. -/
  | finalize
  deriving DecidableEq, Repr

def step (config : LsmtConfig) (root : RootLsmt) : Act → Option RootLsmt
  | .switchMem schedules =>
      if root.hasImm then none
      else
        let switched := { root with hasImm := true }
        some (if schedules then switched.maybeScheduleCompaction else switched)
  | .startFlush onCompaction => root.startFlush config onCompaction
  | .commitFlush onCompaction number entries =>
      root.commitFlush config onCompaction number entries
  | .readSample key => root.readSample key
  | .backgroundCall guards => root.backgroundCall config guards
  | .retrieve level files =>
      if root.isLeaf then none
      else some (root.changed (root.lsmt.finalizeRetrieval level files))
  | .compactBottomLevel guards =>
      if root.isLeaf then none
      else some (root.changed (root.lsmt.compactBottomLevel config guards))
  | .bulkload => root.bulkload
  | .finalize => some (root.finalized root.lsmt.finalize).maybeScheduleCompaction

end RootLsmt

end AhaTree
