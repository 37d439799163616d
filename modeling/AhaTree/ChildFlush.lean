import AhaTree.SharedDisk
import AhaTree.PivotCheck
import AhaTree.LeafContent
import AhaTree.SlottedEntries

/-!
# Flushing files to the children of a node

`FlushFilesToChildrenNoSplit` appends files of a buffer to new buffers of the
children, compacts some of these, and then installs them all while it removes
the files from the buffer above.  Files for a child without a buffer stay where
they are.
-/

namespace AhaTree

open Lsmt

/-! ## Nodes -/

/-- A `LevelDBLSMT` with its options and its `has_hotspot_`. -/
structure Buffer where
  config : BufferConfig
  lsmt : Lsmt
  hasHotspot : Bool

/-- The copy constructor. -/
def Buffer.copy (buffer : Buffer) : Buffer :=
  { buffer with lsmt := buffer.lsmt.copy }

/-- A node of `node_table_` with an LSMT, and its page.  An empty `tmpMin` is none. -/
structure BufferNode where
  page : Slotted.Page
  nodeLsmt : Buffer
  lsmt4compact : Option Buffer
  tmpMin : Slice

/-- What ends the process. -/
inductive FlushHalt where
  /-- The assertion on the last pivot. -/
  | belowLastPivot
  /-- `assert(node->lsmt4compact_ == nullptr)`. -/
  | pending
  /-- `assert(node != nullptr)`. -/
  | noNode
  /-- `assert(level > 0 && level < config::kNumLevels)`. -/
  | levelLimit
  | lsmt (halt : Halt)
  deriving DecidableEq, Repr

/-- The options of the tree that a flush reads. -/
structure FlushConfig where
  hasBufferPage : Bool
  nodeLsmtLevelLimit : Int

/-- `SlicePageMap::operator[]`. -/
def insertPivot (pivot : Slice) (child : PageId) : IndexItems → IndexItems
  | [] => [(pivot, child)]
  | item :: items =>
      match Slice.compare pivot item.1 with
      | .lt => (pivot, child) :: item :: items
      | .eq => (pivot, child) :: items
      | .gt => item :: insertPivot pivot child items

namespace BufferNode

/-- The buffer that is prepared. -/
def prepared (node : BufferNode) : Buffer :=
  node.lsmt4compact.getD node.nodeLsmt.copy

def bufferAppendFiles (files : List FileMetaData) (node : BufferNode) :
    OpState × BufferNode :=
  let (state, appended) := Checked.appendFiles node.prepared.config files node.prepared.lsmt
  let first := (files.head?.map FileMetaData.start).getD []
  (state, { node with
    lsmt4compact := some { node.prepared with lsmt := appended }
    tmpMin := if node.tmpMin.isEmpty || (Slice.compare first node.tmpMin).isLT then first
      else node.tmpMin })

/-- The level limit that `BufferCompactTopLevel` sets. -/
def newLevel (config : FlushConfig) : Int :=
  if 1 < config.nodeLsmtLevelLimit then config.nodeLsmtLevelLimit - 1 else 1

def bufferCompactTopLevel (config : FlushConfig) (disk : Disk) (node : BufferNode) :
    Except FlushHalt (OpState × Disk × BufferNode) :=
  let limits := !node.page.isLeaf && config.hasBufferPage
  if limits && !decide (0 < newLevel config ∧ newLevel config < kNumLevels) then
    .error .levelLimit
  else
    let limited := if limits then
      { node.prepared.config with levelLimit := newLevel config } else node.prepared.config
    match Checked.compactLevel limited node.page.keys 0 (node.prepared.lsmt.onDisk disk) with
    | .error halt => .error (.lsmt halt)
    | .ok (state, done) => .ok (state, done.disk, { node with
        lsmt4compact := some { node.prepared with
          config := limited
          lsmt := done } })

/-- `InstallNewBuffer` of a node that is not being split. -/
def installNewBuffer (disk : Disk) (node : BufferNode) : Disk × BufferNode :=
  match node.lsmt4compact with
  | none => (disk, node)
  | some pending => (disk.removeFiles pending.lsmt.obsoleteFiles, { node with
      nodeLsmt := { pending with lsmt := { pending.lsmt with obsoleteFiles := [] } }
      lsmt4compact := none
      page := if node.tmpMin.isEmpty then node.page
        else node.page.mayUpdateMinPivot node.tmpMin
      tmpMin := [] })

def setHotspot (node : BufferNode) : BufferNode :=
  { node with nodeLsmt := { node.nodeLsmt with hasHotspot := true } }

end BufferNode

/-! ## The flush -/

/-- A page, the LSMT whose files are flushed (the root LSMT for the root page), and
the nodes of its children; a child without one is a page. -/
structure Subtree where
  items : IndexItems
  buffer : Buffer
  nodes : PageId → Option BufferNode
  disk : Disk

/-- What the loop of `FlushFilesToChildrenNoSplit` carries along. -/
structure Appending where
  nodes : PageId → Option BufferNode
  tmpNodes : List PageId
  flushed : List FileMetaData
  overflowChildren : IndexItems
  childrenNeedCompaction : IndexItems

def appendFilesToChild (state : Appending) (pivot : Slice)
    (routed : PageId × List FileMetaData) : Except FlushHalt Appending :=
  let visited := { state with tmpNodes := state.tmpNodes ++ [routed.1] }
  match state.nodes routed.1 with
  | none => .ok { visited with
      overflowChildren := insertPivot pivot routed.1 state.overflowChildren }
  | some node =>
      if routed.2.isEmpty then .ok visited
      else if node.lsmt4compact.isSome then .error .pending
      else
        let (opState, appended) := node.bufferAppendFiles routed.2
        .ok { visited with
          nodes := Function.update state.nodes routed.1 (some appended)
          flushed := state.flushed ++ routed.2
          childrenNeedCompaction := if opState = .kOverflow then
            insertPivot pivot routed.1 state.childrenNeedCompaction
            else state.childrenNeedCompaction }

/-- The loop; the files for each child stand in the order of the pivots. -/
def appendToChildren : List Slice → List (PageId × List FileMetaData) → Appending →
    Except FlushHalt Appending
  | pivot :: pivots, routed :: rest, state =>
      match appendFilesToChild state pivot routed with
      | .error halt => .error halt
      | .ok next => appendToChildren pivots rest next
  | _, _, state => .ok state

/-- What `CompactChildren` carries along. -/
structure Compacting where
  nodes : PageId → Option BufferNode
  disk : Disk
  overflowChildren : IndexItems

def compactChildren (config : FlushConfig) : IndexItems → Compacting →
    Except FlushHalt Compacting
  | [], state => .ok state
  | (pivot, child) :: items, state =>
      match state.nodes child with
      | none => .error .noNode
      | some node =>
          match node.bufferCompactTopLevel config state.disk with
          | .error halt => .error halt
          | .ok (opState, disk, compacted) =>
              compactChildren config items {
                nodes := Function.update state.nodes child (some compacted)
                disk := disk
                overflowChildren := if opState = .kOverflow then
                  insertPivot pivot child state.overflowChildren
                  else state.overflowChildren }

/-- The loop of `FinalizeSubtree` over the children. -/
def installChildren (hot : Bool) : List PageId → (PageId → Option BufferNode) → Disk →
    (PageId → Option BufferNode) × Disk
  | [], nodes, disk => (nodes, disk)
  | child :: rest, nodes, disk =>
      match nodes child with
      | none => installChildren hot rest nodes disk
      | some node =>
          let (removed, installed) := node.installNewBuffer disk
          let flagged := if hot then installed.setHotspot else installed
          installChildren hot rest (Function.update nodes child (some flagged)) removed

/-- `FlushFilesToChildrenNoSplit`, with the children that overflow. -/
def Subtree.flushFilesToChildrenNoSplit (config : FlushConfig) (level : Nat)
    (files : List FileMetaData) (tree : Subtree) : Except FlushHalt (IndexItems × Subtree) :=
  match AhaTree.flushFilesToChildrenNoSplit tree.items files with
  | none => .error .belowLastPivot
  | some routed =>
      match appendToChildren (pivots tree.items) routed ⟨tree.nodes, [], [], [], []⟩ with
      | .error halt => .error halt
      | .ok appended =>
          match compactChildren config appended.childrenNeedCompaction
              ⟨appended.nodes, tree.disk, appended.overflowChildren⟩ with
          | .error halt => .error halt
          | .ok compacted =>
              let (nodes, disk) := installChildren tree.buffer.hasHotspot appended.tmpNodes
                compacted.nodes compacted.disk
              .ok (compacted.overflowChildren, { tree with
                buffer := { tree.buffer with
                  lsmt := tree.buffer.lsmt.finalizeRetrieval level appended.flushed }
                nodes := nodes
                disk := disk })

/-! ## The buffers while they are prepared -/

namespace BufferNode

/-- The buffer that the node will have. -/
def current (node : BufferNode) : Lsmt :=
  (node.lsmt4compact.map Buffer.lsmt).getD node.nodeLsmt.lsmt

theorem current_of_idle {node : BufferNode} (idle : node.lsmt4compact = none) :
    node.current = node.nodeLsmt.lsmt := by
  rw [current, idle]
  rfl

theorem prepared_of_pending {node : BufferNode} (pending : node.lsmt4compact.isSome = true) :
    node.prepared.lsmt = node.current := by
  obtain ⟨buffer, isBuffer⟩ := Option.isSome_iff_exists.mp pending
  rw [prepared, current, isBuffer]
  rfl

end BufferNode

/-- The LSMT above, and those of the children. -/
def familyOf (parent : Lsmt) (nodes : PageId → Option BufferNode) :
    Option PageId → Option Lsmt
  | none => some parent
  | some child => (nodes child).map BufferNode.current

theorem familyOf_update (parent : Lsmt) (nodes : PageId → Option BufferNode) (child : PageId)
    (node : BufferNode) :
    familyOf parent (Function.update nodes child (some node)) =
      Function.update (familyOf parent nodes) (some child) (some node.current) := by
  funext here
  cases here with
  | none => rfl
  | some other =>
      by_cases same : other = child
      · subst same
        rw [Function.update_self, familyOf, Function.update_self]
        rfl
      · rw [Function.update_of_ne (fun equal => same (Option.some.inj equal)), familyOf,
          Function.update_of_ne same]
        rfl

/-- Versions may be gone, but not the newest one of a user key. -/
structure Shrinks (before after : Lsmt) : Prop where
  newest : ∀ key found, Lib.Newest Entry.sequence (after.storedVersions key) found ↔
    Lib.Newest Entry.sequence (before.storedVersions key) found
  stored : ∀ entry, after.Stored entry → before.Stored entry

theorem Shrinks.trans {before middle after : Lsmt} (first : Shrinks before middle)
    (second : Shrinks middle after) : Shrinks before after where
  newest key found := (second.newest key found).trans (first.newest key found)
  stored entry isStored := first.stored entry (second.stored entry isStored)

theorem Compacts.shrinks {lsmt after : Lsmt} (compacts : Compacts lsmt after) :
    Shrinks lsmt after :=
  ⟨compacts.newest, compacts.stored⟩

theorem Lsmt.Kept.shrinks {lsmt : Lsmt} {disk later : Disk} (kept : lsmt.Kept disk later) :
    Shrinks (lsmt.onDisk disk) (lsmt.onDisk later) where
  newest key found := by rw [kept.storedVersions]
  stored _ isStored := kept.stored_iff.mp isStored

/-- There are `kNumLevels` levels. -/
def Lsmt.Shallow (lsmt : Lsmt) : Prop :=
  ∀ level, kNumLevels ≤ level → lsmt.files level = []

namespace Checked

theorem files_of_applyFileChanges {level upper : Nat} {added : List FileMetaData}
    {deleted : List Nat} {lsmt after : Lsmt}
    (done : applyFileChanges level added deleted lsmt = .ok after) (other : upper ≠ level) :
    after.files upper = lsmt.files upper := by
  rw [applyFileChanges] at done
  split at done
  · cases done
  · cases done
    exact Function.update_of_ne other _ _

/-- A compaction changes two levels. -/
theorem files_of_compactTo {config : BufferConfig} {guards : List Slice}
    {compaction : Compaction} {lsmt after : Lsmt}
    (done : compactTo config guards compaction lsmt = .ok after) {upper : Nat}
    (deeper : compaction.level + 1 < upper) : after.files upper = lsmt.files upper := by
  have target : upper ≠ compaction.level + 1 := by omega
  have source : upper ≠ compaction.level := by omega
  rw [compactTo] at done
  split at done
  · rw [trivialMove] at done
    split at done
    · cases done
    · rename_i moved isMoved
      rw [files_of_applyFileChanges done source, files_of_applyFileChanges isMoved target]
  · rw [Checked.compact] at done
    simp only [installCompactionResults] at done
    rw [if_neg (Nat.succ_ne_self _)] at done
    split at done
    · cases done
    · rename_i removed isRemoved
      rw [files_of_applyFileChanges done target, files_of_applyFileChanges isRemoved source]
      rfl

theorem shallow_of_compactLevels {config : BufferConfig} {guards : List Slice}
    {below level : Nat} {lsmt after : Lsmt} {state : OpState}
    (enough : level + below < kNumLevels) (shallow : lsmt.Shallow)
    (done : compactLevels config guards below level lsmt = .ok (state, after)) :
    after.Shallow := by
  induction below generalizing level lsmt with
  | zero =>
      rw [compactLevels] at done
      split at done
      · cases done
        exact shallow
      · cases done
  | succ below ih =>
      rw [compactLevels] at done
      split at done
      · cases done
        exact shallow
      · split at done
        · cases done
        · simp only at done
          split at done
          · cases done
          · rename_i middle isMiddle
            have kept : middle.Shallow := by
              intro upper beyond
              have deeper : level + 1 < upper := by omega
              exact (files_of_compactTo isMiddle deeper).trans (shallow upper beyond)
            split at done
            · exact ih (by omega) kept done
            · cases done
              exact kept

theorem compactTo_runs {lsmt : Lsmt} (inv : Leveled lsmt) {compaction : Compaction}
    (fits : Fits lsmt.files compaction (compaction.level + 1)) (config : BufferConfig)
    (guards : List Slice) : ∃ after, compactTo config guards compaction lsmt = .ok after := by
  rw [compactTo]
  split
  · rename_i trivial
    rw [isTrivialMoveWithin, Bool.and_eq_true] at trivial
    obtain ⟨file, single, alone⟩ := single_of_isTrivialMove trivial.2
    exact ⟨_, trivialMove_eq inv fits single alone⟩
  · exact ⟨_, compact_eq inv fits config.toLsmtConfig guards⟩

theorem filled_of_mayNeedCompaction {config : BufferConfig} {level : Nat} {lsmt : Lsmt}
    (need : mayNeedCompaction config level lsmt = true) : lsmt.files level ≠ [] := by
  intro empty
  have score : levelScore level (lsmt.files level) = 0 := by
    simp [levelScore, empty, totalFileSize]
  rw [mayNeedCompaction] at need
  split at need
  · simp [empty] at need
  · rw [score, decide_eq_true_eq] at need
    exact absurd need (by norm_num)

theorem exists_firstBehind {lsmt : Lsmt} {level : Nat} (filled : lsmt.files level ≠ []) :
    ∃ file, lsmt.firstBehind level = some file := by
  rw [firstBehind]
  split
  · exact ⟨_, rfl⟩
  · exact ⟨_, List.head?_eq_some_head filled⟩

/-- `CompactLevel` stops at the limit. -/
theorem compactLevels_runs {config : BufferConfig} {guards : List Slice}
    {below level : Nat} {lsmt : Lsmt} (inv : Leveled lsmt) (positive : 0 < config.levelLimit)
    (bounded : config.levelLimit ≤ (level + below + 1 : Nat))
    (filled : lsmt.files level ≠ []) :
    ∃ result, compactLevels config guards below level lsmt = .ok result := by
  induction below generalizing level lsmt with
  | zero =>
      have deepest : overflows config.toLsmtConfig level = true := by
        rw [overflows, decide_eq_true_eq]
        omega
      rw [compactLevels, if_pos deepest]
      exact ⟨_, rfl⟩
  | succ below ih =>
      rw [compactLevels]
      split
      · exact ⟨_, rfl⟩
      · obtain ⟨file, isFirst⟩ := exists_firstBehind filled
        have fits := fits_setupOtherInputs inv config.toLsmtConfig (firstBehind_mem isFirst)
        have set : Leveled (setupOtherInputs config.toLsmtConfig lsmt level
            (lsmt.overlapTop level file)).2 := inv.of_same rfl rfl rfl
        obtain ⟨after, ran⟩ := compactTo_runs set fits config guards
        have done := safe_compactTo set fits config guards
        rw [ran] at done
        simp only [isFirst, ran]
        split
        · rename_i need
          exact ih done (by omega) (filled_of_mayNeedCompaction need)
        · exact ⟨_, rfl⟩

end Checked

/-- A node whose buffer is prepared further. -/
structure Prepares (disk later : Disk) (before after : BufferNode) : Prop where
  shrinks : Shrinks (before.current.onDisk disk) (after.current.onDisk later)
  shallow : before.current.Shallow → after.current.Shallow
  pending : after.lsmt4compact.isSome = before.lsmt4compact.isSome

theorem Prepares.trans {disk later last : Disk} {before middle after : BufferNode}
    (first : Prepares disk later before middle) (second : Prepares later last middle after) :
    Prepares disk last before after where
  shrinks := first.shrinks.trans second.shrinks
  shallow isShallow := second.shallow (first.shallow isShallow)
  pending := second.pending.trans first.pending

theorem Prepares.refl (disk : Disk) (node : BufferNode) : Prepares disk disk node node :=
  ⟨⟨fun _ _ => Iff.rfl, fun _ => id⟩, id, rfl⟩

/-- The same children have nodes, and each is related to what it was. -/
structure Carries (related : PageId → BufferNode → BufferNode → Prop)
    (before after : PageId → Option BufferNode) : Prop where
  page : ∀ child, before child = none → after child = none
  node : ∀ child node, before child = some node →
    ∃ later, after child = some later ∧ related child node later

theorem Carries.trans {first second whole : PageId → BufferNode → BufferNode → Prop}
    {before middle after : PageId → Option BufferNode} (one : Carries first before middle)
    (two : Carries second middle after)
    (both : ∀ child early between late, first child early between →
      second child between late → whole child early late) : Carries whole before after where
  page child isPage := two.page child (one.page child isPage)
  node child node isNode := by
    obtain ⟨between, isBetween, firstRelated⟩ := one.node child node isNode
    obtain ⟨late, isLate, secondRelated⟩ := two.node child between isBetween
    exact ⟨late, isLate, both child node between late firstRelated secondRelated⟩

/-- One node changes. -/
theorem carries_update {related : PageId → BufferNode → BufferNode → Prop}
    {nodes : PageId → Option BufferNode} {chosen : PageId} {node later : BufferNode}
    (isNode : nodes chosen = some node) (own : related chosen node later)
    (others : ∀ child other, child ≠ chosen → nodes child = some other →
      related child other other) :
    Carries related nodes (Function.update nodes chosen (some later)) where
  page child isPage := by
    have different : child ≠ chosen := by
      rintro rfl
      rw [isNode] at isPage
      cases isPage
    rw [Function.update_of_ne different]
    exact isPage
  node child other isOther := by
    by_cases same : child = chosen
    · subst same
      rw [isNode] at isOther
      cases isOther
      exact ⟨later, Function.update_self _ _ _, own⟩
    · rw [Function.update_of_ne same]
      exact ⟨other, isOther, others child other same isOther⟩

section CompactChildren

variable {config : FlushConfig} {parent : Lsmt}

theorem bufferCompactTopLevel_spec {disk later : Disk} {node after : BufferNode}
    {opState : OpState} (sound : Sound (node.current.onDisk disk))
    (pending : node.lsmt4compact.isSome = true)
    (ran : node.bufferCompactTopLevel config disk = .ok (opState, later, after)) :
    Sound after.current ∧ Compacts (node.current.onDisk disk) after.current ∧
      later = after.current.disk ∧ (node.current.Shallow → after.current.Shallow) ∧
      after.lsmt4compact.isSome = true := by
  simp only [BufferNode.bufferCompactTopLevel, BufferNode.prepared_of_pending pending] at ran
  split at ran
  · cases ran
  · split at ran
    · cases ran
    · rename_i state done compacted
      cases ran
      obtain ⟨⟨leveled, plain, retired⟩, compacts⟩ :=
        compacts_of_compactLevels sound.leveled sound.plain sound.retired compacted
      refine ⟨⟨leveled, plain, retired⟩, compacts, rfl, ?_, rfl⟩
      intro shallow
      have placed : (node.current.onDisk disk).Shallow := shallow
      rw [Checked.compactLevel] at compacted
      exact Checked.shallow_of_compactLevels (by decide) placed compacted

/-- One round of `CompactChildren`. -/
theorem family_compactChild {nodes : PageId → Option BufferNode} {disk later : Disk}
    (family : OnOneDisk disk (familyOf parent nodes)) {chosen : PageId}
    {node compacted : BufferNode} (isNode : nodes chosen = some node)
    (pending : node.lsmt4compact.isSome = true) {opState : OpState}
    (ran : node.bufferCompactTopLevel config disk = .ok (opState, later, compacted)) :
    OnOneDisk later (familyOf parent (Function.update nodes chosen (some compacted))) := by
  have found : familyOf parent nodes (some chosen) = some node.current := by
    rw [familyOf, isNode]
    rfl
  obtain ⟨sound, compacts, rfl, -, -⟩ :=
    bufferCompactTopLevel_spec (family.sound found) pending ran
  rw [familyOf_update]
  exact family.compact found sound compacts

theorem compactChildren_spec {items : IndexItems} {state done : Compacting}
    (family : OnOneDisk state.disk (familyOf parent state.nodes))
    (pending : ∀ item ∈ items, ∀ node, state.nodes item.2 = some node →
      node.lsmt4compact.isSome = true)
    (ran : compactChildren config items state = .ok done) :
    OnOneDisk done.disk (familyOf parent done.nodes) ∧ state.disk.Extends done.disk ∧
      Carries (fun _ => Prepares state.disk done.disk) state.nodes done.nodes := by
  induction items generalizing state with
  | nil =>
      cases ran
      exact ⟨family, .refl _, fun _ => id, fun _ node isNode => ⟨node, isNode, .refl _ node⟩⟩
  | cons item items ih =>
      obtain ⟨pivot, chosen⟩ := item
      rw [compactChildren] at ran
      split at ran
      · cases ran
      · rename_i node isNode
        split at ran
        · cases ran
        · rename_i opState later compacted isCompacted
          have found : familyOf parent state.nodes (some chosen) = some node.current := by
            rw [familyOf, isNode]
            rfl
          have isPending := pending _ List.mem_cons_self node isNode
          have next := family_compactChild family isNode isPending isCompacted
          obtain ⟨sound, compacts, rfl, shallow, stillPending⟩ :=
            bufferCompactTopLevel_spec (family.sound found) isPending isCompacted
          have grown : state.disk.Extends compacted.current.disk := compacts.grown
          have first : Carries (fun _ => Prepares state.disk compacted.current.disk)
              state.nodes (Function.update state.nodes chosen (some compacted)) := by
            refine carries_update isNode
              ⟨compacts.shrinks, shallow, stillPending.trans isPending.symm⟩ ?_
            intro child other _ isOther
            have isPlaced : familyOf parent state.nodes (some child) = some other.current := by
              rw [familyOf, isOther]
              rfl
            exact ⟨(kept_of_extends (family.sound isPlaced).leveled grown).shrinks, id, rfl⟩
          obtain ⟨last, further, rest⟩ := ih next (by
            intro item member other isOther
            simp only at isOther
            by_cases same : item.2 = chosen
            · rw [same, Function.update_self] at isOther
              cases isOther
              exact stillPending
            · rw [Function.update_of_ne same] at isOther
              exact pending item (List.mem_cons_of_mem _ member) other isOther) ran
          exact ⟨last, grown.trans further, first.trans rest
            (fun _ _ _ _ step steps => step.trans steps)⟩

/-- A child that is to be compacted. -/
structure BufferNode.Ready (node : BufferNode) : Prop where
  pending : node.lsmt4compact.isSome = true
  filled : node.current.files 0 ≠ []
  limited : 0 < node.prepared.config.levelLimit ∧
    node.prepared.config.levelLimit ≤ kNumLevels

theorem bufferCompactTopLevel_runs {disk : Disk} {node : BufferNode}
    (sound : Sound (node.current.onDisk disk)) (ready : node.Ready)
    (limit : config.nodeLsmtLevelLimit ≤ kNumLevels) :
    ∃ result, node.bufferCompactTopLevel config disk = .ok result := by
  have positive : 0 < BufferNode.newLevel config := by
    rw [BufferNode.newLevel]
    split <;> omega
  have less : BufferNode.newLevel config < kNumLevels := by
    have levels : (1 : Int) < kNumLevels := by decide
    rw [BufferNode.newLevel]
    split <;> omega
  simp only [BufferNode.bufferCompactTopLevel, BufferNode.prepared_of_pending ready.pending]
  rw [if_neg (by simp [positive, less])]
  have limited : ∀ chosen : BufferConfig,
      0 < chosen.levelLimit ∧ chosen.levelLimit ≤ kNumLevels →
      ∃ result, Checked.compactLevel chosen node.page.keys 0 (node.current.onDisk disk) =
        .ok result := by
    rintro chosen ⟨above, below⟩
    exact Checked.compactLevels_runs sound.leveled above below ready.filled
  obtain ⟨result, isResult⟩ := limited (if (!node.page.isLeaf && config.hasBufferPage) = true then
      { node.prepared.config with levelLimit := BufferNode.newLevel config }
      else node.prepared.config) (by
    split
    · exact ⟨positive, less.le⟩
    · exact ready.limited)
  rw [isResult]
  exact ⟨_, rfl⟩

theorem compactChildren_runs {items : IndexItems} {state : Compacting}
    (family : OnOneDisk state.disk (familyOf parent state.nodes))
    (distinct : (items.map Prod.snd).Nodup)
    (ready : ∀ item ∈ items, ∃ node, state.nodes item.2 = some node ∧ node.Ready)
    (limit : config.nodeLsmtLevelLimit ≤ kNumLevels) :
    ∃ done, compactChildren config items state = .ok done := by
  induction items generalizing state with
  | nil => exact ⟨state, rfl⟩
  | cons item items ih =>
      obtain ⟨pivot, chosen⟩ := item
      obtain ⟨apart, restDistinct⟩ := List.nodup_cons.mp distinct
      obtain ⟨node, isNode, isReady⟩ := ready _ List.mem_cons_self
      have isChosen : state.nodes chosen = some node := isNode
      have found : familyOf parent state.nodes (some chosen) = some node.current := by
        rw [familyOf, isChosen]
        rfl
      obtain ⟨⟨opState, later, compacted⟩, ran⟩ :=
        bufferCompactTopLevel_runs (family.sound found) isReady limit
      simp only [compactChildren, isChosen, ran]
      refine ih (family_compactChild family isChosen isReady.pending ran) restDistinct ?_
      intro other member
      obtain ⟨otherNode, isOther, otherReady⟩ := ready other (List.mem_cons_of_mem _ member)
      refine ⟨otherNode, ?_, otherReady⟩
      have different : other.2 ≠ chosen := by
        intro same
        exact apart (List.mem_map.mpr ⟨other, member, same⟩)
      exact (Function.update_of_ne different _ _).trans isOther

end CompactChildren

/-! ## Appending the files -/

theorem mem_insertPivot {pivot : Slice} {child : PageId} {items : IndexItems}
    {item : Slice × PageId} (member : item ∈ insertPivot pivot child items) :
    item = (pivot, child) ∨ item ∈ items := by
  induction items with
  | nil => exact .inl (List.mem_singleton.mp member)
  | cons first items ih =>
      rw [insertPivot] at member
      split at member
      · exact List.mem_cons.mp member
      · rcases List.mem_cons.mp member with same | later
        · exact .inl same
        · exact .inr (List.mem_cons_of_mem _ later)
      · rcases List.mem_cons.mp member with rfl | later
        · exact .inr List.mem_cons_self
        · exact (ih later).imp_right (List.mem_cons_of_mem _)

theorem nodup_insertPivot {pivot : Slice} {child : PageId} {items : IndexItems}
    (new : child ∉ items.map Prod.snd) (distinct : (items.map Prod.snd).Nodup) :
    ((insertPivot pivot child items).map Prod.snd).Nodup := by
  induction items with
  | nil => exact List.nodup_singleton _
  | cons first items ih =>
      obtain ⟨apart, restDistinct⟩ := List.nodup_cons.mp distinct
      have others := new
      rw [List.map_cons, List.mem_cons, not_or] at others
      rw [insertPivot]
      split
      · exact List.nodup_cons.mpr ⟨new, distinct⟩
      · exact List.nodup_cons.mpr ⟨others.2, restDistinct⟩
      · refine List.nodup_cons.mpr ⟨?_, ih others.2 restDistinct⟩
        intro member
        obtain ⟨item, isItem, same⟩ := List.mem_map.mp member
        rcases mem_insertPivot isItem with rfl | old
        · exact others.1 same
        · exact apart (List.mem_map.mpr ⟨item, old, same⟩)

/-- The node after the files for it have been appended. -/
def BufferNode.appended (files : List FileMetaData) (node : BufferNode) : BufferNode :=
  if files.isEmpty then node else (node.bufferAppendFiles files).2

/-- The files that go to a child with a node. -/
def buffered (nodes : PageId → Option BufferNode) (routed : PageId × List FileMetaData) :
    List FileMetaData :=
  if (nodes routed.1).isSome then routed.2 else []

/-- What the loop has done to the children that it has visited. -/
structure Appends (routed : List (PageId × List FileMetaData)) (state done : Appending) :
    Prop where
  others : ∀ child, child ∉ routed.map Prod.fst → done.nodes child = state.nodes child
  nodes : ∀ pair ∈ routed,
    done.nodes pair.1 = (state.nodes pair.1).map (BufferNode.appended pair.2)
  tmpNodes : done.tmpNodes = state.tmpNodes ++ routed.map Prod.fst
  flushed : done.flushed = state.flushed ++ routed.flatMap (buffered state.nodes)
  need : ∀ item ∈ done.childrenNeedCompaction, item ∈ state.childrenNeedCompaction ∨
    ∃ pair ∈ routed, pair.1 = item.2 ∧ pair.2 ≠ [] ∧ (state.nodes pair.1).isSome = true
  distinct : (state.childrenNeedCompaction.map Prod.snd).Nodup →
    (∀ item ∈ state.childrenNeedCompaction, item.2 ∉ routed.map Prod.fst) →
    (done.childrenNeedCompaction.map Prod.snd).Nodup

theorem appendFilesToChild_spec {state : Appending} (pivot : Slice)
    {routed : PageId × List FileMetaData}
    (idle : ∀ node, state.nodes routed.1 = some node → node.lsmt4compact = none) :
    ∃ done, appendFilesToChild state pivot routed = .ok done ∧
      Appends [routed] state done := by
  rw [appendFilesToChild]
  cases isNode : state.nodes routed.1 with
  | none =>
      refine ⟨_, rfl, fun _ _ => rfl, ?_, rfl, ?_, fun _ => .inl, fun distinct _ => distinct⟩
      · intro pair member
        rw [List.mem_singleton.mp member, isNode]
        rfl
      · simp [buffered, isNode]
  | some node =>
      simp only
      by_cases empty : routed.2.isEmpty = true
      · rw [if_pos empty]
        refine ⟨_, rfl, fun _ _ => rfl, ?_, rfl, ?_, fun _ => .inl, fun distinct _ => distinct⟩
        · intro pair member
          rw [List.mem_singleton.mp member, isNode, Option.map_some, BufferNode.appended,
            if_pos empty]
        · simp [buffered, isNode, List.isEmpty_iff.mp empty]
      · rw [if_neg empty, idle node isNode, if_neg (by simp)]
        refine ⟨_, rfl, ?_, ?_, rfl, ?_, ?_, ?_⟩
        · intro child different
          exact Function.update_of_ne (by simpa using different) _ _
        · intro pair member
          rw [List.mem_singleton.mp member, isNode, Option.map_some, BufferNode.appended,
            if_neg empty]
          exact Function.update_self _ _ _
        · simp [buffered, isNode]
        · intro item member
          have full : routed.2 ≠ [] := fun isNil => empty (List.isEmpty_iff.mpr isNil)
          simp only at member
          split at member
          · rcases mem_insertPivot member with rfl | old
            · exact .inr ⟨routed, List.mem_singleton_self _, rfl, full, by rw [isNode]; rfl⟩
            · exact .inl old
          · exact .inl member
        · intro distinct apart
          simp only
          split
          · refine nodup_insertPivot ?_ distinct
            intro member
            obtain ⟨item, isItem, same⟩ := List.mem_map.mp member
            exact apart item isItem (by simp [same])
          · exact distinct

theorem appendToChildren_spec {keys : List Slice}
    {routed : List (PageId × List FileMetaData)} {state : Appending}
    (distinct : (routed.map Prod.fst).Nodup) (enough : routed.length ≤ keys.length)
    (idle : ∀ pair ∈ routed, ∀ node, state.nodes pair.1 = some node →
      node.lsmt4compact = none) :
    ∃ done, appendToChildren keys routed state = .ok done ∧ Appends routed state done := by
  induction routed generalizing keys state with
  | nil =>
      refine ⟨state, ?_, fun _ _ => rfl, fun _ member => absurd member List.not_mem_nil,
        (List.append_nil _).symm, (List.append_nil _).symm, fun _ => .inl,
        fun distinct _ => distinct⟩
      cases keys <;> rfl
  | cons first routed ih =>
      cases keys with
      | nil => exact absurd enough (by simp)
      | cons pivot keys =>
          obtain ⟨apart, restDistinct⟩ := List.nodup_cons.mp distinct
          obtain ⟨next, isNext, one⟩ :=
            appendFilesToChild_spec pivot (idle first List.mem_cons_self)
          have same : ∀ pair ∈ routed, next.nodes pair.1 = state.nodes pair.1 := by
            intro pair member
            refine one.others pair.1 ?_
            simp only [List.map_cons, List.map_nil, List.mem_singleton]
            intro equal
            exact apart (equal ▸ List.mem_map_of_mem member)
          obtain ⟨done, isDone, rest⟩ := ih restDistinct
            (Nat.le_of_succ_le_succ enough) (by
              intro pair member node isNode
              rw [same pair member] at isNode
              exact idle pair (List.mem_cons_of_mem _ member) node isNode)
          refine ⟨done, ?_, ?_, ?_, ?_, ?_, ?_, ?_⟩
          · rw [appendToChildren, isNext]
            exact isDone
          · intro child unrouted
            rw [List.map_cons, List.mem_cons, not_or] at unrouted
            rw [rest.others child unrouted.2]
            refine one.others child ?_
            simpa using unrouted.1
          · intro pair member
            rcases List.mem_cons.mp member with rfl | later
            · rw [rest.others pair.1 apart]
              exact one.nodes pair (List.mem_singleton_self _)
            · rw [rest.nodes pair later, same pair later]
          · rw [rest.tmpNodes, one.tmpNodes]
            simp
          · have sameBuffered : routed.flatMap (buffered next.nodes) =
                routed.flatMap (buffered state.nodes) := by
              refine List.flatMap_congr ?_
              intro pair member
              rw [buffered, buffered, same pair member]
            rw [rest.flushed, one.flushed, sameBuffered]
            simp
          · intro item member
            rcases rest.need item member with early | ⟨pair, later, isPair⟩
            · rcases one.need item early with old | ⟨pair, isFirst, isPair⟩
              · exact .inl old
              · rw [List.mem_singleton.mp isFirst] at isPair
                exact .inr ⟨first, List.mem_cons_self, isPair⟩
            · rw [same pair later] at isPair
              exact .inr ⟨pair, List.mem_cons_of_mem _ later, isPair⟩
          · intro distinctNeed old
            refine rest.distinct (one.distinct distinctNeed ?_) ?_
            · intro item member isFirst
              exact old item member (List.mem_cons.mpr (.inl (List.mem_singleton.mp isFirst)))
            · intro item member
              rcases one.need item member with early | ⟨pair, isFirst, isPair, -, -⟩
              · exact fun inside => old item early (List.mem_cons_of_mem _ inside)
              · rw [List.mem_singleton.mp isFirst] at isPair
                exact isPair ▸ apart

/-! ## Installing the buffers -/

theorem Lsmt.Kept.trans {lsmt other : Lsmt} {disk later last : Disk}
    (first : lsmt.Kept disk later) (second : other.Kept later last)
    (same : other.files = lsmt.files) : lsmt.Kept disk last where
  fileId := first.fileId.trans second.fileId
  tables level file member :=
    (second.tables level file (same.symm ▸ member)).trans (first.tables level file member)

/-- A node whose buffer is installed if it is visited. -/
structure Installs (disk later : Disk) (visited : Prop) (before after : BufferNode) :
    Prop where
  files : after.current.files = before.current.files
  kept : before.current.Kept disk later
  idle : visited → after.lsmt4compact = none
  unvisited : ¬ visited → after = before

theorem Installs.shrinks {disk later : Disk} {visited : Prop} {before after : BufferNode}
    (installs : Installs disk later visited before after) :
    Shrinks (before.current.onDisk disk) (after.current.onDisk later) := by
  have same : ∀ {entry : Entry}, (after.current.onDisk later).Stored entry ↔
      (before.current.onDisk later).Stored entry := by
    intro entry
    simp only [Stored, onDisk, installs.files]
  have versions : ∀ key, (after.current.onDisk later).storedVersions key =
      (before.current.onDisk later).storedVersions key := by
    intro key
    ext entry
    exact and_congr_left' same
  refine installs.kept.shrinks.trans ⟨?_, ?_⟩
  · intro key found
    rw [versions]
  · intro entry isStored
    exact same.mp isStored

theorem installNewBuffer_current (disk : Disk) (node : BufferNode) (hot : Bool) :
    let installed := (node.installNewBuffer disk).2
    let flagged := if hot then installed.setHotspot else installed
    flagged.lsmt4compact = none ∧
      ((node.installNewBuffer disk).1 = disk ∧ flagged.current = node.current ∨
        (node.installNewBuffer disk).1 = disk.removeFiles node.current.obsoleteFiles ∧
          flagged.current = { node.current with obsoleteFiles := [] }) := by
  cases isPending : node.lsmt4compact with
  | none =>
      simp only [BufferNode.installNewBuffer, isPending]
      refine ⟨?_, .inl ⟨trivial, ?_⟩⟩
      · cases hot <;> exact isPending
      · cases hot
        · rfl
        · simp [BufferNode.current, BufferNode.setHotspot, isPending]
  | some pending =>
      simp only [BufferNode.installNewBuffer, isPending]
      refine ⟨?_, .inr ⟨?_, ?_⟩⟩
      · cases hot <;> rfl
      · simp [BufferNode.current, isPending]
      · cases hot <;> simp [BufferNode.current, BufferNode.setHotspot, isPending]

theorem Lsmt.Kept.refl (lsmt : Lsmt) (disk : Disk) : lsmt.Kept disk disk :=
  ⟨le_rfl, fun _ _ _ => rfl⟩

/-- One round of the loop of `FinalizeSubtree`. -/
theorem installChild_spec {parent : Lsmt} (hot : Bool)
    {nodes : PageId → Option BufferNode} {disk : Disk}
    (family : OnOneDisk disk (familyOf parent nodes)) {chosen : PageId} {node : BufferNode}
    (isNode : nodes chosen = some node) :
    let installed := (node.installNewBuffer disk).2
    let flagged := if hot then installed.setHotspot else installed
    OnOneDisk (node.installNewBuffer disk).1
        (familyOf parent (Function.update nodes chosen (some flagged))) ∧
      parent.Kept disk (node.installNewBuffer disk).1 ∧
      Carries (fun child => Installs disk (node.installNewBuffer disk).1 (child = chosen))
        nodes (Function.update nodes chosen (some flagged)) := by
  have found : familyOf parent nodes (some chosen) = some node.current := by
    rw [familyOf, isNode]
    rfl
  obtain ⟨idle, done⟩ := installNewBuffer_current disk node hot
  intro installed flagged
  have next : OnOneDisk (node.installNewBuffer disk).1
        (familyOf parent (Function.update nodes chosen (some flagged))) ∧
      flagged.current.files = node.current.files ∧
      ∀ {there other}, familyOf parent nodes there = some other →
        other.Kept disk (node.installNewBuffer disk).1 := by
    rw [familyOf_update]
    rcases done with ⟨later, same⟩ | ⟨later, same⟩
    · rw [later, same, ← found, Function.update_eq_self]
      exact ⟨family, rfl, fun _ => .refl _ _⟩
    · rw [later, same]
      exact ⟨family.remove found, rfl, fun isOther => family.kept_removeFiles found isOther⟩
  obtain ⟨nextFamily, sameFiles, kept⟩ := next
  have parentKept : parent.Kept disk (node.installNewBuffer disk).1 :=
    @kept none parent rfl
  refine ⟨nextFamily, parentKept, carries_update isNode ?_ ?_⟩
  · exact ⟨sameFiles, kept found, fun _ => idle, fun other => absurd rfl other⟩
  · intro child other different isOther
    have isPlaced : familyOf parent nodes (some child) = some other.current := by
      rw [familyOf, isOther]
      rfl
    exact ⟨rfl, kept isPlaced, fun same => absurd same different, fun _ => rfl⟩

theorem installChildren_spec {parent : Lsmt} (hot : Bool) (children : List PageId)
    {nodes : PageId → Option BufferNode} {disk : Disk}
    (family : OnOneDisk disk (familyOf parent nodes)) :
    OnOneDisk (installChildren hot children nodes disk).2
        (familyOf parent (installChildren hot children nodes disk).1) ∧
      parent.Kept disk (installChildren hot children nodes disk).2 ∧
      Carries (fun child => Installs disk (installChildren hot children nodes disk).2
        (child ∈ children)) nodes (installChildren hot children nodes disk).1 := by
  induction children generalizing nodes disk with
  | nil =>
      refine ⟨family, .refl _ _, fun _ => id, ?_⟩
      intro child node isNode
      exact ⟨node, isNode, rfl, .refl _ _, fun visited => absurd visited List.not_mem_nil,
        fun _ => rfl⟩
  | cons chosen children ih =>
      rw [installChildren]
      split
      · rename_i isNone
        obtain ⟨last, parentKept, rest⟩ := ih family
        refine ⟨last, parentKept, rest.page, ?_⟩
        intro child node isNode
        obtain ⟨later, isLater, installs⟩ := rest.node child node isNode
        have different : child ≠ chosen := by
          rintro rfl
          rw [isNone] at isNode
          cases isNode
        have iff : (child ∈ chosen :: children) = (child ∈ children) := by simp [different]
        rw [iff]
        exact ⟨later, isLater, installs⟩
      · rename_i node isNode
        obtain ⟨nextFamily, nextKept, first⟩ := installChild_spec hot family isNode
        obtain ⟨last, parentKept, rest⟩ := ih nextFamily
        refine ⟨last, nextKept.trans parentKept rfl, first.trans rest ?_⟩
        intro child early between late step steps
        refine ⟨steps.files.trans step.files, step.kept.trans steps.kept step.files, ?_, ?_⟩
        · intro visited
          by_cases again : child ∈ children
          · exact steps.idle again
          · rw [steps.unvisited again]
            exact step.idle ((List.mem_cons.mp visited).resolve_right again)
        · intro unvisited
          rw [List.mem_cons, not_or] at unvisited
          rw [steps.unvisited unvisited.2, step.unvisited unvisited.1]

end AhaTree
