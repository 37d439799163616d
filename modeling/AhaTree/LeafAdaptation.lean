import AhaTree.ChildFlush
import AhaTree.TreeCompaction
import AhaTree.SlottedSpace

/-!
# Adapting a leaf

A leaf with a buffer is taken apart in one of three ways.  `BulkloadLeafnode` gives
every file of the bottom level a small leaf of its own and turns the leaf into an
index page above them.  `SplitSmallLeaf` writes the buffer into leaf pages without
buffers.  `SplitLeafAndLSMT` compacts the buffer into files for small leaves.  What
the last two make of the leaf takes its place in the page above, unless it is one
page or one file and stays in the leaf.  What ends the process is `none`.
-/

namespace AhaTree

open Lsmt

/-! ## Nodes -/

/-- A node of `node_table_` with an LSMT. -/
structure TableNode where
  nodeLsmt : Buffer
  lsmt4compact : Option Buffer

/-- The options of the tree that new nodes get. -/
structure NodeOptions where
  tables : LsmtConfig
  nodeLsmtLevelLimit : Int
  leafLimit : Nat

/-- The LSMT of a new node. -/
def NodeOptions.newBuffer (options : NodeOptions) (levelLimit : Int) (status : LsmtStatus) :
    Buffer where
  config :=
    { options.tables with
      levelLimit := levelLimit
      status := status
      leafLimit := options.leafLimit }
  lsmt := Lsmt.empty
  hasHotspot := false

namespace Lsmt

/-- The two loops of `GetSmallestUserKey`, of which the second one reads the first
file of each level. -/
def getSmallestUserKey (levels : Levels) : Slice :=
  let starts := (levels 0).map FileMetaData.start ++
    (List.range' 1 (levelCount levels - 1)).filterMap fun level =>
      (levels level).head?.map FileMetaData.start
  starts.foldl (fun smallest start =>
    if smallest.isEmpty || (Slice.compare start smallest).isLT then start else smallest) []

def getBottomLevelFiles (levels : Levels) : List FileMetaData :=
  ((getBottomLevel levels).map levels).getD []

def needCompactBottomLevel (levels : Levels) : Bool :=
  getBottomLevel levels == some 0 && (levels 0).length != 1

end Lsmt

namespace TableNode

/-- The buffer that is prepared. -/
def prepared (node : TableNode) : Buffer :=
  node.lsmt4compact.getD node.nodeLsmt.copy

def prepare (lsmt : Lsmt) (node : TableNode) : TableNode :=
  { node with lsmt4compact := some { node.prepared with lsmt := lsmt } }

/-- What the setters of a node set: the prepared buffer if there is one. -/
def setBuffer (change : BufferConfig → BufferConfig) (node : TableNode) : TableNode :=
  match node.lsmt4compact with
  | some pending =>
      { node with lsmt4compact := some { pending with config := change pending.config } }
  | none =>
      { node with nodeLsmt := { node.nodeLsmt with config := change node.nodeLsmt.config } }

def setBufferStatus (status : LsmtStatus) (node : TableNode) : TableNode :=
  node.setBuffer fun config => { config with status := status }

def setBufferLevelLimit (limit : Int) (node : TableNode) : TableNode :=
  node.setBuffer fun config => { config with levelLimit := limit }

def bufferClear (node : TableNode) : TableNode :=
  node.prepare (Checked.clear node.prepared.lsmt)

def bufferClearAll (node : TableNode) : TableNode :=
  node.prepare (Checked.clearAll node.prepared.lsmt)

def bufferClearBottomLevelFiles (node : TableNode) : TableNode :=
  node.prepare node.prepared.lsmt.clearBottomLevelFiles

/-- `BufferCompactBottomLevel` without a page. -/
def bufferCompactBottomLevel (disk : Disk) (node : TableNode) : Option (Disk × TableNode) := do
  let done ← (Checked.compactBottomLevel node.prepared.config.toLsmtConfig none
    (node.prepared.lsmt.onDisk disk)).toOption
  return (done.disk, node.prepare done)

/-- `BufferCompactTree`, with the new `split_num` and the output files. -/
def bufferCompactTree (splitNum : Nat) (disk : Disk) (node : TableNode) :
    Option (Nat × List FileMetaData × Disk × TableNode) := do
  let (splitNum, outFiles, done) ←
    (node.prepared.lsmt.onDisk disk).compactTreeBySplit node.prepared.config.toLsmtConfig splitNum
  return (splitNum, outFiles, done.disk, node.prepare done)

def bufferAddFiles (guards : List Slice) (files : List FileMetaData) (disk : Disk)
    (node : TableNode) : Option (Disk × TableNode) := do
  let (_, done) ← (Checked.addFiles node.prepared.config guards files
    (node.prepared.lsmt.onDisk disk)).toOption
  return (done.disk, node.prepare done)

/-- `GetObsoleteFilesAndInstallNewBuffer`, with the obsolete files. -/
def getObsoleteFilesAndInstallNewBuffer (node : TableNode) : List Nat × TableNode :=
  match node.lsmt4compact with
  | none => ([], node)
  | some pending => (pending.lsmt.obsoleteFiles,
      { nodeLsmt := { pending with lsmt := { pending.lsmt with obsoleteFiles := [] } }
        lsmt4compact := none })

end TableNode

/-! ## The tree -/

/-- A page of the tree: the entries of a leaf, or the bytes of an index page. -/
inductive TreePage where
  | leaf (entries : List Entry)
  | index (page : Slotted.Page)

/-- What `PageReadPivotAtOffset` reads of a page. -/
def TreePage.pivots : TreePage → List Slice
  | .leaf entries => entries.map fun entry => entry.key.encode
  | .index page => page.keys

/-- What adaptations work on: the table files, the nodes that have an LSMT, the
pages, the ids that `Allocate` gives out next, `nodes_in_progress`, and the numbers
of the files that have been removed. -/
structure WotIndex where
  disk : Disk
  nodeTable : UInt32 → Option TableNode
  pages : UInt32 → TreePage
  newIds : List UInt32
  nodesInProgress : List UInt32
  removed : List Nat

namespace WotIndex

def setNode (id : UInt32) (node : TableNode) (tree : WotIndex) : WotIndex :=
  { tree with nodeTable := Function.update tree.nodeTable id (some node) }

def eraseNode (id : UInt32) (tree : WotIndex) : WotIndex :=
  { tree with nodeTable := Function.update tree.nodeTable id none }

def setPage (id : UInt32) (page : TreePage) (tree : WotIndex) : WotIndex :=
  { tree with pages := Function.update tree.pages id page }

def indexPage (id : UInt32) (tree : WotIndex) : Option Slotted.Page :=
  match tree.pages id with
  | .leaf _ => none
  | .index page => some page

/-- `RemoveFiles`. -/
def removeFiles (dead : List Nat) (tree : WotIndex) : WotIndex :=
  { tree with
    disk := tree.disk.removeFiles dead
    removed := tree.removed ++ dead }

/-- `InstallNewBuffer` of a node. -/
def installNewBuffer (id : UInt32) (node : TableNode) (tree : WotIndex) : WotIndex :=
  let (dead, installed) := node.getObsoleteFilesAndInstallNewBuffer
  (tree.setNode id installed).removeFiles dead

/-- `Allocate`: an empty page. -/
def allocate (tree : WotIndex) : Option (UInt32 × WotIndex) :=
  match tree.newIds with
  | [] => none
  | id :: newIds =>
      some (id, { tree with newIds := newIds }.setPage id (.index (Slotted.allocate id.toNat)))

/-! ## Bulkloading -/

def addNewNode (options : NodeOptions) (id : UInt32) (leafNode : Bool)
    (file : Option FileMetaData) (smallLeaf : Bool) (tree : WotIndex) : Option WotIndex :=
  let buffer :=
    if leafNode && smallLeaf then options.newBuffer 1 .kSmallLeaf
    else options.newBuffer options.nodeLsmtLevelLimit (if leafNode then .kLeaf else .kBuffer)
  match file with
  | none => some (tree.setNode id ⟨buffer, none⟩)
  | some file => do
      let (_, added) ←
        (Checked.addFile buffer.config [] 0 file (buffer.lsmt.onDisk tree.disk)).toOption
      return { tree with disk := added.disk }.setNode id ⟨{ buffer with lsmt := added }, none⟩

/-- What a round of `BulkloadFiles` carries along: the tree, the index page that is
filled, and all index pages of the round. -/
structure FileLoading where
  tree : WotIndex
  insertToId : UInt32
  newNodes : List UInt32

/-- A new index page. -/
def FileLoading.turnPage (options : NodeOptions) (smallLeaf : Bool) (loading : FileLoading) :
    Option FileLoading := do
  let (id, tree) ← loading.tree.allocate
  let tree ← tree.addNewNode options id false none smallLeaf
  return ⟨tree, id, loading.newNodes ++ [id]⟩

/-- A file gets a leaf, and the leaf an entry of an index page. -/
def loadFile (options : NodeOptions) (keySize : Nat) (smallLeaf : Bool) (loading : FileLoading)
    (file : FileMetaData) : Option FileLoading := do
  let (inserted, tree) ← loading.tree.allocate
  let tree ← tree.addNewNode options inserted true (some file) smallLeaf
  let tree := tree.setPage inserted (.leaf [])
  let page ← tree.indexPage loading.insertToId
  let loading ←
    if page.getFreeSpace < keySize + 3 * itemIdSize then
      FileLoading.turnPage options smallLeaf { loading with tree := tree }
    else some { loading with tree := tree }
  let page ← loading.tree.indexPage loading.insertToId
  let page ← page.insertIndexEntry file.start inserted
  return { loading with tree := loading.tree.setPage loading.insertToId (.index page) }

/-- The round of `BulkloadFiles` over the files.  There are others above it if this
one fills several pages, but then the height is above one. -/
def bulkloadFiles (options : NodeOptions) (files : List FileMetaData) (smallLeaf : Bool)
    (tree : WotIndex) : Option (List UInt32 × WotIndex) := do
  let keySize := (files.head?.map fun file => file.start.length).getD 0
  let (id, tree) ← tree.allocate
  let tree ← tree.addNewNode options id false none smallLeaf
  let loading ← files.foldlM (loadFile options keySize smallLeaf) ⟨tree, id, [id]⟩
  return (loading.newNodes, loading.tree)

/-- The files of the bottom level, which are compacted first in level 0. -/
def bottomFilesToLoad (disk : Disk) (oldNode : TableNode) :
    Option (Disk × TableNode × List FileMetaData) :=
  if needCompactBottomLevel oldNode.nodeLsmt.lsmt.files then do
    let (disk, compacted) ← oldNode.bufferCompactBottomLevel disk
    return (disk, compacted, getBottomLevelFiles compacted.prepared.lsmt.files)
  else some (disk, oldNode, getBottomLevelFiles oldNode.nodeLsmt.lsmt.files)

/-- The leaf becomes an index page over the files of its bottom level. -/
def loadLeaf (options : NodeOptions) (nodeId : UInt32) (minKey : Slice)
    (bottomFiles : List FileMetaData) (oldNode : TableNode) (tree : WotIndex) :
    Option WotIndex := do
  let (topLevel, loaded) ← tree.bulkloadFiles options bottomFiles true
  match topLevel with
  | [top] =>
      let newPage ← loaded.indexPage top
      let newPage :=
        if (Slice.compare minKey (newPage.readPivotAtOffset 0)).isLT then
          newPage.updateMinPivot minKey
        else newPage
      let copied := (loaded.eraseNode top).setPage nodeId (.index { newPage with
        pageId := nodeId.toNat
        isLeaf := false
        isDirty := true })
      return copied.installNewBuffer nodeId
        (oldNode.setBufferStatus .kBuffer).bufferClearBottomLevelFiles
  | _ => none

def bulkloadLeafnode (options : NodeOptions) (nodeId : UInt32) (tree : WotIndex) :
    Option WotIndex := do
  let oldNode ← tree.nodeTable nodeId
  if getBottomLevel oldNode.nodeLsmt.lsmt.files = none then return tree
  let minKey := getSmallestUserKey oldNode.nodeLsmt.lsmt.files
  let (disk, oldNode, bottomFiles) ← bottomFilesToLoad tree.disk oldNode
  let tree := { tree with disk := disk }
  match bottomFiles with
  | [] => none
  | [file] =>
      if file.fileEntry = 0 then return tree.eraseNode nodeId
      else return tree.installNewBuffer nodeId (oldNode.setBufferStatus .kSmallLeaf)
  | _ => tree.loadLeaf options nodeId minKey bottomFiles oldNode

/-! ## Splitting a small leaf -/

/-- The pages of `WriteToPage`, under their pivots, which are the first user keys. -/
def placePages : List (List Entry) → WotIndex → Option (Slotted.SlicePageMap × WotIndex)
  | [], tree => some ([], tree)
  | page :: pages, tree => do
      let (newPgId, tree) ← tree.allocate
      let (result, tree) ← placePages pages (tree.setPage newPgId (.leaf page))
      return (((page.head?.map Entry.userKey).getD [], newPgId) :: result, tree)

/-- A leaf page without entries. -/
def isEmptyPage : TreePage → Bool
  | .leaf entries => entries.isEmpty
  | .index page => page.itemNum == 0

def splitSmallLeaf (getPageSplitPolicy : Nat → Nat → PageSplitPolicy) (pgId : UInt32)
    (tree : WotIndex) : Option (Slotted.SlicePageMap × WotIndex) := do
  let node ← tree.nodeTable pgId
  if !isEmptyPage (tree.pages pgId) then none
  let pages ← writeToPage getPageSplitPolicy (node.nodeLsmt.lsmt.onDisk tree.disk).mergedLevels
  let (result, tree) ← tree.placePages pages
  let cleared := node.bufferClearAll
  match pages with
  | [page] =>
      let (dead, _) := cleared.getObsoleteFilesAndInstallNewBuffer
      return ([], ((tree.setPage pgId (.leaf page)).eraseNode pgId).removeFiles dead)
  | _ =>
      let tree := tree.setNode pgId cleared
      return (result, { tree with nodesInProgress := tree.nodesInProgress ++ [pgId] })

/-! ## Splitting a leaf and its buffer -/

/-- The new leaf pages. -/
def allocateLeaves : Nat → WotIndex → Option (List UInt32 × WotIndex)
  | 0, tree => some ([], tree)
  | number + 1, tree => do
      let (pId, tree) ← tree.allocate
      let (newPages, tree) ← allocateLeaves number (tree.setPage pId (.leaf []))
      return (pId :: newPages, tree)

/-- The files behind the first one go to the new leaves. -/
def addFilesToLeaves : List FileMetaData → List UInt32 → WotIndex →
    Option (Slotted.SlicePageMap × WotIndex)
  | file :: files, newPage :: newPages, tree => do
      let node ← tree.nodeTable newPage
      let (disk, added) ← node.bufferAddFiles (tree.pages newPage).pivots [file] tree.disk
      let tree := { tree with disk := disk }.installNewBuffer newPage added
      let (result, tree) ← addFilesToLeaves files newPages tree
      return ((file.start, newPage) :: result, tree)
  | _, _, tree => some ([], tree)

def splitLeafAndLsmt (options : NodeOptions) (pgId : UInt32) (tree : WotIndex) :
    Option (Slotted.SlicePageMap × WotIndex) := do
  let node ← tree.nodeTable pgId
  let allocSize := node.nodeLsmt.config.outputFileSize
  let splitNum := max 2 (node.nodeLsmt.lsmt.totalFileSizeLsmt / allocSize + 1)
  let (splitNum, outFiles, disk, compacted) ← node.bufferCompactTree splitNum tree.disk
  let cleared := (compacted.bufferClear.setBufferStatus .kSmallLeaf).setBufferLevelLimit 1
  let (newPages, tree) ← { tree with disk := disk }.allocateLeaves (splitNum - 1)
  match outFiles with
  | [file] =>
      let (disk, added) ← cleared.bufferAddFiles (tree.pages pgId).pivots [file] tree.disk
      return ([], { tree with disk := disk }.installNewBuffer pgId added)
  | [] => return ([], { tree.setNode pgId cleared with
      nodesInProgress := tree.nodesInProgress ++ [pgId] })
  | file :: files =>
      let tree := newPages.foldl (fun tree newPage =>
        tree.setNode newPage ⟨options.newBuffer 1 .kSmallLeaf, none⟩) tree
      let (disk, added) ← cleared.bufferAddFiles [] [file] tree.disk
      let (result, tree) ←
        ({ tree with disk := disk }.setNode pgId added).addFilesToLeaves files newPages
      return ((file.start, pgId) :: result,
        { tree with nodesInProgress := tree.nodesInProgress ++ [pgId] })

/-! ## The page above -/

/-- `UpdateOrRewritePivots` with its assertion. -/
def updateOrRewritePivots (page : Slotted.Page) (newPivots : List Slotted.SlicePageMap)
    (oldPivots : List (Slice × UInt32)) : Option Slotted.Page :=
  if (newPivots.zip oldPivots).all fun change =>
      (change.1.head?.map Prod.fst) == some change.2.1 then
    Slotted.updateOrRewritePivots page newPivots oldPivots
  else none

/-- The loop over `nodes_in_progress`, with the obsolete files of all of them. -/
def installNodes : List UInt32 → WotIndex → Option (List Nat × WotIndex)
  | [], tree => some ([], tree)
  | id :: ids, tree => do
      let node ← tree.nodeTable id
      let (dead, installed) := node.getObsoleteFilesAndInstallNewBuffer
      let (others, tree) ← installNodes ids (tree.setNode id installed)
      return (dead ++ others, tree)

/-- `UpdatePivots`, and whether the page overflows. -/
def updatePivots (pgId : UInt32) (newPivots : List Slotted.SlicePageMap)
    (oldPivots : List (Slice × UInt32)) (tree : WotIndex) : Option (Bool × WotIndex) := do
  let page ← tree.indexPage pgId
  if 1 < Slotted.equalSplitInternalPage page newPivots oldPivots then return (true, tree)
  let page ← updateOrRewritePivots page newPivots oldPivots
  let (dead, tree) ← (tree.setPage pgId (.index page)).installNodes tree.nodesInProgress
  return (false, { tree with nodesInProgress := [] }.removeFiles dead)

/-- What the strategies do in the page above with the result of a split. -/
def installInParent (parentId pgId : UInt32) (result : Slotted.SlicePageMap)
    (tree : WotIndex) : Option (Bool × WotIndex) := do
  let page ← tree.indexPage parentId
  let offset ← page.getOffsetByChild pgId
  tree.updatePivots parentId [result] [(page.readPivotAtOffset offset, pgId)]

end WotIndex

end AhaTree
