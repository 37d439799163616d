import AhaTree.InternalSplit
import AhaTree.LeafAdaptation

/-!
# Bulkloading files

`BulkloadFiles` gives every file a leaf, and builds the index pages above the leaves
level by level, until a level has a single page.  The level that is built and the one
below it are in two vectors, which are swapped after each level.
-/

namespace AhaTree

open Lsmt

namespace BplusTree

open WotIndex
open Slotted (FixedKeys WellFormed indexEntrySize)

/-! ## The code -/

/-- A new page is filled when the one before has too little space. -/
def turnIfFull (options : NodeOptions) (keySize : Nat) (smallLeaf : Bool)
    (loading : FileLoading) : Option FileLoading := do
  let page ← loading.tree.indexPage loading.insertToId
  if page.getFreeSpace < keySize + 3 * itemIdSize then loading.turnPage options smallLeaf
  else some loading

/-- The end of a round of the inner loop: the child gets an entry of the page that is
filled. -/
def insertChild (options : NodeOptions) (keySize : Nat) (smallLeaf : Bool)
    (loading : FileLoading) (minK : Slice) (inserted : UInt32) : Option FileLoading := do
  let loading ← turnIfFull options keySize smallLeaf loading
  let page ← loading.tree.indexPage loading.insertToId
  let page ← page.insertIndexEntry minK inserted
  return { loading with tree := loading.tree.setPage loading.insertToId (.index page) }

/-- A round of the inner loop above the leaf level. -/
def loadPage (options : NodeOptions) (keySize : Nat) (smallLeaf : Bool) (loading : FileLoading)
    (inserted : UInt32) : Option FileLoading := do
  let insertedPage ← loading.tree.indexPage inserted
  insertChild options keySize smallLeaf loading (insertedPage.readPivotAtOffset 0) inserted

/-- What the outer loop of `BulkloadFiles` carries along. -/
structure Bulkload where
  tree : WotIndex
  topLevel : List UInt32
  newNodes : List UInt32
  leafLevel : Bool
  addHeight : Nat

def Bulkload.topLevelSize (files : List FileMetaData) (load : Bulkload) : Nat :=
  if load.leafLevel then files.length else load.topLevel.length

/-- The inner loop. -/
def loadChildren (options : NodeOptions) (files : List FileMetaData) (smallLeaf : Bool)
    (load : Bulkload) (first : FileLoading) : Option FileLoading :=
  let keySize := (files.head?.map fun file => file.start.length).getD 0
  if load.leafLevel then files.foldlM (loadFile options keySize smallLeaf) first
  else load.topLevel.foldlM (loadPage options keySize smallLeaf) first

/-- A round of the outer loop. -/
def loadLevel (options : NodeOptions) (files : List FileMetaData) (smallLeaf : Bool)
    (load : Bulkload) : Option Bulkload := do
  let (id, tree) ← load.tree.allocate
  let tree ← tree.addNewNode options id false none smallLeaf
  let loading ← loadChildren options files smallLeaf load ⟨tree, id, load.newNodes ++ [id]⟩
  let topLevel := if load.leafLevel then load.topLevel else []
  return {
    tree := loading.tree
    topLevel := loading.newNodes
    newNodes := topLevel
    leafLevel := false
    addHeight := load.addHeight + 1 }

/-- The outer loop, with fuel for its rounds; what ends the process is `some none`. -/
def loadLevels (options : NodeOptions) (files : List FileMetaData) (smallLeaf : Bool) :
    Nat → Bulkload → Option (Option Bulkload)
  | 0, _ => none
  | fuel + 1, load =>
      if load.topLevelSize files ≤ 1 then some (some load)
      else
        match loadLevel options files smallLeaf load with
        | none => some none
        | some next => loadLevels options files smallLeaf fuel next

/-- `BulkloadFiles`, to whose callers the vector of the top level belongs, which is empty
at first. -/
def bulkloadFiles (options : NodeOptions) (files : List FileMetaData) (smallLeaf : Bool)
    (fuel : Nat) (tree : WotIndex) : Option (Option Bulkload) :=
  loadLevels options files smallLeaf fuel ⟨tree, [], [], true, 0⟩

/-! ## What is promised -/

/-- The LSMT of a new node: some files in level 0, and nothing else. -/
def HoldsFiles (tree : WotIndex) (id : UInt32) (files : List FileMetaData) : Prop :=
  ∃ node, tree.nodeTable id = some node ∧ node.lsmt4compact = none ∧
    node.nodeLsmt.lsmt.files = Function.update (fun _ => []) 0 files

/-- The smallest user key of some files. -/
def IsSmallest (key : Slice) (files : List FileMetaData) : Prop :=
  IsLeast {start | ∃ file ∈ files, file.start = start} key

/-- A page is the root of a tree of new pages whose leaves are all at one depth and have
the files from left to right; the pivots of its index pages are strictly increasing, and
each is the smallest user key below it. -/
def Loaded (tree : WotIndex) (isNew : UInt32 → Prop) :
    Nat → UInt32 → List FileMetaData → Prop
  | 0, id, files => isNew id ∧ tree.pages id = .leaf [] ∧ HoldsFiles tree id files ∧
      files.length = 1
  | depth + 1, id, files => isNew id ∧ HoldsFiles tree id [] ∧ ∃ page groups,
      tree.pages id = .index page ∧ page.isLeaf = false ∧ Lib.Ascending page.index ∧
        List.Forall₂ (fun item group => Loaded tree isNew depth item.2 group ∧
          IsSmallest item.1 group) page.index groups ∧
        files = groups.flatten

/-! ## New nodes -/

theorem page_of_indexPage {tree : WotIndex} {id : UInt32} {page : Slotted.Page}
    (isPage : tree.indexPage id = some page) : tree.pages id = .index page := by
  rw [indexPage] at isPage
  split at isPage
  · cases isPage
  · rename_i found isFound
    cases isPage
    exact isFound

theorem eq_of_allocate {tree after : WotIndex} {id : UInt32}
    (done : tree.allocate = some (id, after)) : ∃ newIds, tree.newIds = id :: newIds ∧
      after = { tree with newIds := newIds }.setPage id
        (.index (Slotted.allocate id.toNat)) := by
  rw [allocate] at done
  split at done
  · cases done
  · rename_i first newIds isList
    cases done
    exact ⟨newIds, isList, rfl⟩

/-- What a new node changes: its own entry of the node table. -/
structure NewNode (tree after : WotIndex) (id : UInt32) (files : List FileMetaData) : Prop where
  pages : after.pages = tree.pages
  newIds : after.newIds = tree.newIds
  others : ∀ other ≠ id, after.nodeTable other = tree.nodeTable other
  holds : HoldsFiles after id files

theorem newNode_index (options : NodeOptions) (id : UInt32) (smallLeaf : Bool)
    (tree : WotIndex) : ∃ after, tree.addNewNode options id false none smallLeaf = some after ∧
      NewNode tree after id [] := by
  refine ⟨_, rfl, rfl, rfl, ?_, ?_⟩
  · intro other different
    exact Function.update_of_ne different _ _
  · refine ⟨_, Function.update_self _ _ _, rfl, ?_⟩
    simp [NodeOptions.newBuffer, Lsmt.empty]

/-- A file is added to level 0 if that is not full or the last one. -/
theorem addFile_top {config : BufferConfig} (shared : config.status ≠ .kStandalone)
    {file : FileMetaData} {lsmt : Lsmt}
    (stays : ∀ placed : Lsmt, placed.files = Function.update lsmt.files 0 (lsmt.files 0 ++ [file]) →
      Checked.mayNeedCompaction config 0 placed = true →
        overflows config.toLsmtConfig 0 = true) :
    ∃ state added, Checked.addFile config [] 0 file lsmt = .ok (state, added) ∧
      added.files = Function.update lsmt.files 0 (lsmt.files 0 ++ [file]) := by
  simp only [Checked.addFile, Checked.placeFile, Nat.lt_irrefl, if_false, if_neg shared,
    Checked.settle]
  split
  · rename_i needed
    have last := stays _ rfl needed
    rw [Checked.compactLevel]
    simp only [kNumLevels, Nat.reduceSub, Checked.compactLevels]
    rw [if_pos last]
    exact ⟨.kOverflow, _, rfl, rfl⟩
  · exact ⟨.kOk, _, rfl, rfl⟩

/-- A new leaf keeps its file in level 0, even if its limit asks for a compaction: a small
leaf has no level below, and a single file does not fill the level of another leaf. -/
theorem newNode_leaf (options : NodeOptions) (id : UInt32) (file : FileMetaData)
    (smallLeaf : Bool) (tree : WotIndex) :
    ∃ after, tree.addNewNode options id true (some file) smallLeaf = some after ∧
      NewNode tree after id [file] := by
  obtain ⟨buffer, isBuffer, added⟩ : ∃ buffer : Buffer,
      buffer = (if true && smallLeaf then options.newBuffer 1 .kSmallLeaf
        else options.newBuffer options.nodeLsmtLevelLimit .kLeaf) ∧
      ∃ state added, Checked.addFile buffer.config [] 0 file (buffer.lsmt.onDisk tree.disk) =
        .ok (state, added) ∧ added.files = Function.update (fun _ => []) 0 [file] := by
    refine ⟨_, rfl, ?_⟩
    cases smallLeaf with
    | true =>
        refine addFile_top (by simp [NodeOptions.newBuffer]) fun _ _ _ => ?_
        simp [overflows, NodeOptions.newBuffer]
    | false =>
        refine addFile_top (by simp [NodeOptions.newBuffer]) fun placed isPlaced needed => ?_
        exfalso
        simp [Checked.mayNeedCompaction, NodeOptions.newBuffer, isPlaced, levelScore,
          Lsmt.onDisk, Lsmt.empty, kL0CompactionTrigger] at needed
        norm_num at needed
  obtain ⟨state, added, isAdded, files⟩ := added
  refine ⟨{ tree with disk := added.disk }.setNode id ⟨{ buffer with lsmt := added }, none⟩,
    ?_, rfl, rfl, ?_, ?_⟩
  · rw [isBuffer] at isAdded ⊢
    simp only [addNewNode, Bool.true_and, if_true] at isAdded ⊢
    rw [isAdded]
    rfl
  · intro other different
    exact Function.update_of_ne different _ _
  · exact ⟨_, Function.update_self _ _ _, rfl, files⟩

/-! ## What stays as it is -/

/-- The nodes with a property are as they were. -/
structure Untouched (kept : UInt32 → Prop) (tree after : WotIndex) : Prop where
  pages : ∀ id, kept id → after.pages id = tree.pages id
  nodes : ∀ id, kept id → after.nodeTable id = tree.nodeTable id

theorem Untouched.mono {kept fewer : UInt32 → Prop} {tree after : WotIndex}
    (untouched : Untouched kept tree after) (within : ∀ id, fewer id → kept id) :
    Untouched fewer tree after :=
  ⟨fun id isFewer => untouched.pages id (within id isFewer),
    fun id isFewer => untouched.nodes id (within id isFewer)⟩

theorem HoldsFiles.later {kept : UInt32 → Prop} {tree after : WotIndex} {id : UInt32}
    {files : List FileMetaData} (holds : HoldsFiles tree id files)
    (untouched : Untouched kept tree after) (isKept : kept id) : HoldsFiles after id files := by
  rw [HoldsFiles, untouched.nodes id isKept]
  exact holds

/-- A tree of nodes that are not touched stays loaded. -/
theorem Loaded.later {kept wider : UInt32 → Prop} {tree after : WotIndex}
    (untouched : Untouched kept tree after) (widens : ∀ id, kept id → wider id) {depth : Nat}
    {id : UInt32} {files : List FileMetaData} (loaded : Loaded tree kept depth id files) :
    Loaded after wider depth id files := by
  induction depth generalizing id files with
  | zero =>
      obtain ⟨isKept, isPage, holds, single⟩ := loaded
      exact ⟨widens id isKept, (untouched.pages id isKept).trans isPage,
        holds.later untouched isKept, single⟩
  | succ depth ih =>
      obtain ⟨isKept, holds, page, groups, isPage, isIndex, ascending, below, isFiles⟩ := loaded
      refine ⟨widens id isKept, holds.later untouched isKept, page, groups,
        (untouched.pages id isKept).trans isPage, isIndex, ascending, ?_, isFiles⟩
      exact below.imp fun item group child => ⟨ih child.1, child.2⟩

/-- A node on an id that has been allocated. -/
structure Fresh (tree after : WotIndex) (id : UInt32) (page : TreePage)
    (files : List FileMetaData) : Prop where
  newIds : tree.newIds = id :: after.newIds
  isPage : after.pages id = page
  holds : HoldsFiles after id files
  untouched : Untouched (· ≠ id) tree after

theorem fresh_index {options : NodeOptions} {smallLeaf : Bool} {tree allocated after : WotIndex}
    {id : UInt32} (isId : tree.allocate = some (id, allocated))
    (isNode : allocated.addNewNode options id false none smallLeaf = some after) :
    Fresh tree after id (.index (Slotted.allocate id.toNat)) [] := by
  obtain ⟨newIds, isIds, rfl⟩ := eq_of_allocate isId
  obtain ⟨other, same, node⟩ := newNode_index options id smallLeaf
    (setPage id (.index (Slotted.allocate id.toNat)) { tree with newIds := newIds })
  obtain rfl : other = after := Option.some.inj (same.symm.trans isNode)
  refine ⟨?_, ?_, node.holds, ⟨?_, node.others⟩⟩
  · rw [node.newIds]
    exact isIds
  · rw [node.pages]
    exact Function.update_self _ _ _
  · intro other different
    rw [node.pages]
    exact Function.update_of_ne different _ _

theorem fresh_leaf {options : NodeOptions} {smallLeaf : Bool} {tree allocated added : WotIndex}
    {id : UInt32} {file : FileMetaData} (isId : tree.allocate = some (id, allocated))
    (isNode : allocated.addNewNode options id true (some file) smallLeaf = some added) :
    Fresh tree (added.setPage id (.leaf [])) id (.leaf []) [file] := by
  obtain ⟨newIds, isIds, rfl⟩ := eq_of_allocate isId
  obtain ⟨other, same, node⟩ := newNode_leaf options id file smallLeaf
    (setPage id (.index (Slotted.allocate id.toNat)) { tree with newIds := newIds })
  obtain rfl : other = added := Option.some.inj (same.symm.trans isNode)
  refine ⟨?_, Function.update_self _ _ _, node.holds, ⟨?_, node.others⟩⟩
  · exact isIds.trans (congrArg _ node.newIds.symm)
  · intro place different
    refine (Function.update_of_ne different _ _).trans ?_
    rw [node.pages]
    exact Function.update_of_ne different _ _

/-! ## A level in its course -/

/-- The ids that have been given out. -/
def Taken (newIds : List UInt32) (tree : WotIndex) (id : UInt32) : Prop :=
  id ∈ newIds ∧ id ∉ tree.newIds

/-- The nodes that are complete: those that exist, but the page that is filled. -/
def Complete (newIds : List UInt32) (loading : FileLoading) (id : UInt32) : Prop :=
  Taken newIds loading.tree id ∧ id ≠ loading.insertToId

/-- An entry leads to a tree, whose smallest key it has. -/
def Leads (tree : WotIndex) (isNew : UInt32 → Prop) (depth : Nat) (item : Slice × UInt32)
    (group : List FileMetaData) : Prop :=
  Loaded tree isNew depth item.2 group ∧ IsSmallest item.1 group

/-- The page that is filled, over trees of a depth. -/
structure Filled (tree : WotIndex) (isNew : UInt32 → Prop) (keySize depth : Nat) (id : UInt32)
    (page : Slotted.Page) (groups : List (List FileMetaData)) : Prop where
  isPage : tree.pages id = .index page
  holds : HoldsFiles tree id []
  fixed : FixedKeys keySize page
  wellFormed : WellFormed page
  below : List.Forall₂ (Leads tree isNew depth) page.index groups

/-- The full pages of a level with their files, and the page that is filled. -/
structure Course (newIds : List UInt32) (keySize depth : Nat) (loading : FileLoading)
    (full : List (UInt32 × List FileMetaData)) (groups : List (List FileMetaData)) : Prop where
  supply : loading.tree.newIds <:+ newIds
  current : Taken newIds loading.tree loading.insertToId
  newNodes : loading.newNodes = full.map Prod.fst ++ [loading.insertToId]
  fullLoaded : ∀ node ∈ full,
    Loaded loading.tree (Complete newIds loading) (depth + 1) node.1 node.2
  nonempty : ∀ node ∈ full, node.2 ≠ []
  filled : ∃ page, Filled loading.tree (Complete newIds loading) keySize depth
    loading.insertToId page groups

theorem Filled.later {kept wider : UInt32 → Prop} {tree after : WotIndex} {keySize depth : Nat}
    {id : UInt32} {page : Slotted.Page} {groups : List (List FileMetaData)}
    (filled : Filled tree kept keySize depth id page groups) (untouched : Untouched kept tree after)
    (widens : ∀ id, kept id → wider id) (samePage : after.pages id = tree.pages id)
    (sameNode : after.nodeTable id = tree.nodeTable id) :
    Filled after wider keySize depth id page groups where
  isPage := samePage.trans filled.isPage
  holds := by
    rw [HoldsFiles, sameNode]
    exact filled.holds
  fixed := filled.fixed
  wellFormed := filled.wellFormed
  below := filled.below.imp fun _ _ leads => ⟨leads.1.later untouched widens, leads.2⟩

/-- A page that is filled is the root of a tree. -/
theorem Filled.loaded {isNew : UInt32 → Prop} {tree : WotIndex} {keySize depth : Nat}
    {id : UInt32} {page : Slotted.Page} {groups : List (List FileMetaData)}
    (filled : Filled tree isNew keySize depth id page groups) {wider : UInt32 → Prop}
    (widens : ∀ id, isNew id → wider id) (isWider : wider id) :
    Loaded tree wider (depth + 1) id groups.flatten := by
  refine ⟨isWider, filled.holds, page, groups, filled.isPage, filled.fixed.isIndex,
    Slotted.index_ascending filled.wellFormed, ?_, rfl⟩
  exact filled.below.imp fun _ _ leads =>
    ⟨leads.1.later ⟨fun _ _ => rfl, fun _ _ => rfl⟩ widens, leads.2⟩

theorem exists_of_mem {R : Slice × UInt32 → List FileMetaData → Prop}
    {items : Slotted.SlicePageMap} {groups : List (List FileMetaData)}
    (related : List.Forall₂ R items groups) {item : Slice × UInt32} (member : item ∈ items) :
    ∃ group ∈ groups, R item group := by
  induction related with
  | nil => cases member
  | cons first _ ih =>
      rcases List.mem_cons.mp member with rfl | later
      · exact ⟨_, List.mem_cons_self, first⟩
      · obtain ⟨group, isGroup, related⟩ := ih later
        exact ⟨group, List.mem_cons_of_mem _ isGroup, related⟩

/-- The id that is given out next. -/
theorem fresh_spec {newIds : List UInt32} (distinct : newIds.Nodup) {tree after : WotIndex}
    (supply : tree.newIds <:+ newIds) {id : UInt32} {page : TreePage}
    {files : List FileMetaData} (fresh : Fresh tree after id page files) :
    after.newIds <:+ newIds ∧ Taken newIds after id ∧ ¬ Taken newIds tree id ∧
      ∀ other, Taken newIds tree other → Taken newIds after other := by
  have alone := distinct.sublist supply.sublist
  have member : id ∈ tree.newIds := fresh.newIds ▸ List.mem_cons_self
  rw [fresh.newIds] at supply alone
  refine ⟨(List.suffix_cons _ _).trans supply, ⟨supply.subset List.mem_cons_self,
    (List.nodup_cons.mp alone).1⟩, fun taken => taken.2 member, ?_⟩
  intro other taken
  refine ⟨taken.1, fun later => taken.2 ?_⟩
  rw [fresh.newIds]
  exact List.mem_cons_of_mem _ later

section Course

variable {newIds : List UInt32} (distinct : newIds.Nodup) {keySize depth : Nat}
  {loading : FileLoading} {full : List (UInt32 × List FileMetaData)}
  {groups : List (List FileMetaData)} (course : Course newIds keySize depth loading full groups)

include distinct course

/-- A new node that is not yet in a page. -/
theorem Course.grow {after : WotIndex} {id : UInt32} {page : TreePage}
    {files : List FileMetaData} (fresh : Fresh loading.tree after id page files) :
    Course newIds keySize depth { loading with tree := after } full groups ∧
      Complete newIds { loading with tree := after } id ∧
      Untouched (Complete newIds loading) loading.tree after ∧
      ∀ other, Complete newIds loading other →
        Complete newIds { loading with tree := after } other := by
  obtain ⟨supply, isTaken, notTaken, stays⟩ := fresh_spec distinct course.supply fresh
  have other : loading.insertToId ≠ id := fun same => notTaken (same ▸ course.current)
  have untouched : Untouched (Complete newIds loading) loading.tree after :=
    fresh.untouched.mono fun _ complete same => notTaken (same ▸ complete.1)
  have widens : ∀ other, Complete newIds loading other →
      Complete newIds { loading with tree := after } other :=
    fun place complete => ⟨stays place complete.1, complete.2⟩
  refine ⟨⟨supply, stays _ course.current, course.newNodes, ?_, course.nonempty, ?_⟩,
    ⟨isTaken, other.symm⟩, untouched, widens⟩
  · exact fun node member => (course.fullLoaded node member).later untouched widens
  · obtain ⟨page, filled⟩ := course.filled
    exact ⟨page, filled.later untouched widens (fresh.untouched.pages _ other)
      (fresh.untouched.nodes _ other)⟩

/-- The page is full, and a new one is opened. -/
theorem Course.turn {options : NodeOptions} {smallLeaf : Bool} {after : FileLoading}
    (several : groups.flatten ≠ []) (done : loading.turnPage options smallLeaf = some after) :
    Course newIds keySize depth after (full ++ [(loading.insertToId, groups.flatten)]) [] ∧
      Untouched (Complete newIds loading) loading.tree after.tree ∧
      ∀ other, Complete newIds loading other → Complete newIds after other := by
  obtain ⟨⟨id, allocated⟩, isId, rest⟩ := Option.bind_eq_some_iff.mp done
  obtain ⟨tree, isNode, same⟩ := Option.bind_eq_some_iff.mp rest
  cases same
  have fresh := fresh_index isId isNode
  obtain ⟨supply, isTaken, notTaken, stays⟩ := fresh_spec distinct course.supply fresh
  have untouched : Untouched (Taken newIds loading.tree) loading.tree tree :=
    fresh.untouched.mono fun _ taken same => notTaken (same ▸ taken)
  have widens : ∀ other, Taken newIds loading.tree other →
      Complete newIds ⟨tree, id, loading.newNodes ++ [id]⟩ other :=
    fun place taken => ⟨stays place taken, fun same : place = id => notTaken (same ▸ taken)⟩
  have forgets : Untouched (Complete newIds loading) loading.tree tree :=
    untouched.mono fun _ complete => complete.1
  refine ⟨⟨supply, isTaken, ?_, ?_, ?_, ?_⟩, forgets, fun other complete =>
    widens other complete.1⟩
  · rw [course.newNodes, List.map_append]
    rfl
  · intro node member
    rcases List.mem_append.mp member with older | last
    · exact (course.fullLoaded node older).later forgets fun other complete =>
        widens other complete.1
    · rw [List.mem_singleton.mp last]
      obtain ⟨page, filled⟩ := course.filled
      exact (filled.loaded (fun _ complete => complete.1) course.current).later untouched widens
  · intro node member
    rcases List.mem_append.mp member with older | last
    · exact course.nonempty node older
    · rw [List.mem_singleton.mp last]
      exact several
  · exact ⟨_, fresh.isPage, fresh.holds, Slotted.fixedKeys_allocate keySize _,
      Slotted.wellFormed_pageInit _ false fun _ => 0, .nil⟩

omit distinct in
/-- An entry behind all others. -/
theorem Course.insert {page after : Slotted.Page} {minK : Slice} {inserted : UInt32}
    {group : List FileMetaData} (isPage : loading.tree.pages loading.insertToId = .index page)
    (leads : Leads loading.tree (Complete newIds loading) depth (minK, inserted) group)
    (isSize : minK.length = keySize)
    (above : ∀ other ∈ groups, ∀ file ∈ other, file.start < minK)
    (done : page.insertIndexEntry minK inserted = some after) :
    Course newIds keySize depth
      { loading with tree := loading.tree.setPage loading.insertToId (.index after) } full
      (groups ++ [group]) := by
  obtain ⟨filling, filled⟩ := course.filled
  obtain rfl : filling = page := TreePage.index.inj (filled.isPage.symm.trans isPage)
  have untouched : Untouched (Complete newIds loading) loading.tree
      (loading.tree.setPage loading.insertToId (.index after)) :=
    ⟨fun _ complete => Function.update_of_ne complete.2 _ _, fun _ _ => rfl⟩
  have stays : ∀ other, Complete newIds loading other → Complete newIds
      { loading with tree := loading.tree.setPage loading.insertToId (.index after) } other :=
    fun _ complete => complete
  have below : ∀ other ∈ filling.index, other.1 < minK := by
    intro other member
    obtain ⟨old, isOld, -, ⟨file, isFile, starts⟩, -⟩ := exists_of_mem filled.below member
    exact starts ▸ above old isOld file isFile
  have absent : minK ∉ filling.index.map Prod.fst := by
    intro member
    obtain ⟨other, isOther, same⟩ := List.mem_map.mp member
    exact absurd (below other isOther) (same ▸ lt_irrefl _)
  obtain ⟨wellFormed, -, placed⟩ := Slotted.insertIndexEntry_index filled.wellFormed
    filled.fixed.isIndex absent done
  refine ⟨course.supply, course.current, course.newNodes, ?_, course.nonempty, after, ?_⟩
  · exact fun node member => (course.fullLoaded node member).later untouched stays
  · refine ⟨Function.update_self _ _ _, filled.holds,
      (filled.fixed.insertIndexEntry isSize done).1, wellFormed, ?_⟩
    rw [placed, Lib.place_last below]
    refine List.rel_append ?_ (.cons ?_ .nil)
    · exact filled.below.imp fun _ _ leads => ⟨leads.1.later untouched stays, leads.2⟩
    · exact ⟨leads.1.later untouched stays, leads.2⟩

end Course

/-! ## One child after the other -/

/-- What a level has after some of its children: their files, and pages of which each but
the last one has two entries at least. -/
def Progress (newIds : List UInt32) (keySize depth : Nat) (loading : FileLoading)
    (files : List FileMetaData) (count : Nat) : Prop :=
  ∃ full groups, Course newIds keySize depth loading full groups ∧
    full.flatMap Prod.snd ++ groups.flatten = files ∧
    2 * full.length + groups.length ≤ count ∧ (0 < count → groups ≠ [])

/-- Complete nodes stay complete, and as they are. -/
structure Keeps (newIds : List UInt32) (loading after : FileLoading) : Prop where
  untouched : Untouched (Complete newIds loading) loading.tree after.tree
  complete : ∀ id, Complete newIds loading id → Complete newIds after id

theorem Keeps.refl (newIds : List UInt32) (loading : FileLoading) :
    Keeps newIds loading loading :=
  ⟨⟨fun _ _ => rfl, fun _ _ => rfl⟩, fun _ complete => complete⟩

theorem Keeps.trans {newIds : List UInt32} {loading middle after : FileLoading}
    (first : Keeps newIds loading middle) (second : Keeps newIds middle after) :
    Keeps newIds loading after where
  untouched := {
    pages := fun id complete => (second.untouched.pages id (first.complete id complete)).trans
      (first.untouched.pages id complete)
    nodes := fun id complete => (second.untouched.nodes id (first.complete id complete)).trans
      (first.untouched.nodes id complete) }
  complete id complete := second.complete id (first.complete id complete)

theorem Filled.files_ne_nil {isNew : UInt32 → Prop} {tree : WotIndex} {keySize depth : Nat}
    {id : UInt32} {page : Slotted.Page} {groups : List (List FileMetaData)}
    (filled : Filled tree isNew keySize depth id page groups) (nonempty : groups ≠ []) :
    groups.flatten ≠ [] := by
  obtain ⟨item, member⟩ : ∃ item, item ∈ page.index := by
    refine List.exists_mem_of_length_pos ?_
    rw [filled.below.length_eq]
    exact List.length_pos_of_ne_nil nonempty
  obtain ⟨group, isGroup, -, ⟨file, isFile, -⟩, -⟩ := exists_of_mem filled.below member
  exact List.ne_nil_of_mem (List.mem_flatten.mpr ⟨group, isGroup, isFile⟩)

/-- The page that is filled has two entries at least when it is full. -/
theorem Filled.several {isNew : UInt32 → Prop} {tree : WotIndex} {keySize depth : Nat}
    {id : UInt32} {page : Slotted.Page} {groups : List (List FileMetaData)}
    (filled : Filled tree isNew keySize depth id page groups)
    (two : 2 * indexEntrySize keySize ≤ Btree.usableSpace)
    (full : page.getFreeSpace < keySize + 3 * itemIdSize) : 2 ≤ groups.length := by
  have tight : Btree.usableSpace < (page.itemNum + 1) * indexEntrySize keySize :=
    filled.fixed.getFreeSpace_lt_iff.mp full
  have number : groups.length = page.itemNum :=
    filled.below.length_eq.symm.trans (Slotted.index_length page)
  by_contra few
  have less : (page.itemNum + 1) * indexEntrySize keySize ≤ 2 * indexEntrySize keySize :=
    Nat.mul_le_mul_right _ (by omega)
  omega

section Children

variable {options : NodeOptions} {smallLeaf : Bool} {newIds : List UInt32}
  (distinct : newIds.Nodup) {keySize depth : Nat}
  (two : 2 * indexEntrySize keySize ≤ Btree.usableSpace) {loading after : FileLoading}
  {files : List FileMetaData} {count : Nat}
  (progress : Progress newIds keySize depth loading files count)

include distinct two

/-- A page with room for an entry: the one that is filled, or a new one. -/
theorem Course.room {full : List (UInt32 × List FileMetaData)}
    {groups : List (List FileMetaData)} (course : Course newIds keySize depth loading full groups)
    (done : turnIfFull options keySize smallLeaf loading = some after) :
    ∃ fullAfter groupsAfter, Course newIds keySize depth after fullAfter groupsAfter ∧
      fullAfter.flatMap Prod.snd ++ groupsAfter.flatten =
        full.flatMap Prod.snd ++ groups.flatten ∧
      2 * fullAfter.length + groupsAfter.length ≤ 2 * full.length + groups.length ∧
      (groupsAfter = groups ∨ groupsAfter = []) ∧ Keeps newIds loading after := by
  obtain ⟨page, isPage, done⟩ := Option.bind_eq_some_iff.mp done
  obtain ⟨filling, filled⟩ := course.filled
  obtain rfl : filling = page :=
    TreePage.index.inj (filled.isPage.symm.trans (page_of_indexPage isPage))
  by_cases tight : filling.getFreeSpace < keySize + 3 * itemIdSize
  · rw [if_pos tight] at done
    have several := filled.several two tight
    have nonempty : groups ≠ [] := List.ne_nil_of_length_pos (by omega)
    obtain ⟨turned, untouched, complete⟩ :=
      course.turn distinct (filled.files_ne_nil nonempty) done
    refine ⟨_, _, turned, by simp, ?_, .inr rfl, ⟨untouched, complete⟩⟩
    rw [List.length_append, List.length_singleton, List.length_nil]
    omega
  · rw [if_neg tight] at done
    cases done
    exact ⟨full, groups, course, rfl, le_rfl, .inl rfl, .refl _ _⟩

include progress

/-- A child, which comes behind the others, gets its entry. -/
theorem progress_insertChild {minK : Slice} {inserted : UInt32} {group : List FileMetaData}
    (leads : Leads loading.tree (Complete newIds loading) depth (minK, inserted) group)
    (isSize : minK.length = keySize) (above : ∀ file ∈ files, file.start < minK)
    (done : insertChild options keySize smallLeaf loading minK inserted = some after) :
    Progress newIds keySize depth after (files ++ group) (count + 1) ∧
      Keeps newIds loading after := by
  obtain ⟨full, groups, course, rfl, counted, -⟩ := progress
  obtain ⟨room, isRoom, rest⟩ := Option.bind_eq_some_iff.mp done
  obtain ⟨page, isPage, rest⟩ := Option.bind_eq_some_iff.mp rest
  obtain ⟨written, isWritten, same⟩ := Option.bind_eq_some_iff.mp rest
  cases same
  obtain ⟨fullAfter, groupsAfter, opened, sameFiles, notMore, same, keeps⟩ :=
    course.room distinct two isRoom
  have withChild := opened.insert (page_of_indexPage isPage)
    ⟨leads.1.later keeps.untouched keeps.complete, leads.2⟩ isSize ?_ isWritten
  · refine ⟨⟨fullAfter, groupsAfter ++ [group], withChild, ?_, ?_, fun _ => by simp⟩, ?_⟩
    · rw [← sameFiles, List.flatten_append, List.flatten_singleton, List.append_assoc]
    · rw [List.length_append, List.length_singleton]
      omega
    · refine keeps.trans ⟨⟨fun id complete => Function.update_of_ne complete.2 _ _,
        fun _ _ => rfl⟩, fun _ complete => complete⟩
  · rcases same with rfl | rfl
    · intro other isOther file isFile
      exact above file (List.mem_append_right _ (List.mem_flatten.mpr ⟨other, isOther, isFile⟩))
    · exact fun other isOther => absurd isOther List.not_mem_nil

omit distinct two progress in
theorem loadFile_eq_insertChild {file : FileMetaData} {inserted : UInt32}
    {allocated tree : WotIndex} (isId : loading.tree.allocate = some (inserted, allocated))
    (isNode : allocated.addNewNode options inserted true (some file) smallLeaf = some tree) :
    loadFile options keySize smallLeaf loading file =
      insertChild options keySize smallLeaf
        { loading with tree := tree.setPage inserted (.leaf []) } file.start inserted := by
  rw [loadFile, isId]
  simp only [Option.bind_eq_bind, Option.bind_some, isNode, insertChild, turnIfFull,
    Option.bind_assoc]
  refine Option.bind_congr fun page _ => ?_
  split <;> rfl

omit distinct two progress in
theorem insertChild_of_loadFile {file : FileMetaData}
    (done : loadFile options keySize smallLeaf loading file = some after) :
    ∃ inserted allocated tree, loading.tree.allocate = some (inserted, allocated) ∧
      allocated.addNewNode options inserted true (some file) smallLeaf = some tree ∧
      insertChild options keySize smallLeaf
        { loading with tree := tree.setPage inserted (.leaf []) } file.start inserted =
          some after := by
  obtain ⟨⟨inserted, allocated⟩, isId, rest⟩ := Option.bind_eq_some_iff.mp done
  obtain ⟨tree, isNode, rest⟩ := Option.bind_eq_some_iff.mp rest
  exact ⟨inserted, allocated, tree, isId, isNode,
    (loadFile_eq_insertChild isId isNode).symm.trans done⟩

omit progress in
/-- A round on the leaf level. -/
theorem progress_loadFile (progress : Progress newIds keySize 0 loading files count)
    {file : FileMetaData} (isSize : file.start.length = keySize)
    (above : ∀ other ∈ files, other.start < file.start)
    (done : loadFile options keySize smallLeaf loading file = some after) :
    Progress newIds keySize 0 after (files ++ [file]) (count + 1) := by
  obtain ⟨full, groups, course, sameFiles, counted, filled⟩ := progress
  obtain ⟨inserted, allocated, tree, isId, isNode, done⟩ := insertChild_of_loadFile done
  have fresh := fresh_leaf isId isNode
  obtain ⟨grown, complete, -, -⟩ := course.grow distinct fresh
  have leads : Leads (tree.setPage inserted (.leaf []))
      (Complete newIds { loading with tree := tree.setPage inserted (.leaf []) }) 0
      (file.start, inserted) [file] :=
    ⟨⟨complete, fresh.isPage, fresh.holds, rfl⟩, ⟨file, List.mem_singleton_self _, rfl⟩, by
      rintro key ⟨other, member, rfl⟩
      rw [List.mem_singleton.mp member]⟩
  exact (progress_insertChild distinct two ⟨full, groups, grown, sameFiles, counted, filled⟩
    leads isSize above done).1

/-- The order of the files. -/
abbrev Ordered (files : List FileMetaData) : Prop :=
  files.Pairwise fun front behind => front.start < behind.start

omit distinct two progress in
/-- The first pivot of an index page is the smallest key below it. -/
theorem Loaded.first_pivot {tree : WotIndex} {isNew : UInt32 → Prop} {id : UInt32}
    {group : List FileMetaData} (loaded : Loaded tree isNew (depth + 1) id group)
    (nonempty : group ≠ []) (ordered : Ordered group) {page : Slotted.Page}
    (isPage : tree.indexPage id = some page) : IsSmallest (page.readPivotAtOffset 0) group := by
  obtain ⟨-, -, found, groups, isFound, -, -, below, rfl⟩ := loaded
  obtain rfl : found = page :=
    TreePage.index.inj (isFound.symm.trans (page_of_indexPage isPage))
  cases isIndex : found.index with
  | nil =>
      rw [isIndex, List.forall₂_nil_left_iff] at below
      exact absurd (congrArg List.flatten below) nonempty
  | cons first others =>
      rw [isIndex] at below
      obtain ⟨firstGroup, otherGroups, leads, -, rfl⟩ := List.forall₂_cons_left_iff.mp below
      obtain ⟨⟨least, isLeast, starts⟩, lower⟩ := leads.2
      rw [Slotted.readPivotAtOffset_zero isIndex]
      rw [List.flatten_cons] at ordered ⊢
      refine ⟨⟨least, List.mem_append_left _ isLeast, starts⟩, ?_⟩
      rintro key ⟨file, member, rfl⟩
      rcases List.mem_append.mp member with early | late
      · exact lower ⟨file, early, rfl⟩
      · rw [← starts]
        exact ((List.pairwise_append.mp ordered).2.2 least isLeast file late).le

omit progress in
/-- A round above the leaf level. -/
theorem progress_loadPage (progress : Progress newIds keySize (depth + 1) loading files count)
    {inserted : UInt32} {group : List FileMetaData}
    (loaded : Loaded loading.tree (Complete newIds loading) (depth + 1) inserted group)
    (nonempty : group ≠ []) (sizes : ∀ file ∈ group, file.start.length = keySize)
    (ordered : Ordered (files ++ group))
    (done : loadPage options keySize smallLeaf loading inserted = some after) :
    Progress newIds keySize (depth + 1) after (files ++ group) (count + 1) ∧
      Keeps newIds loading after := by
  obtain ⟨page, isPage, done⟩ := Option.bind_eq_some_iff.mp done
  obtain ⟨-, groupOrdered, across⟩ := List.pairwise_append.mp ordered
  have smallest := loaded.first_pivot nonempty groupOrdered isPage
  obtain ⟨least, isLeast, starts⟩ := smallest.1
  have isSize : (page.readPivotAtOffset 0).length = keySize := by
    rw [← starts]
    exact sizes least isLeast
  have above : ∀ file ∈ files, file.start < page.readPivotAtOffset 0 := by
    intro file member
    rw [← starts]
    exact across file member least isLeast
  exact progress_insertChild distinct two progress ⟨loaded, smallest⟩ isSize above done

/-! ## A whole level -/

omit progress in
theorem progress_files {more : List FileMetaData}
    (progress : Progress newIds keySize 0 loading files count)
    (sizes : ∀ file ∈ more, file.start.length = keySize) (ordered : Ordered (files ++ more))
    (done : more.foldlM (loadFile options keySize smallLeaf) loading = some after) :
    Progress newIds keySize 0 after (files ++ more) (count + more.length) := by
  induction more generalizing loading files count with
  | nil =>
      cases done
      rw [List.append_nil]
      exact progress
  | cons file more ih =>
      obtain ⟨next, isNext, rest⟩ := Option.bind_eq_some_iff.mp done
      obtain ⟨isSize, moreSizes⟩ := List.forall_mem_cons.mp sizes
      have above := (List.pairwise_append.mp ordered).2.2
      rw [List.append_cons] at ordered
      have step := progress_loadFile distinct two progress isSize
        (fun other member => above other member file List.mem_cons_self) isNext
      have whole := ih step moreSizes ordered rest
      rw [List.append_cons, List.length_cons, Nat.add_comm more.length, ← Nat.add_assoc]
      exact whole

omit progress in
/-- The trees that are not yet in a page of the level stay as they are. -/
theorem progress_pages {nodes : List (UInt32 × List FileMetaData)}
    (progress : Progress newIds keySize (depth + 1) loading files count)
    (loaded : ∀ node ∈ nodes,
      Loaded loading.tree (Complete newIds loading) (depth + 1) node.1 node.2)
    (nonempty : ∀ node ∈ nodes, node.2 ≠ [])
    (sizes : ∀ file ∈ nodes.flatMap Prod.snd, file.start.length = keySize)
    (ordered : Ordered (files ++ nodes.flatMap Prod.snd))
    (done : (nodes.map Prod.fst).foldlM (loadPage options keySize smallLeaf) loading =
      some after) :
    Progress newIds keySize (depth + 1) after (files ++ nodes.flatMap Prod.snd)
      (count + nodes.length) := by
  induction nodes generalizing loading files count with
  | nil =>
      cases done
      rw [List.flatMap_nil, List.append_nil]
      exact progress
  | cons node nodes ih =>
      obtain ⟨next, isNext, rest⟩ := Option.bind_eq_some_iff.mp done
      obtain ⟨isLoaded, othersLoaded⟩ := List.forall_mem_cons.mp loaded
      obtain ⟨isFilled, othersFilled⟩ := List.forall_mem_cons.mp nonempty
      rw [List.flatMap_cons] at sizes ordered ⊢
      rw [← List.append_assoc] at ordered
      obtain ⟨step, keeps⟩ := progress_loadPage distinct two progress isLoaded isFilled
        (fun file member => sizes file (List.mem_append_left _ member))
        (List.pairwise_append.mp ordered).1 isNext
      have whole := ih step
        (fun other member => (othersLoaded other member).later keeps.untouched keeps.complete)
        othersFilled (fun file member => sizes file (List.mem_append_right _ member)) ordered rest
      rw [← List.append_assoc, List.length_cons, Nat.add_comm nodes.length, ← Nat.add_assoc]
      exact whole

end Children

/-- The trees of a level from left to right. -/
structure Level (newIds : List UInt32) (tree : WotIndex) (depth : Nat)
    (files : List FileMetaData) (nodes : List (UInt32 × List FileMetaData)) : Prop where
  supply : tree.newIds <:+ newIds
  loaded : ∀ node ∈ nodes, Loaded tree (Taken newIds tree) depth node.1 node.2
  nonempty : ∀ node ∈ nodes, node.2 ≠ []
  files : nodes.flatMap Prod.snd = files

section Levels

variable {options : NodeOptions} {smallLeaf : Bool} {newIds : List UInt32}
  (distinct : newIds.Nodup)

include distinct in
/-- A level starts with an empty page. -/
theorem progress_start {tree allocated after : WotIndex} {id : UInt32}
    (supply : tree.newIds <:+ newIds) (isId : tree.allocate = some (id, allocated))
    (isNode : allocated.addNewNode options id false none smallLeaf = some after)
    (keySize depth : Nat) :
    Progress newIds keySize depth ⟨after, id, [id]⟩ [] 0 ∧
      Untouched (Taken newIds tree) tree after ∧
      ∀ other, Taken newIds tree other → Complete newIds ⟨after, id, [id]⟩ other := by
  have fresh := fresh_index isId isNode
  obtain ⟨supply, isTaken, notTaken, stays⟩ := fresh_spec distinct supply fresh
  have untouched : Untouched (Taken newIds tree) tree after :=
    fresh.untouched.mono fun _ taken same => notTaken (same ▸ taken)
  refine ⟨⟨[], [], ?_, rfl, le_rfl, fun positive => absurd positive (Nat.lt_irrefl 0)⟩,
    untouched, fun place taken => ⟨stays place taken, fun same : place = id =>
      notTaken (same ▸ taken)⟩⟩
  exact ⟨supply, isTaken, rfl, by simp, by simp, _, fresh.isPage, fresh.holds,
    Slotted.fixedKeys_allocate keySize _, Slotted.wellFormed_pageInit _ false fun _ => 0, .nil⟩

/-- The pages of a level are half as many as their entries, rounded up. -/
theorem level_of_progress {keySize depth count : Nat} {loading : FileLoading}
    {files : List FileMetaData} (progress : Progress newIds keySize depth loading files count)
    (positive : 0 < count) : ∃ nodes, Level newIds loading.tree (depth + 1) files nodes ∧
      loading.newNodes = nodes.map Prod.fst ∧ 0 < nodes.length ∧
        2 * nodes.length ≤ count + 1 := by
  obtain ⟨full, groups, course, rfl, counted, filled⟩ := progress
  obtain ⟨page, isFilled⟩ := course.filled
  have nonempty := filled positive
  refine ⟨full ++ [(loading.insertToId, groups.flatten)], ⟨course.supply, ?_, ?_, by simp⟩,
    by simp [course.newNodes], by simp, ?_⟩
  · intro node member
    rcases List.mem_append.mp member with older | last
    · exact (course.fullLoaded node older).later ⟨fun _ _ => rfl, fun _ _ => rfl⟩
        fun _ complete => complete.1
    · rw [List.mem_singleton.mp last]
      exact isFilled.loaded (fun _ complete => complete.1) course.current
  · intro node member
    rcases List.mem_append.mp member with older | last
    · exact course.nonempty node older
    · rw [List.mem_singleton.mp last]
      exact isFilled.files_ne_nil nonempty
  · have some := List.length_pos_of_ne_nil nonempty
    rw [List.length_append, List.length_singleton]
    omega

variable {keySize : Nat} (two : 2 * indexEntrySize keySize ≤ Btree.usableSpace)
  {files : List FileMetaData} (many : 1 < files.length)
  (sizes : ∀ file ∈ files, file.start.length = keySize) (ordered : Ordered files)

/-- The loop above the leaf level. -/
structure Above (newIds : List UInt32) (files : List FileMetaData) (load : Bulkload)
    (nodes : List (UInt32 × List FileMetaData)) : Prop where
  level : Level newIds load.tree load.addHeight files nodes
  topLevel : load.topLevel = nodes.map Prod.fst
  newNodes : load.newNodes = []
  notLeaf : load.leafLevel = false
  height : 0 < load.addHeight

include many sizes in
theorem keySize_eq : (files.head?.map fun file => file.start.length).getD 0 = keySize := by
  cases files with
  | nil => exact absurd many (Nat.not_lt_zero 1)
  | cons file files => exact sizes file List.mem_cons_self

include distinct two many sizes ordered

/-- The round on the leaf level. -/
theorem above_of_leafLevel {tree : WotIndex} (supply : tree.newIds <:+ newIds)
    {next : Bulkload} (done : loadLevel options files smallLeaf ⟨tree, [], [], true, 0⟩ =
      some next) :
    ∃ nodes, Above newIds files next nodes ∧ 0 < nodes.length ∧
      2 * nodes.length ≤ files.length + 1 := by
  obtain ⟨⟨id, allocated⟩, isId, rest⟩ := Option.bind_eq_some_iff.mp done
  obtain ⟨after, isNode, rest⟩ := Option.bind_eq_some_iff.mp rest
  obtain ⟨loading, isLoading, same⟩ := Option.bind_eq_some_iff.mp rest
  cases same
  rw [loadChildren, if_pos rfl, keySize_eq many sizes] at isLoading
  have start := (progress_start distinct supply isId isNode keySize 0).1
  have progress := progress_files distinct two start sizes ordered isLoading
  rw [List.nil_append, Nat.zero_add] at progress
  obtain ⟨nodes, level, isTop, positive, halved⟩ := level_of_progress progress (by omega)
  exact ⟨nodes, ⟨level, isTop, rfl, rfl, Nat.succ_pos 0⟩, positive, halved⟩

/-- A round above the leaf level. -/
theorem above_of_above {load next : Bulkload} {below : List (UInt32 × List FileMetaData)}
    (above : Above newIds files load below) (several : 1 < below.length)
    (done : loadLevel options files smallLeaf load = some next) :
    ∃ nodes, Above newIds files next nodes ∧ 0 < nodes.length ∧
      2 * nodes.length ≤ below.length + 1 := by
  obtain ⟨⟨id, allocated⟩, isId, rest⟩ := Option.bind_eq_some_iff.mp done
  obtain ⟨after, isNode, rest⟩ := Option.bind_eq_some_iff.mp rest
  obtain ⟨loading, isLoading, same⟩ := Option.bind_eq_some_iff.mp rest
  cases same
  obtain ⟨depth, isDepth⟩ : ∃ depth, load.addHeight = depth + 1 :=
    ⟨load.addHeight - 1, by have := above.height; omega⟩
  have level := above.level
  rw [isDepth] at level
  rw [loadChildren, above.notLeaf, if_neg (by simp), keySize_eq many sizes, above.newNodes,
    above.topLevel] at isLoading
  obtain ⟨start, untouched, complete⟩ :=
    progress_start distinct level.supply isId isNode keySize (depth + 1)
  have progress := progress_pages distinct two start
    (fun node member => (level.loaded node member).later untouched complete) level.nonempty
    (level.files ▸ sizes) (level.files ▸ ordered) isLoading
  rw [List.nil_append, Nat.zero_add, level.files] at progress
  obtain ⟨nodes, isLevel, isTop, positive, halved⟩ := level_of_progress progress (by omega)
  refine ⟨nodes, ⟨?_, isTop, ?_, rfl, Nat.succ_pos _⟩, positive, halved⟩
  · rw [isDepth]
    exact isLevel
  · rw [above.notLeaf]
    rfl

/-- As each round halves the level, one page is left in the end. -/
theorem loadLevels_of_above {load : Bulkload} {nodes : List (UInt32 × List FileMetaData)}
    (above : Above newIds files load nodes) (positive : 0 < nodes.length) :
    ∃ fuel ended, loadLevels options files smallLeaf fuel load = some ended ∧
      ∀ done ∈ ended, ∃ top, Above newIds files done [top] := by
  induction isLength : nodes.length using Nat.strongRecOn generalizing load nodes with
  | ind number ih =>
      have isSize : load.topLevelSize files = nodes.length := by
        rw [Bulkload.topLevelSize, above.notLeaf, if_neg (by simp), above.topLevel,
          List.length_map]
      by_cases single : nodes.length ≤ 1
      · refine ⟨1, some load, ?_, ?_⟩
        · rw [loadLevels, if_pos (isSize ▸ single)]
        · intro done isDone
          cases isDone
          obtain ⟨top, rfl⟩ := List.length_eq_one_iff.mp (Nat.le_antisymm single positive)
          exact ⟨top, above⟩
      · have goesOn : ¬ load.topLevelSize files ≤ 1 := isSize ▸ single
        cases round : loadLevel options files smallLeaf load with
        | none =>
            refine ⟨1, none, ?_, by simp⟩
            rw [loadLevels, if_neg goesOn, round]
        | some next =>
            obtain ⟨later, isAbove, some, halved⟩ :=
              above_of_above distinct two many sizes ordered above (by omega) round
            obtain ⟨fuel, ended, ran, spec⟩ := ih later.length (by omega) isAbove some rfl
            refine ⟨fuel + 1, ended, ?_, spec⟩
            rw [loadLevels, if_neg goesOn, round]
            exact ran

end Levels

/-! ## Space

A loading of pages alone has no ids and no nodes, only what the pages have of entries.  With
enough ids, `BulkloadFiles` aborts just when the loading of pages does. -/

/-- The page that is filled has as many entries as in the loading of pages, and there are
as many pages. -/
structure Mirrors (keySize : Nat) (loading : FileLoading) (pages : Slotted.Loading) :
    Prop where
  isPage : ∃ page, loading.tree.pages loading.insertToId = .index page ∧
    FixedKeys keySize page ∧ page.itemNum = pages.current.itemNum
  loaded : Slotted.Loaded keySize pages
  newNodes : loading.newNodes.length = pages.full.length + 1
  distinct : loading.tree.newIds.Nodup
  notNew : loading.insertToId ∉ loading.tree.newIds

/-- Both abort, or both go on, with so many ids spent at most. -/
def Together (keySize spent : Nat) (loading : FileLoading) (outcome : Option FileLoading)
    (pages : Option Slotted.Loading) : Prop :=
  (outcome = none ∧ pages = none) ∨ ∃ after next, outcome = some after ∧ pages = some next ∧
    Mirrors keySize after next ∧
      loading.tree.newIds.length ≤ after.tree.newIds.length + spent

theorem Together.bind {keySize spent more : Nat} {loading : FileLoading}
    {outcome : Option FileLoading} {pages : Option Slotted.Loading}
    {rest : FileLoading → Option FileLoading} {pagesRest : Slotted.Loading → Option Slotted.Loading}
    (first : Together keySize spent loading outcome pages)
    (later : ∀ after next, outcome = some after → Mirrors keySize after next →
      loading.tree.newIds.length ≤ after.tree.newIds.length + spent →
        Together keySize more after (rest after) (pagesRest next)) :
    Together keySize (spent + more) loading (outcome.bind rest) (pages.bind pagesRest) := by
  rcases first with ⟨rfl, rfl⟩ | ⟨after, next, rfl, rfl, mirrors, fewer⟩
  · exact .inl ⟨rfl, rfl⟩
  · rcases later after next rfl mirrors fewer with neither | ⟨last, final, isLast, isFinal, rest⟩
    · exact .inl neither
    · exact .inr ⟨last, final, isLast, isFinal, rest.1, by have := rest.2; omega⟩

theorem indexPage_of_page {tree : WotIndex} {id : UInt32} {page : Slotted.Page}
    (isPage : tree.pages id = .index page) : tree.indexPage id = some page := by
  rw [indexPage, isPage]

/-- With an id there is a new page. -/
theorem turnPage_some (options : NodeOptions) (smallLeaf : Bool) {loading : FileLoading}
    {id : UInt32} {newIds : List UInt32} (isNext : loading.tree.newIds = id :: newIds) :
    ∃ tree, loading.turnPage options smallLeaf = some ⟨tree, id, loading.newNodes ++ [id]⟩ ∧
      tree.newIds = newIds ∧ tree.pages id = .index (Slotted.allocate id.toNat) := by
  have isId : loading.tree.allocate = some (id, { loading.tree with newIds := newIds }.setPage id
      (.index (Slotted.allocate id.toNat))) := by
    rw [allocate, isNext]
  obtain ⟨tree, isNode, -⟩ := newNode_index options id smallLeaf
    ({ loading.tree with newIds := newIds }.setPage id (.index (Slotted.allocate id.toNat)))
  have fresh := fresh_index isId isNode
  refine ⟨tree, ?_, ?_, fresh.isPage⟩
  · rw [FileLoading.turnPage, isId]
    simp only [Option.bind_eq_bind, Option.bind_some, isNode]
    rfl
  · exact (List.cons_inj_right id).mp (fresh.newIds.symm.trans isNext)

section Mirrors

variable {options : NodeOptions} {smallLeaf : Bool} {keySize : Nat}
  (two : 2 * indexEntrySize keySize ≤ Btree.usableSpace) {loading : FileLoading}
  {pages : Slotted.Loading} (mirrors : Mirrors keySize loading pages)

include two mirrors

/-- A child. -/
theorem insertChild_together (available : loading.tree.newIds ≠ []) {minK : Slice}
    (isSize : minK.length = keySize) (inserted : UInt32) {item : Slice × Option UInt32}
    (itemSize : item.1.length = keySize) :
    Together keySize 1 loading (insertChild options keySize smallLeaf loading minK inserted)
      (Slotted.loadChild keySize pages item) := by
  obtain ⟨page, isPage, fixed, sameNum⟩ := mirrors.isPage
  have positive := Slotted.indexEntrySize_pos keySize
  have roomy : indexEntrySize keySize < Btree.usableSpace := by omega
  have small := Slotted.loadChild_eq_none_iff mirrors.loaded itemSize
  rw [← sameNum] at small
  have tightIff : page.getFreeSpace < keySize + 3 * itemIdSize ↔ _ := fixed.getFreeSpace_lt_iff
  by_cases tight : page.getFreeSpace < keySize + 3 * itemIdSize
  · -- the page is full, and the child goes to a new one
    have isTight := tightIff.mp tight
    obtain ⟨id, newIds, isIds⟩ := List.exists_cons_of_ne_nil available
    obtain ⟨tree, isTurned, rest, isNew⟩ := turnPage_some options smallLeaf isIds
    have turns : turnIfFull options keySize smallLeaf loading =
        some ⟨tree, id, loading.newNodes ++ [id]⟩ := by
      rw [turnIfFull, indexPage_of_page isPage, Option.bind_eq_bind, Option.bind_some,
        if_pos tight, isTurned]
    have fixedNew := Slotted.fixedKeys_allocate keySize id.toNat
    obtain ⟨written, isWritten⟩ : ∃ written,
        (Slotted.allocate id.toNat).insertIndexEntry minK inserted = some written := by
      apply Option.ne_none_iff_exists'.mp
      rw [ne_eq, fixedNew.insertIndexEntry_eq_none_iff isSize, not_le]
      exact (Nat.one_mul _).symm ▸ roomy
    obtain ⟨fixedWritten, isOne⟩ := fixedNew.insertIndexEntry isSize isWritten
    obtain ⟨next, isNext⟩ : ∃ next, Slotted.loadChild keySize pages item = some next := by
      apply Option.ne_none_iff_exists'.mp
      rw [ne_eq, small, not_or, not_and, not_le]
      exact ⟨isTight.ne, fun _ => roomy⟩
    obtain ⟨isFull, single⟩ :=
      Slotted.loadChild_turned mirrors.loaded itemSize (sameNum ▸ isTight) isNext
    have distinct := mirrors.distinct
    rw [isIds] at distinct
    refine .inr ⟨⟨tree.setPage id (.index written), id, loading.newNodes ++ [id]⟩, next, ?_, isNext,
      ⟨⟨written, Function.update_self .., fixedWritten, isOne.trans single.symm⟩,
        (Slotted.loadChild_loaded mirrors.loaded roomy itemSize isNext).1, ?_, ?_, ?_⟩, ?_⟩
    · rw [insertChild, turns, Option.bind_eq_bind, Option.bind_some, indexPage_of_page isNew,
        Option.bind_eq_bind, Option.bind_some, isWritten]
      rfl
    · rw [List.length_append, mirrors.newNodes, isFull]
      rfl
    · exact rest ▸ (List.nodup_cons.mp distinct).2
    · exact rest ▸ (List.nodup_cons.mp distinct).1
    · rw [isIds, List.length_cons]
      exact (congrArg (List.length · + 1) rest).ge
  · -- the page takes the child, unless this fills it
    have stays : turnIfFull options keySize smallLeaf loading = some loading := by
      rw [turnIfFull, indexPage_of_page isPage, Option.bind_eq_bind, Option.bind_some,
        if_neg tight]
    have notTight := mt tightIff.mpr tight
    have large := fixed.insertIndexEntry_eq_none_iff isSize inserted
    have inserts : insertChild options keySize smallLeaf loading minK inserted =
        (page.insertIndexEntry minK inserted).map fun page =>
          { loading with tree := loading.tree.setPage loading.insertToId (.index page) } := by
      rw [insertChild, stays, Option.bind_eq_bind, Option.bind_some, indexPage_of_page isPage,
        Option.bind_eq_bind, Option.bind_some, Option.map_eq_bind]
      rfl
    rw [inserts]
    by_cases exact : Btree.usableSpace = (page.itemNum + 1) * indexEntrySize keySize
    · exact .inl ⟨Option.map_eq_none_iff.mpr (large.mpr exact.le), small.mpr (.inl exact)⟩
    · obtain ⟨written, isWritten⟩ : ∃ written, page.insertIndexEntry minK inserted = some written :=
        Option.ne_none_iff_exists'.mp fun isNone =>
          exact ((not_lt.mp notTight).antisymm (large.mp isNone)).symm
      obtain ⟨fixedWritten, isMore⟩ := fixed.insertIndexEntry isSize isWritten
      obtain ⟨next, isNext⟩ : ∃ next, Slotted.loadChild keySize pages item = some next := by
        apply Option.ne_none_iff_exists'.mp
        rw [ne_eq, small, not_or, not_and]
        exact ⟨exact, fun isTight => absurd isTight notTight⟩
      obtain ⟨loaded, sameFull, more⟩ :=
        Slotted.loadChild_same mirrors.loaded itemSize (sameNum ▸ notTight) isNext
      refine .inr ⟨{ loading with
          tree := loading.tree.setPage loading.insertToId (.index written) }, next,
        by rw [isWritten, Option.map_some], isNext,
        ⟨⟨written, Function.update_self .., fixedWritten, ?_⟩, loaded, ?_, mirrors.distinct,
          mirrors.notNew⟩, Nat.le_succ _⟩
      · rw [isMore, more, sameNum]
      · rw [sameFull]
        exact mirrors.newNodes

/-- A file, whose leaf is on an id of its own. -/
theorem loadFile_together (available : 2 ≤ loading.tree.newIds.length) {file : FileMetaData}
    (isSize : file.start.length = keySize) {item : Slice × Option UInt32}
    (itemSize : item.1.length = keySize) :
    Together keySize 2 loading (loadFile options keySize smallLeaf loading file)
      (Slotted.loadChild keySize pages item) := by
  obtain ⟨inserted, newIds, isIds⟩ := List.exists_cons_of_ne_nil
    (List.ne_nil_of_length_pos (show 0 < loading.tree.newIds.length by omega))
  have isId : loading.tree.allocate = some (inserted,
      { loading.tree with newIds := newIds }.setPage inserted
        (.index (Slotted.allocate inserted.toNat))) := by
    rw [allocate, isIds]
  obtain ⟨tree, isNode, -⟩ := newNode_leaf options inserted file smallLeaf
    ({ loading.tree with newIds := newIds }.setPage inserted
      (.index (Slotted.allocate inserted.toNat)))
  have fresh := fresh_leaf isId isNode
  have rest : (tree.setPage inserted (.leaf [])).newIds = newIds :=
    (List.cons_inj_right inserted).mp (fresh.newIds.symm.trans isIds)
  have distinct := mirrors.distinct
  have notNew := mirrors.notNew
  rw [isIds] at distinct notNew
  have other : loading.insertToId ≠ inserted := fun same => notNew (same ▸ List.mem_cons_self)
  have notLater : loading.insertToId ∉ newIds := fun later => notNew (List.mem_cons_of_mem _ later)
  have grown : Mirrors keySize { loading with tree := tree.setPage inserted (.leaf []) } pages := by
    refine ⟨?_, mirrors.loaded, mirrors.newNodes, rest ▸ (List.nodup_cons.mp distinct).2,
      rest ▸ notLater⟩
    obtain ⟨page, isPage, spec⟩ := mirrors.isPage
    exact ⟨page, (fresh.untouched.pages _ other).trans isPage, spec⟩
  have same : loadFile options keySize smallLeaf loading file =
      insertChild options keySize smallLeaf
        { loading with tree := tree.setPage inserted (.leaf []) } file.start inserted :=
    loadFile_eq_insertChild isId isNode
  have left : newIds ≠ [] := by
    rintro rfl
    rw [isIds] at available
    exact absurd available (by simp)
  rw [same]
  rcases insertChild_together two grown (rest ▸ left) isSize inserted itemSize with
    neither | ⟨after, next, isAfter, isNext, still, spent⟩
  · exact .inl neither
  · refine .inr ⟨after, next, isAfter, isNext, still, ?_⟩
    have fewer : (tree.setPage inserted (.leaf [])).newIds.length ≤ after.tree.newIds.length + 1 :=
      spent
    rw [rest] at fewer
    rw [isIds, List.length_cons]
    omega

/-- All files. -/
theorem files_together {files : List FileMetaData}
    (sizes : ∀ file ∈ files, file.start.length = keySize)
    {items : List (Slice × Option UInt32)} (itemSizes : ∀ item ∈ items, item.1.length = keySize)
    (sameLength : items.length = files.length)
    (available : 2 * files.length ≤ loading.tree.newIds.length) :
    Together keySize (2 * files.length) loading
      (files.foldlM (loadFile options keySize smallLeaf) loading)
      (items.foldlM (Slotted.loadChild keySize) pages) := by
  induction files generalizing loading pages items with
  | nil =>
      obtain rfl := List.length_eq_zero_iff.mp sameLength
      exact .inr ⟨loading, pages, rfl, rfl, mirrors, le_rfl⟩
  | cons file files ih =>
      obtain ⟨item, items, rfl⟩ :=
        List.exists_cons_of_ne_nil (List.ne_nil_of_length_eq_add_one sameLength)
      obtain ⟨isSize, fileSizes⟩ := List.forall_mem_cons.mp sizes
      obtain ⟨itemSize, restSizes⟩ := List.forall_mem_cons.mp itemSizes
      rw [List.length_cons] at available ⊢
      have step : Together keySize 2 loading (loadFile options keySize smallLeaf loading file) _ :=
        loadFile_together two mirrors (by omega) isSize itemSize
      rw [show 2 * (files.length + 1) = 2 + 2 * files.length by omega]
      exact step.bind fun after next _ still fewer =>
        ih still fileSizes restSizes (Nat.succ.inj sameLength) (by omega)

end Mirrors

section Aborts

variable {options : NodeOptions} {smallLeaf : Bool} {newIds : List UInt32}
  (distinct : newIds.Nodup) {keySize : Nat}
  (two : 2 * indexEntrySize keySize ≤ Btree.usableSpace)

include distinct two

/-- All pages of a level. -/
theorem pages_together {depth count : Nat} {loading : FileLoading} {pages : Slotted.Loading}
    {files : List FileMetaData} {nodes : List (UInt32 × List FileMetaData)}
    (progress : Progress newIds keySize (depth + 1) loading files count)
    (mirrors : Mirrors keySize loading pages)
    (loaded : ∀ node ∈ nodes,
      Loaded loading.tree (Complete newIds loading) (depth + 1) node.1 node.2)
    (nonempty : ∀ node ∈ nodes, node.2 ≠ [])
    (sizes : ∀ file ∈ nodes.flatMap Prod.snd, file.start.length = keySize)
    (ordered : Ordered (files ++ nodes.flatMap Prod.snd))
    {items : List (Slice × Option UInt32)} (itemSizes : ∀ item ∈ items, item.1.length = keySize)
    (sameLength : items.length = nodes.length)
    (available : nodes.length ≤ loading.tree.newIds.length) :
    Together keySize nodes.length loading
      ((nodes.map Prod.fst).foldlM (loadPage options keySize smallLeaf) loading)
      (items.foldlM (Slotted.loadChild keySize) pages) := by
  induction nodes generalizing loading pages files count items with
  | nil =>
      obtain rfl := List.length_eq_zero_iff.mp sameLength
      exact .inr ⟨loading, pages, rfl, rfl, mirrors, le_rfl⟩
  | cons node nodes ih =>
      obtain ⟨item, items, rfl⟩ :=
        List.exists_cons_of_ne_nil (List.ne_nil_of_length_eq_add_one sameLength)
      obtain ⟨itemSize, restSizes⟩ := List.forall_mem_cons.mp itemSizes
      obtain ⟨isLoaded, othersLoaded⟩ := List.forall_mem_cons.mp loaded
      obtain ⟨isFilled, othersFilled⟩ := List.forall_mem_cons.mp nonempty
      rw [List.flatMap_cons] at sizes ordered
      rw [← List.append_assoc] at ordered
      rw [List.length_cons] at available ⊢
      obtain ⟨page, isPage⟩ : ∃ page, loading.tree.pages node.1 = .index page := by
        obtain ⟨-, -, page, -, isPage, -⟩ := isLoaded
        exact ⟨page, isPage⟩
      obtain ⟨-, groupOrdered, -⟩ :=
        List.pairwise_append.mp (List.pairwise_append.mp ordered).1
      obtain ⟨⟨least, isLeast, starts⟩, -⟩ :=
        isLoaded.first_pivot isFilled groupOrdered (indexPage_of_page isPage)
      have isSize : (page.readPivotAtOffset 0).length = keySize := by
        rw [← starts]
        exact sizes least (List.mem_append_left _ isLeast)
      have step : Together keySize 1 loading
          (loadPage options keySize smallLeaf loading node.1)
          (Slotted.loadChild keySize pages item) := by
        rw [loadPage, indexPage_of_page isPage, Option.bind_eq_bind, Option.bind_some]
        exact insertChild_together two mirrors (List.ne_nil_of_length_pos (by omega)) isSize node.1
          itemSize
      rw [Nat.add_comm]
      refine step.bind fun after next isAfter still fewer => ?_
      obtain ⟨further, keeps⟩ := progress_loadPage distinct two progress isLoaded isFilled
        (fun file member => sizes file (List.mem_append_left _ member))
        (List.pairwise_append.mp ordered).1 isAfter
      exact ih further still
        (fun other member => (othersLoaded other member).later keeps.untouched keeps.complete)
        othersFilled (fun file member => sizes file (List.mem_append_right _ member)) ordered
        restSizes (Nat.succ.inj sameLength) (by omega)

omit distinct two in
/-- Each level starts with one empty page. -/
theorem mirrors_start {tree : WotIndex} (supply : tree.newIds.Nodup)
    (available : tree.newIds ≠ []) (newId : Nat) :
    ∃ id allocated after, tree.allocate = some (id, allocated) ∧
      allocated.addNewNode options id false none smallLeaf = some after ∧
      Mirrors keySize ⟨after, id, [id]⟩ ⟨Slotted.allocate newId, [], newId + 1⟩ ∧
      tree.newIds.length = after.newIds.length + 1 := by
  obtain ⟨id, rest, isIds⟩ := List.exists_cons_of_ne_nil available
  have isId : tree.allocate = some (id, { tree with newIds := rest }.setPage id
      (.index (Slotted.allocate id.toNat))) := by
    rw [allocate, isIds]
  obtain ⟨after, isNode, -⟩ := newNode_index options id smallLeaf
    ({ tree with newIds := rest }.setPage id (.index (Slotted.allocate id.toNat)))
  have fresh := fresh_index isId isNode
  rw [fresh.newIds, List.nodup_cons] at supply
  refine ⟨id, _, after, isId, isNode, ⟨⟨_, fresh.isPage, Slotted.fixedKeys_allocate keySize _, rfl⟩,
    Slotted.fresh_loaded keySize newId, rfl, supply.2, supply.1⟩, ?_⟩
  rw [fresh.newIds, List.length_cons]

omit distinct two in
/-- A round ends like its inner loop. -/
theorem loadLevel_together {files : List FileMetaData} {load : Bulkload} {spent newId : Nat}
    {items : List (Slice × Option UInt32)} (noNodes : load.newNodes = [])
    (supply : load.tree.newIds.Nodup) (available : load.tree.newIds ≠ [])
    (together : ∀ first, Mirrors keySize first ⟨Slotted.allocate newId, [], newId + 1⟩ →
      load.tree.newIds.length = first.tree.newIds.length + 1 →
        (∃ id allocated, load.tree.allocate = some (id, allocated) ∧
          allocated.addNewNode options id false none smallLeaf = some first.tree ∧
          first = ⟨first.tree, id, [id]⟩) →
        Together keySize spent first (loadChildren options files smallLeaf load first)
          (Slotted.loadLevel keySize newId items)) :
    (loadLevel options files smallLeaf load = none ∧
        Slotted.loadLevel keySize newId items = none) ∨
      ∃ next loading, loadLevel options files smallLeaf load = some next ∧
        Slotted.loadLevel keySize newId items = some loading ∧
        next.topLevel.length = loading.pages.length ∧
        load.tree.newIds.length ≤ next.tree.newIds.length + spent + 1 := by
  obtain ⟨id, allocated, after, isId, isNode, mirrors, fewer⟩ :=
    @mirrors_start options smallLeaf keySize load.tree supply available newId
  have level : loadLevel options files smallLeaf load =
      (loadChildren options files smallLeaf load ⟨after, id, [id]⟩).bind fun loading => some {
        tree := loading.tree
        topLevel := loading.newNodes
        newNodes := if load.leafLevel then load.topLevel else []
        leafLevel := false
        addHeight := load.addHeight + 1 } := by
    rw [loadLevel, isId]
    simp only [Option.bind_eq_bind, Option.bind_some, isNode, noNodes, List.nil_append]
    rfl
  rw [level]
  rcases together ⟨after, id, [id]⟩ mirrors fewer ⟨id, allocated, isId, isNode, rfl⟩ with
    ⟨aborts, isNone⟩ | ⟨last, loading, isLast, isLoading, still, spends⟩
  · exact .inl ⟨by rw [aborts, Option.bind_none], isNone⟩
  · refine .inr ⟨_, loading, by rw [isLast, Option.bind_some], isLoading, ?_, ?_⟩
    · simp [Slotted.Loading.pages, still.newNodes]
    · simp only at spends ⊢
      omega

variable {files : List FileMetaData} (many : 1 < files.length)
  (sizes : ∀ file ∈ files, file.start.length = keySize) (ordered : Ordered files)

include many sizes ordered

/-- The outer loop above the leaf level aborts just when the loading of pages does. -/
theorem loadLevels_aborts_iff {load : Bulkload} {nodes : List (UInt32 × List FileMetaData)}
    (above : Above newIds files load nodes) (positive : 0 < nodes.length)
    {items : List (Slice × Option UInt32)} (itemSizes : ∀ item ∈ items, item.1.length = keySize)
    (sameLength : items.length = nodes.length)
    (available : 4 * nodes.length ≤ load.tree.newIds.length + 4) (fuel addHeight newId : Nat) :
    loadLevels options files smallLeaf fuel load = some none ↔
      Slotted.loadLevels keySize fuel addHeight newId items = none := by
  induction fuel generalizing load nodes items addHeight newId with
  | zero => simp [loadLevels, Slotted.loadLevels]
  | succ fuel ih =>
      have isSize : load.topLevelSize files = nodes.length := by
        rw [Bulkload.topLevelSize, above.notLeaf, if_neg (by simp), above.topLevel,
          List.length_map]
      rw [loadLevels, Slotted.loadLevels, isSize, sameLength]
      by_cases single : nodes.length ≤ 1
      · simp [single]
      · rw [if_neg single, if_neg single]
        obtain ⟨depth, isDepth⟩ : ∃ depth, load.addHeight = depth + 1 :=
          ⟨load.addHeight - 1, by have := above.height; omega⟩
        have level := above.level
        rw [isDepth] at level
        have round := @loadLevel_together options smallLeaf keySize files load nodes.length newId
          items above.newNodes (distinct.sublist level.supply.sublist)
          (List.ne_nil_of_length_pos (by omega)) (by
            rintro first mirrors fewer ⟨id, allocated, isId, isNode, isFirst⟩
            rw [loadChildren, above.notLeaf, if_neg (by simp), keySize_eq many sizes,
              above.topLevel]
            obtain ⟨start, untouched, complete⟩ :=
              progress_start distinct level.supply isId isNode keySize (depth + 1)
            rw [← isFirst] at start complete
            exact pages_together distinct two start mirrors
              (fun node member => (level.loaded node member).later untouched complete)
              level.nonempty (level.files ▸ sizes) (level.files ▸ ordered) itemSizes sameLength
              (by omega))
        rcases round with ⟨aborts, isNone⟩ | ⟨next, loading, isNext, isLoading, samePages, spent⟩
        · simp [aborts, isNone]
        · obtain ⟨later, isAbove, some, halved⟩ :=
            above_of_above distinct two many sizes ordered above (by omega) isNext
          obtain ⟨loaded, filled⟩ := Slotted.loadChildren_loaded
            (by have := Slotted.indexEntrySize_pos keySize; omega) itemSizes
            (Slotted.fresh_loaded keySize newId)
            (.inl (List.ne_nil_of_length_pos (by omega))) isLoading
          rw [isNext, isLoading, Option.bind_some]
          apply ih isAbove some
          · intro item member
            obtain ⟨page, isPage, rfl⟩ := List.mem_map.mp member
            exact Slotted.pages_sizes loaded filled page isPage
          · rw [List.length_map, ← samePages, isAbove.topLevel, List.length_map]
          · omega

/-- With four ids for every file, `BulkloadFiles` aborts just when the loading of pages
does, which has the smallest keys of the files only. -/
theorem bulkloadFiles_aborts_iff {tree : WotIndex} (supply : tree.newIds = newIds)
    (available : 4 * files.length ≤ newIds.length) (fuel newId : Nat) :
    bulkloadFiles options files smallLeaf fuel tree = some none ↔
      Slotted.bulkloadFiles fuel newId (files.map FileMetaData.start) = none := by
  have isKeySize : ((files.map FileMetaData.start).headD []).length = keySize := by
    rw [← keySize_eq many sizes]
    cases files with
    | nil => rfl
    | cons file files => rfl
  rw [bulkloadFiles, Slotted.bulkloadFiles, Option.map_eq_none_iff, isKeySize]
  cases fuel with
  | zero => simp [loadLevels, Slotted.loadLevels]
  | succ fuel =>
      have goesOn : ¬ (⟨tree, [], [], true, 0⟩ : Bulkload).topLevelSize files ≤ 1 :=
        Nat.not_le.mpr many
      rw [loadLevels, Slotted.loadLevels, if_neg goesOn,
        if_neg (by simpa using many)]
      have itemSizes : ∀ item ∈ (files.map FileMetaData.start).map fun key =>
          (key, (none : Option UInt32)), item.1.length = keySize := by
        intro item member
        obtain ⟨key, isKey, rfl⟩ := List.mem_map.mp member
        obtain ⟨file, isFile, rfl⟩ := List.mem_map.mp isKey
        exact sizes file isFile
      have round := @loadLevel_together options smallLeaf keySize files ⟨tree, [], [], true, 0⟩
        (2 * files.length) newId ((files.map FileMetaData.start).map fun key => (key, none)) rfl
        (supply ▸ distinct) (List.ne_nil_of_length_pos (by simp only [supply]; omega)) (by
          rintro first mirrors fewer -
          simp only [supply] at fewer
          rw [loadChildren, if_pos rfl, keySize_eq many sizes]
          exact files_together two mirrors sizes itemSizes (by simp) (by omega))
      rcases round with ⟨aborts, isNone⟩ | ⟨next, loading, isNext, isLoading, samePages, spent⟩
      · exact iff_of_true (by rw [aborts]) (by rw [isNone, Option.bind_none])
      · obtain ⟨later, isAbove, some, halved⟩ := above_of_leafLevel distinct two many sizes ordered
          (supply ▸ List.suffix_refl newIds) isNext
        obtain ⟨loaded, filled⟩ := Slotted.loadChildren_loaded
          (by have := Slotted.indexEntrySize_pos keySize; omega) itemSizes
          (Slotted.fresh_loaded keySize newId)
          (.inl (List.ne_nil_of_length_pos (by simp; omega))) isLoading
        rw [isNext, isLoading, Option.bind_some]
        simp only [supply] at spent
        apply loadLevels_aborts_iff distinct two many sizes ordered isAbove some
        · intro item member
          obtain ⟨page, isPage, rfl⟩ := List.mem_map.mp member
          exact Slotted.pages_sizes loaded filled page isPage
        · rw [List.length_map, ← samePages, isAbove.topLevel, List.length_map]
        · omega

end Aborts

/-- Bulkloading ends, and unless it aborts it has built one tree, of the height that it
returns, over all files. -/
theorem bulkloadFiles_ends (options : NodeOptions) (smallLeaf : Bool)
    {files : List FileMetaData} (many : 1 < files.length) (ascending : files.Pairwise Apart)
    {keySize : Nat} (sizes : ∀ file ∈ files, file.start.length = keySize)
    (two : 2 * indexEntrySize keySize ≤ Btree.usableSpace) {tree : WotIndex}
    (distinct : tree.newIds.Nodup) :
    ∃ fuel ended, bulkloadFiles options files smallLeaf fuel tree = some ended ∧
      ∀ load ∈ ended, ∃ top, load.topLevel = [top] ∧
        Loaded load.tree (· ∈ tree.newIds) load.addHeight top files := by
  have ordered : Ordered files :=
    ascending.imp fun {front behind} apart => front.start_le_limit.trans_lt apart
  have goesOn : ¬ (⟨tree, [], [], true, 0⟩ : Bulkload).topLevelSize files ≤ 1 :=
    Nat.not_le.mpr many
  cases round : loadLevel options files smallLeaf ⟨tree, [], [], true, 0⟩ with
  | none =>
      refine ⟨1, none, ?_, by simp⟩
      rw [bulkloadFiles, loadLevels, if_neg goesOn, round]
  | some next =>
      obtain ⟨nodes, above, positive, -⟩ := above_of_leafLevel distinct two many sizes ordered
        (List.suffix_refl tree.newIds) round
      obtain ⟨fuel, ended, ran, spec⟩ := @loadLevels_of_above options smallLeaf _ distinct _ two _
        many sizes ordered _ _ above positive
      refine ⟨fuel + 1, ended, ?_, ?_⟩
      · rw [bulkloadFiles, loadLevels, if_neg goesOn, round]
        exact ran
      · intro load isLoad
        obtain ⟨top, done⟩ := spec load isLoad
        refine ⟨top.1, done.topLevel, ?_⟩
        have loaded := done.level.loaded top (List.mem_singleton_self _)
        have isFiles := done.level.files
        rw [List.flatMap_singleton] at isFiles
        rw [isFiles] at loaded
        exact loaded.later ⟨fun _ _ => rfl, fun _ _ => rfl⟩ fun _ taken => taken.1

/-- No entry is to fill a page to its last byte. -/
def HasRoom (keySize number : Nat) : Prop :=
  ¬ (indexEntrySize keySize ∣ Btree.usableSpace ∧
    Btree.usableSpace ≤ number * indexEntrySize keySize)

instance (keySize number : Nat) : Decidable (HasRoom keySize number) :=
  inferInstanceAs (Decidable (¬ (_ ∧ _)))

/-- With enough ids only the space of a page ends the program. -/
theorem aborts_iff_not_hasRoom (options : NodeOptions) (smallLeaf : Bool)
    {files : List FileMetaData} (many : 1 < files.length) (ordered : Ordered files)
    {keySize : Nat} (sizes : ∀ file ∈ files, file.start.length = keySize)
    (two : 2 * indexEntrySize keySize ≤ Btree.usableSpace) {tree : WotIndex}
    (distinct : tree.newIds.Nodup) (available : 4 * files.length ≤ tree.newIds.length) :
    (∃ fuel, bulkloadFiles options files smallLeaf fuel tree = some none) ↔
      ¬ HasRoom keySize files.length := by
  have keySizes : ∀ key ∈ files.map FileMetaData.start, key.length = keySize := by
    intro key member
    obtain ⟨file, isFile, rfl⟩ := List.mem_map.mp member
    exact sizes file isFile
  have room := Slotted.bulkloadFiles_iff keySizes 0
  have several : ¬ files.length ≤ 1 := Nat.not_le.mpr many
  have small : indexEntrySize keySize < Btree.usableSpace := by
    have := Slotted.indexEntrySize_pos keySize
    omega
  simp only [List.length_map, several, small, true_and, false_or] at room
  rw [HasRoom, ← room, not_forall]
  refine exists_congr fun fuel => ?_
  rw [ne_eq, not_not]
  exact bulkloadFiles_aborts_iff distinct two many sizes ordered rfl available fuel 0

/-- With enough ids, and unless an entry is to fill a page, bulkloading builds one tree, of
the height that it returns, over all files. -/
theorem bulkloadFiles_builds (options : NodeOptions) (smallLeaf : Bool)
    {files : List FileMetaData} (many : 1 < files.length) (ascending : files.Pairwise Apart)
    {keySize : Nat} (sizes : ∀ file ∈ files, file.start.length = keySize)
    (two : 2 * indexEntrySize keySize ≤ Btree.usableSpace)
    (room : HasRoom keySize files.length) {tree : WotIndex}
    (distinct : tree.newIds.Nodup) (available : 4 * files.length ≤ tree.newIds.length) :
    ∃ fuel load top, bulkloadFiles options files smallLeaf fuel tree = some (some load) ∧
      load.topLevel = [top] ∧ Loaded load.tree (· ∈ tree.newIds) load.addHeight top files := by
  have ordered : Ordered files :=
    ascending.imp fun {front behind} apart => front.start_le_limit.trans_lt apart
  obtain ⟨fuel, ended, ran, built⟩ :=
    bulkloadFiles_ends options smallLeaf many ascending sizes two distinct
  cases ended with
  | none =>
      exact absurd room ((aborts_iff_not_hasRoom options smallLeaf many ordered sizes two distinct
        available).mp ⟨fuel, ran⟩)
  | some load =>
      obtain ⟨top, isTop, loaded⟩ := built load rfl
      exact ⟨fuel, load, top, ran, isTop, loaded⟩

/-! ## Two files -/

def emptyTree (newIds : List UInt32) : WotIndex where
  disk := ⟨fun _ => [], 0⟩
  nodeTable := fun _ => none
  pages := fun _ => .leaf []
  newIds := newIds
  nodesInProgress := []
  removed := []

def twoFiles : List FileMetaData :=
  [.spanning 1 [1] [2] (by decide), .spanning 2 [3] [4] (by decide)]

theorem bulkloadFiles_builds_two :
    ((bulkloadFiles ⟨RootLsmt.smallTables 3, 2, 4⟩ twoFiles true 2
        (emptyTree [1, 2, 3, 4, 5, 6, 7, 8])).map fun ended => ended.map fun load =>
          (load.topLevel, load.addHeight)) = some (some ([1], 1)) ∧
      ∃ fuel load top, bulkloadFiles ⟨RootLsmt.smallTables 3, 2, 4⟩ twoFiles true fuel
          (emptyTree [1, 2, 3, 4, 5, 6, 7, 8]) = some (some load) ∧ load.topLevel = [top] ∧
        Loaded load.tree (· ∈ [1, 2, 3, 4, 5, 6, 7, 8]) load.addHeight top twoFiles := by
  have ascending : twoFiles.Pairwise Apart := by
    refine List.pairwise_cons.mpr ⟨?_, List.pairwise_singleton _ _⟩
    intro file member
    rw [List.mem_singleton.mp member]
    exact show ([2] : Slice) < [3] by decide
  exact ⟨rfl, @bulkloadFiles_builds ⟨RootLsmt.smallTables 3, 2, 4⟩ true twoFiles (by decide)
    ascending 1 (by decide) (by decide) (by decide) (emptyTree [1, 2, 3, 4, 5, 6, 7, 8])
    (by decide) (by decide)⟩

end BplusTree

end AhaTree
