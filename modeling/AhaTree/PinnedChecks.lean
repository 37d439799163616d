import AhaTree.BufferTransparency
import AhaTree.PivotCheck
import AhaTree.SlottedEntries

/-!
# Checks and pins

`FileAcrossPivots` pins the page it reads, and unpins it on all ways out but one:
a first file that starts below the first pivot.  What follows for the runs that
make the check is said of the pool as it is, not only of pools that are used as
they should be: a page held by someone is not evicted, whatever happens to other
pages.
-/

namespace AhaTree.TreeBuffer

open Slotted (Page pageInit)
open Slotted.Page (decrement)

/-! ## The check on the pool -/

/-- The check answers on this way out with the page still pinned. -/
def leavesPinned (keys : List Slice) (files : List FileMetaData) : Bool :=
  filesInOrder [] files && startsBelow keys files

namespace ShardedBufferManager

variable (pool : ShardedBufferManager)

/-- The references of a page, none if the page is not in memory. -/
def pinCount (pgId : Nat) : Nat :=
  let shard := pool.shards (shardOf pgId)
  if pgId ∈ shard.table then (shard.handle pgId).refs.toNat else 0

/-- What is in the frame of a page. -/
def pageAt (pgId : Nat) : Page := pool.readPage (pool.pointerTo pgId)

/-- `FileAcrossPivots` with its page in the pool. -/
def fileAcrossPivots (pgId : Nat) (files : List FileMetaData) :
    Option (Bool × ShardedBufferManager) :=
  if filesInOrder [] files then
    (pool.pin pgId).bind fun (pointer, pinned) =>
      let page := pinned.readPage pointer
      (acrossLoop page.keys files (files.length + page.itemNum + 1) 0 0).map fun answer =>
        (answer.across, if answer.pinned = 0 then pinned.unpin pgId else pinned)
  else some (true, pool)

end ShardedBufferManager

/-! ## Runs -/

/-- What happens to the pool, with the checks told apart from all other calls. -/
inductive Act where
  | call (op : Op)
  | fileAcrossPivots (pgId : Nat) (files : List FileMetaData)

def act (pool : ShardedBufferManager) : Act → Option ShardedBufferManager
  | .call op => step pool op
  | .fileAcrossPivots pgId files => (pool.fileAcrossPivots pgId files).map Prod.snd

def runActs (pool : ShardedBufferManager) (acts : List Act) : Option ShardedBufferManager :=
  acts.foldlM act pool

/-- The run without the checks. -/
def callsOf (acts : List Act) : List Op :=
  acts.filterMap fun
    | .call op => some op
    | .fileAcrossPivots _ _ => none

namespace ShardedBufferManager

variable (pool : ShardedBufferManager)

/-- `Node::CompactAndFlushToChildren` on the pool: the files of the bottom level as they
are and after its compaction, and what `FlushFilesToChildren` does with them. -/
def compactAndFlushToChildren (pgId : Nat) (files compacted : List FileMetaData)
    (flush : List FileMetaData → List Act) : Option ShardedBufferManager :=
  (pool.fileAcrossPivots pgId files).bind fun (across, checked) =>
    runActs checked (flush (if across then compacted else files))

/-- `DefaultAdapt::CompactNodeBufferForFlush` on the pool, with the files it hands over. -/
def compactNodeBufferForFlush (pgId : Nat) (files compacted : List FileMetaData) :
    Option (List FileMetaData × ShardedBufferManager) :=
  if files = [] then some (compacted, pool)
  else
    (pool.fileAcrossPivots pgId files).map fun (across, checked) =>
      (if across then compacted else files, checked)

end ShardedBufferManager

/-- Nothing but other pages is pinned and unpinned.  A flush pins the children of a node,
what is below them and the pages allocated for them; the node's own page is looked up
only, and the root is not split meanwhile. -/
def Op.Elsewhere (pgId : Nat) : Op → Prop
  | .allocate | .modify _ _ => True
  | .allocateRoot => False
  | .pin other | .unpin other | .unpinAndRelease other | .delete other => other ≠ pgId

def Act.Elsewhere (pgId : Nat) : Act → Prop
  | .call op => op.Elsewhere pgId
  | .fileAcrossPivots other _ => other ≠ pgId

/-! ## The loop -/

/-- The check ends and is undone, unless it leaves the page pinned. -/
theorem fileAcrossPivots_eq {pool pinned : ShardedBufferManager} {pgId : Nat}
    {pointer : Pointer} (isPinned : pool.pin pgId = some (pointer, pinned))
    (files : List FileMetaData) :
    ∃ across, pool.fileAcrossPivots pgId files =
      some (across, if filesInOrder [] files then
        (if startsBelow (pinned.readPage pointer).keys files then pinned
          else pinned.unpin pgId) else pool) := by
  rw [ShardedBufferManager.fileAcrossPivots]
  by_cases inOrder : filesInOrder [] files = true
  · have walked := @acrossLoop_eq (pinned.readPage pointer).keys files
      (files.length + (pinned.readPage pointer).itemNum + 1) (by rw [Page.keys_length])
    rw [if_pos inOrder, if_pos inOrder, isPinned, Option.bind_some]
    simp only [walked]
    by_cases below : startsBelow (pinned.readPage pointer).keys files = true
    · exact ⟨true, by simp [below]⟩
    · exact ⟨acrossWalk (pinned.readPage pointer).keys.tail files, by simp [below]⟩
  · exact ⟨true, by rw [if_neg inOrder, if_neg inOrder]⟩

/-! ## Pages that are held -/

namespace TreeBufferManager

/-- A page with references is in the table and not up for eviction. -/
structure Keeping (pgId : Nat) (count : UInt32) (shard : TreeBufferManager) : Prop where
  isThere : pgId ∈ shard.table
  notInLru : pgId ∉ shard.lru
  counted : (shard.handle pgId).refs = count

variable {pgId other : Nat} {count : UInt32} {shard after : TreeBufferManager}

namespace Keeping

variable (keeping : Keeping pgId count shard)
include keeping

/-- What an operation on another page does to the table and to `lru_`. -/
theorem of_lists {table lru : List Nat} (tableStays : pgId ∈ shard.table → pgId ∈ table)
    (lruStays : pgId ∈ lru → pgId ∈ shard.lru) (sameTable : after.table = table)
    (sameLru : after.lru = lru) (sameHandle : after.handle pgId = shard.handle pgId) :
    Keeping pgId count after where
  isThere := sameTable ▸ tableStays keeping.isThere
  notInLru inLru := keeping.notInLru (lruStays (sameLru ▸ inLru))
  counted := (congrArg PageHandle.refs sameHandle).trans keeping.counted

theorem setRefs (isOther : other ≠ pgId) (refs : UInt32) :
    Keeping pgId count (shard.setRefs other refs) :=
  keeping.of_lists id id rfl rfl (Function.update_of_ne isOther.symm _ _)

theorem lruRemove (other : Nat) : Keeping pgId count (shard.lruRemove other) :=
  keeping.of_lists id List.mem_of_mem_erase rfl rfl rfl

theorem erase (isOther : other ≠ pgId) (erased : shard.erase other = some after) :
    Keeping pgId count after := by
  rw [TreeBufferManager.erase] at erased
  split at erased
  · cases erased
  · cases erased
    exact keeping.of_lists (List.mem_erase_of_ne isOther.symm).mpr List.mem_of_mem_erase
      rfl rfl rfl

theorem evict {fuel usage left : Nat}
    (evicted : TreeBufferManager.evict fuel usage shard = some (left, after)) :
    Keeping pgId count after := by
  induction fuel generalizing usage shard with
  | zero =>
      cases evicted
      exact keeping
  | succ fuel ih =>
      rw [TreeBufferManager.evict] at evicted
      split at evicted
      · split at evicted
        · cases evicted
          exact keeping
        · rename_i old later isLru
          have isOther : old ≠ pgId := by
            rintro rfl
            exact keeping.notInLru (isLru ▸ List.mem_cons_self)
          split at evicted
          · obtain ⟨erased, wasErased, evicted⟩ := Option.bind_eq_some_iff.mp evicted
            exact ih (keeping.erase isOther wasErased) evicted
          · have skipped : Keeping pgId count { shard with lru := later } :=
              keeping.of_lists id (fun inLater => isLru ▸ List.mem_cons_of_mem _ inLater)
                rfl rfl rfl
            exact ih skipped evicted
      · cases evicted
        exact keeping

theorem mayOverflow {overflow : Bool}
    (evicted : shard.mayOverflow = some (overflow, after)) : Keeping pgId count after := by
  obtain ⟨⟨left, kept⟩, ran, same⟩ := Option.map_eq_some_iff.mp evicted
  cases same
  exact keeping.evict ran

theorem getBuffer : Keeping pgId count shard.getBuffer.2 := by
  rw [TreeBufferManager.getBuffer]
  split
  · exact keeping.of_lists id id rfl rfl rfl
  · exact keeping.of_lists id id rfl rfl rfl

theorem setPage (pageArrayId : Nat) (page : Page) :
    Keeping pgId count (shard.setPage pageArrayId page) :=
  keeping.of_lists id id rfl rfl rfl

/-- A page that is there is not inserted again. -/
theorem insertTable {pageArrayId : Nat}
    (inserted : shard.insertTable other pageArrayId = some after) :
    Keeping pgId count after := by
  rw [TreeBufferManager.insertTable] at inserted
  split at inserted
  · cases inserted
  · rename_i absent
    cases inserted
    have isOther : other ≠ pgId := by
      rintro rfl
      exact absent keeping.isThere
    refine keeping.of_lists List.mem_insert_of_mem ?_ rfl rfl
      (Function.update_of_ne isOther.symm _ _)
    intro inLru
    rcases List.mem_append.mp inLru with wasInLru | isIt
    · exact wasInLru
    · exact absurd (List.mem_singleton.mp isIt).symm isOther

theorem allocate (allocated : shard.allocate other = some after) :
    Keeping pgId count after := by
  obtain ⟨⟨overflow, evicted⟩, ran, allocated⟩ := Option.bind_eq_some_iff.mp allocated
  have kept := keeping.mayOverflow ran
  simp only at allocated
  split at allocated
  · cases allocated
  · have extended : Keeping pgId count
        { evicted with file := evicted.file.extend (offset other) } :=
      kept.of_lists id id rfl rfl rfl
    exact (extended.getBuffer.setPage _ _).insertTable allocated

theorem retrieveHandle (retrieved : shard.retrieveHandle other = some after) :
    Keeping pgId count after := by
  rw [TreeBufferManager.retrieveHandle] at retrieved
  split at retrieved
  · cases retrieved
    exact keeping
  · obtain ⟨⟨overflow, evicted⟩, ran, retrieved⟩ := Option.bind_eq_some_iff.mp retrieved
    have kept := keeping.mayOverflow ran
    simp only at retrieved
    split at retrieved
    · cases retrieved
    · obtain ⟨page, -, inserted⟩ := Option.bind_eq_some_iff.mp retrieved
      exact (kept.getBuffer.setPage _ _).insertTable inserted

theorem ref (isOther : other ≠ pgId) : Keeping pgId count (shard.ref other) := by
  rw [TreeBufferManager.ref]
  split
  · have moved : Keeping pgId count { shard.lruRemove other with
        inUse := (shard.lruRemove other).inUse ++ [other] } :=
      (keeping.lruRemove other).of_lists id id rfl rfl rfl
    exact moved.setRefs isOther _
  · exact keeping.setRefs isOther _

theorem pin {frame : Nat} (isOther : other ≠ pgId)
    (pinned : shard.pin other = some (frame, after)) : Keeping pgId count after := by
  obtain ⟨found, retrieved, same⟩ := Option.map_eq_some_iff.mp pinned
  cases same
  exact (keeping.retrieveHandle retrieved).ref isOther

theorem unpin (isOther : other ≠ pgId) : Keeping pgId count (shard.unpin other) := by
  rw [TreeBufferManager.unpin]
  split
  · exact keeping
  · have released := keeping.setRefs isOther ((shard.handle other).refs - 1)
    simp only
    split
    · refine (released.lruRemove other).of_lists id ?_ rfl rfl rfl
      intro inLru
      rcases List.mem_append.mp inLru with wasInLru | isIt
      · exact wasInLru
      · exact absurd (List.mem_singleton.mp isIt).symm isOther
    · exact released

theorem unpinAndRelease (isOther : other ≠ pgId)
    (released : shard.unpinAndRelease other = some after) : Keeping pgId count after := by
  rw [TreeBufferManager.unpinAndRelease] at released
  have decremented := keeping.setRefs isOther ((shard.handle other).refs - 1)
  split at released
  · cases released
    exact keeping
  · simp only at released
    split at released
    · exact decremented.erase isOther released
    · cases released
      exact decremented

theorem delete (isOther : other ≠ pgId) : Keeping pgId count (shard.delete other) := by
  rw [TreeBufferManager.delete]
  split
  · exact keeping
  · exact keeping.of_lists (List.mem_erase_of_ne isOther.symm).mpr List.mem_of_mem_erase
      rfl rfl rfl

end Keeping

end TreeBufferManager

/-- The page stays in its frame, with this many references. -/
structure Kept (pgId : Nat) (count : UInt32) (pool : ShardedBufferManager) : Prop where
  notRoot : pgId ≠ rootId
  keeping : TreeBufferManager.Keeping pgId count (pool.shards (shardOf pgId))

/-- Someone has the page pinned. -/
structure Held (pgId : Nat) (count : UInt32) (pool : ShardedBufferManager) : Prop
    extends Kept pgId count pool where
  pinned : count ≠ 0

variable {pgId other : Nat} {count : UInt32} {pool after : ShardedBufferManager}

theorem Kept.pinCount (kept : Kept pgId count pool) : pool.pinCount pgId = count.toNat :=
  (if_pos kept.keeping.isThere).trans (congrArg UInt32.toNat kept.keeping.counted)

namespace Kept

variable (kept : Kept pgId count pool)
include kept

theorem setShard {shard : TreeBufferManager}
    (keeps : TreeBufferManager.Keeping pgId count (pool.shards (shardOf other)) →
      TreeBufferManager.Keeping pgId count shard) :
    Kept pgId count (pool.setShard other shard) where
  notRoot := kept.notRoot
  keeping := by
    by_cases sameShard : shardOf pgId = shardOf other
    · have keeping := kept.keeping
      rw [sameShard] at keeping ⊢
      rw [setShard_shard]
      exact keeps keeping
    · rw [setShard_shard_of_ne pool shard sameShard]
      exact kept.keeping

theorem pin {pointer : Pointer} (isOther : other ≠ pgId)
    (pinned : pool.pin other = some (pointer, after)) : Kept pgId count after := by
  rw [ShardedBufferManager.pin] at pinned
  split at pinned
  · cases pinned
    exact kept
  · obtain ⟨⟨frame, shard⟩, ran, same⟩ := Option.map_eq_some_iff.mp pinned
    cases same
    exact kept.setShard fun keeping => keeping.pin isOther ran

theorem unpin (isOther : other ≠ pgId) : Kept pgId count (pool.unpin other) := by
  rw [ShardedBufferManager.unpin]
  split
  · exact kept
  · exact kept.setShard fun keeping => keeping.unpin isOther

theorem step {op : Op} (elsewhere : op.Elsewhere pgId)
    (stepped : TreeBuffer.step pool op = some after) : Kept pgId count after := by
  cases op with
  | allocate =>
      obtain ⟨⟨newId, allocated⟩, ran, rfl⟩ := Option.map_eq_some_iff.mp stepped
      obtain ⟨shard, shardRan, same⟩ := Option.map_eq_some_iff.mp ran
      cases same
      have set := kept.setShard fun keeping => keeping.allocate shardRan
      exact ⟨set.notRoot, set.keeping⟩
  | allocateRoot => exact elsewhere.elim
  | pin other =>
      obtain ⟨⟨pointer, pinned⟩, ran, rfl⟩ := Option.map_eq_some_iff.mp stepped
      exact kept.pin elsewhere ran
  | modify other page =>
      cases stepped
      rw [ShardedBufferManager.pointerTo]
      split
      · exact ⟨kept.notRoot, kept.keeping⟩
      · exact kept.setShard fun keeping => keeping.setPage _ _
  | unpin other =>
      cases stepped
      exact kept.unpin elsewhere
  | unpinAndRelease other =>
      rw [TreeBuffer.step, ShardedBufferManager.unpinAndRelease] at stepped
      split at stepped
      · cases stepped
        exact kept
      · obtain ⟨shard, released, rfl⟩ := Option.map_eq_some_iff.mp stepped
        exact kept.setShard fun keeping => keeping.unpinAndRelease elsewhere released
  | delete other =>
      rw [TreeBuffer.step, ShardedBufferManager.delete] at stepped
      split at stepped
      · cases stepped
      · cases stepped
        exact kept.setShard fun keeping => keeping.delete elsewhere

theorem fileAcrossPivots {across : Bool} {files : List FileMetaData} (isOther : other ≠ pgId)
    (checked : pool.fileAcrossPivots other files = some (across, after)) :
    Kept pgId count after := by
  by_cases inOrder : filesInOrder [] files = true
  · cases ran : pool.pin other with
    | none =>
        rw [ShardedBufferManager.fileAcrossPivots, if_pos inOrder, ran] at checked
        cases checked
    | some pinned =>
        obtain ⟨answer, checkedEq⟩ := fileAcrossPivots_eq ran files
        rw [checkedEq, if_pos inOrder] at checked
        cases checked
        split
        · exact kept.pin isOther ran
        · exact (kept.pin isOther ran).unpin isOther
  · rw [ShardedBufferManager.fileAcrossPivots, if_neg inOrder] at checked
    cases checked
    exact kept

theorem act {does : Act} (elsewhere : does.Elsewhere pgId)
    (done : TreeBuffer.act pool does = some after) : Kept pgId count after := by
  cases does with
  | call op => exact kept.step elsewhere done
  | fileAcrossPivots other files =>
      obtain ⟨⟨across, checked⟩, ran, rfl⟩ := Option.map_eq_some_iff.mp done
      exact kept.fileAcrossPivots elsewhere ran

/-- What happens to other pages never takes a pin away, or adds one. -/
theorem runActs {acts : List Act} (elsewhere : ∀ does ∈ acts, does.Elsewhere pgId)
    (ran : TreeBuffer.runActs pool acts = some after) : Kept pgId count after := by
  induction acts generalizing pool with
  | nil =>
      cases ran
      exact kept
  | cons first later ih =>
      rw [TreeBuffer.runActs, List.foldlM_cons] at ran
      obtain ⟨middle, done, ran⟩ := Option.bind_eq_some_iff.mp ran
      exact ih (kept.act (elsewhere first List.mem_cons_self) done)
        (fun does member => elsewhere does (List.mem_cons_of_mem _ member)) ran

end Kept

/-! ## The check of a page that is held -/

theorem TreeBufferManager.Keeping.pin_self {shard : TreeBufferManager}
    (keeping : TreeBufferManager.Keeping pgId count shard) (pinned : count ≠ 0) :
    shard.pin pgId = some (shard.frame pgId, shard.setRefs pgId (count + 1)) := by
  rw [TreeBufferManager.pin, TreeBufferManager.retrieveHandle, if_pos keeping.isThere,
    Option.map_some, TreeBufferManager.ref, keeping.counted, if_neg pinned]
  rfl

theorem TreeBufferManager.Keeping.unpin_self {shard : TreeBufferManager}
    (keeping : TreeBufferManager.Keeping pgId count shard) (pinned : count ≠ 0) :
    (shard.setRefs pgId (count + 1)).unpin pgId = shard := by
  have isThere : pgId ∈ (shard.setRefs pgId (count + 1)).table := keeping.isThere
  have decremented : ((shard.setRefs pgId (count + 1)).handle pgId).refs - 1 = count := by
    rw [TreeBufferManager.setRefs_handle]
    exact UInt32.add_sub_cancel count 1
  rw [TreeBufferManager.unpin, if_neg (not_not.mpr isThere)]
  simp only [decremented, if_neg pinned]
  have sameHandle : ({ shard.handle pgId with refs := count } : PageHandle) =
      shard.handle pgId := by
    rw [← keeping.counted]
  simp [TreeBufferManager.setRefs, sameHandle]

/-- The pool with another reference to the page. -/
def ShardedBufferManager.addRef (pool : ShardedBufferManager) (pgId : Nat) :
    ShardedBufferManager :=
  let shard := pool.shards (shardOf pgId)
  pool.setShard pgId (shard.setRefs pgId ((shard.handle pgId).refs + 1))

namespace Held

variable (held : Held pgId count pool)
include held

theorem pin_self : pool.pin pgId = some (pool.pointerTo pgId, pool.addRef pgId) := by
  rw [ShardedBufferManager.pin, if_neg held.notRoot, held.keeping.pin_self held.pinned,
    Option.map_some, ShardedBufferManager.pointerTo, if_neg held.notRoot,
    ShardedBufferManager.addRef, held.keeping.counted]
  rfl

theorem unpin_self : (pool.addRef pgId).unpin pgId = pool := by
  rw [ShardedBufferManager.unpin, if_neg held.notRoot, ShardedBufferManager.addRef,
    setShard_shard, held.keeping.counted, held.keeping.unpin_self held.pinned]
  simp [ShardedBufferManager.setShard]

theorem readPage_addRef : (pool.addRef pgId).readPage (pool.pointerTo pgId) =
    pool.pageAt pgId := by
  rw [ShardedBufferManager.pageAt, ShardedBufferManager.pointerTo, if_neg held.notRoot,
    ShardedBufferManager.readPage, ShardedBufferManager.addRef, setShard_shard]
  rfl

theorem addRef : Kept pgId (count + 1) (pool.addRef pgId) where
  notRoot := held.notRoot
  keeping := by
    rw [ShardedBufferManager.addRef, setShard_shard]
    exact {
      isThere := held.keeping.isThere
      notInLru := held.keeping.notInLru
      counted := by
        rw [TreeBufferManager.setRefs_handle]
        exact congrArg (· + 1) held.keeping.counted }

/-- The check of a page that is held leaves the whole pool as it is, or adds a reference. -/
theorem fileAcrossPivots_self (files : List FileMetaData) :
    ∃ across, pool.fileAcrossPivots pgId files =
      some (across, if leavesPinned (pool.pageAt pgId).keys files then pool.addRef pgId
        else pool) := by
  obtain ⟨across, checked⟩ := fileAcrossPivots_eq held.pin_self files
  refine ⟨across, checked.trans ?_⟩
  rw [held.readPage_addRef, held.unpin_self, leavesPinned]
  by_cases inOrder : filesInOrder [] files = true <;> simp [inOrder]

end Held

/-! ## Pins after the check and after a run -/

theorem Pool.setPins_pins (spec : Pool) (pgId pins : Nat) :
    (spec.setPins pgId pins).pins pgId = pins :=
  Function.update_self _ _ _

theorem Represents.pinCount_eq {perShard : Nat} {spec : Pool}
    (represents : Represents perShard pool spec) (notRoot : pgId ≠ rootId) :
    pool.pinCount pgId = spec.pins pgId := by
  have holds := represents.shard pgId
  rw [ShardedBufferManager.pinCount]
  by_cases isThere : pgId ∈ (pool.shards (shardOf pgId)).table
  · exact (if_pos isThere).trans (holds.counted pgId isThere)
  · exact (if_neg isThere).trans (holds.pinnedThere pgId ⟨notRoot, rfl⟩ isThere).symm

/-- The root is always in memory and in no table. -/
theorem Represents.pinCount_root {perShard : Nat} {spec : Pool}
    (represents : Represents perShard pool spec) : pool.pinCount rootId = 0 :=
  if_neg fun isThere => ((represents.shard rootId).mine rootId isThere).1 rfl

theorem Represents.held {perShard : Nat} {spec : Pool}
    (represents : Represents perShard pool spec) (notRoot : pgId ≠ rootId)
    (pinned : 0 < spec.pins pgId) :
    Held pgId ((pool.shards (shardOf pgId)).handle pgId).refs pool where
  notRoot := notRoot
  keeping :=
    have isThere := represents.mem_table notRoot pinned
    { isThere
      notInLru := fun inLru =>
        pinned.ne' (((represents.shard pgId).mem_lru_iff isThere).mp inLru)
      counted := rfl }
  pinned none := pinned.ne' (((represents.shard pgId).refs_eq_zero_iff
    (represents.mem_table notRoot pinned)).mp none)

/-- The check of a page that may be pinned, by someone else or not. -/
theorem Represents.fileAcrossPivots {perShard : Nat} {spec : Pool} {page : Page}
    (represents : Represents perShard pool spec)
    (isContent : spec.contents pgId = some page)
    (permitted : spec.Permitted perShard (.pin pgId)) (files : List FileMetaData) :
    ∃ across after, pool.fileAcrossPivots pgId files = some (across, after) ∧
      Represents perShard after (spec.setPins pgId
        (spec.pins pgId + if leavesPinned page.keys files then 1 else 0)) := by
  obtain ⟨pinned, ran, related, -⟩ := represents.pin permitted
  have nowPinned : 0 < (spec.next (.pin pgId)).pins pgId := by
    rw [Pool.next, Pool.setPins_pins]
    exact Nat.succ_pos _
  have reads : (clean (pinned.readPage (pinned.pointerTo pgId))).keys = page.keys :=
    congrArg Page.keys (related.readPage isContent (.inr nowPinned))
  change (pinned.readPage (pinned.pointerTo pgId)).keys = page.keys at reads
  obtain ⟨across, checked⟩ := fileAcrossPivots_eq ran files
  refine ⟨across, _, checked, ?_⟩
  rw [reads, leavesPinned]
  have back : spec.setPins pgId (spec.pins pgId) = spec := by
    simp [Pool.setPins]
  by_cases inOrder : filesInOrder [] files = true
  · by_cases below : startsBelow page.keys files = true
    · rw [Pool.next] at related
      simpa [inOrder, below] using related
    · have undone := (related.unpin (.inr nowPinned)).1
      simp only [Pool.next, Pool.setPins, Function.update_self, Nat.add_sub_cancel,
        Function.update_idem, Function.update_eq_self] at undone
      simpa [inOrder, below, back] using undone
  · simpa [inOrder, back] using represents

/-- The check leaves the pins of all pages as they are, unless it leaves its page pinned. -/
theorem Represents.pinCount_checked_iff {perShard : Nat} {spec : Pool} {page : Page}
    (represents : Represents perShard pool spec) (notRoot : pgId ≠ rootId)
    (isContent : spec.contents pgId = some page)
    (permitted : spec.Permitted perShard (.pin pgId)) (files : List FileMetaData) :
    ∃ across after, pool.fileAcrossPivots pgId files = some (across, after) ∧
      ((∀ other, after.pinCount other = pool.pinCount other) ↔
        leavesPinned page.keys files = false) := by
  obtain ⟨across, after, checked, related⟩ :=
    represents.fileAcrossPivots isContent permitted files
  refine ⟨across, after, checked, ?_⟩
  constructor
  · intro same
    have pins := (related.pinCount_eq notRoot).symm.trans
      ((same pgId).trans (represents.pinCount_eq notRoot))
    rw [Pool.setPins_pins] at pins
    by_contra leaves
    rw [Bool.not_eq_false] at leaves
    rw [if_pos leaves] at pins
    omega
  · intro undone other
    by_cases isRoot : other = rootId
    · rw [isRoot, related.pinCount_root, represents.pinCount_root]
    · rw [related.pinCount_eq isRoot, represents.pinCount_eq isRoot]
      simp [undone, Pool.setPins]

/-- A run is its check and what the flush does. -/
theorem compactAndFlushToChildren_eq (pool : ShardedBufferManager) (pgId : Nat)
    (files compacted : List FileMetaData) (flush : List FileMetaData → List Act) :
    ∃ flushed, pool.compactAndFlushToChildren pgId files compacted flush =
      runActs pool (.fileAcrossPivots pgId files :: flush flushed) := by
  rw [ShardedBufferManager.compactAndFlushToChildren]
  cases checked : pool.fileAcrossPivots pgId files with
  | none =>
      refine ⟨[], ?_⟩
      rw [runActs, List.foldlM_cons, act, checked]
      rfl
  | some answer =>
      refine ⟨if answer.1 then compacted else files, ?_⟩
      rw [runActs, List.foldlM_cons, act, checked]
      rfl

namespace Held

variable (held : Held pgId count pool)
include held

/-- The node's page after the check, whatever is done to other pages then. -/
theorem pinCount_run_iff {acts : List Act} {files : List FileMetaData}
    (elsewhere : ∀ does ∈ acts, does.Elsewhere pgId)
    (ran : TreeBuffer.runActs pool (.fileAcrossPivots pgId files :: acts) = some after) :
    after.pinCount pgId = pool.pinCount pgId ↔
      leavesPinned (pool.pageAt pgId).keys files = false := by
  obtain ⟨across, checked⟩ := held.fileAcrossPivots_self files
  rw [TreeBuffer.runActs, List.foldlM_cons, TreeBuffer.act, checked, Option.map_some] at ran
  change TreeBuffer.runActs _ acts = some after at ran
  rw [held.pinCount]
  by_cases leaves : leavesPinned (pool.pageAt pgId).keys files = true
  · rw [if_pos leaves] at ran
    rw [(held.addRef.runActs elsewhere ran).pinCount, UInt32.toNat_inj]
    simp [leaves]
  · rw [if_neg leaves] at ran
    rw [(held.toKept.runActs elsewhere ran).pinCount]
    simpa using leaves

theorem compactAndFlushToChildren_iff {files compacted : List FileMetaData}
    {flush : List FileMetaData → List Act}
    (elsewhere : ∀ flushed, ∀ does ∈ flush flushed, does.Elsewhere pgId)
    (ran : pool.compactAndFlushToChildren pgId files compacted flush = some after) :
    after.pinCount pgId = pool.pinCount pgId ↔
      leavesPinned (pool.pageAt pgId).keys files = false := by
  obtain ⟨flushed, isRun⟩ := compactAndFlushToChildren_eq pool pgId files compacted flush
  exact held.pinCount_run_iff (elsewhere flushed) (isRun.symm.trans ran)

theorem compactNodeBufferForFlush_iff (files compacted : List FileMetaData) :
    ∃ flushed after,
      pool.compactNodeBufferForFlush pgId files compacted = some (flushed, after) ∧
        (after.pinCount pgId = pool.pinCount pgId ↔
          leavesPinned (pool.pageAt pgId).keys files = false) := by
  rw [ShardedBufferManager.compactNodeBufferForFlush]
  by_cases isEmpty : files = []
  · refine ⟨compacted, pool, if_pos isEmpty, fun _ => ?_, fun _ => rfl⟩
    rw [isEmpty, leavesPinned]
    cases (pool.pageAt pgId).keys <;> rfl
  · obtain ⟨across, checked⟩ := held.fileAcrossPivots_self files
    refine ⟨_, _, by rw [if_neg isEmpty, checked, Option.map_some], ?_⟩
    refine @pinCount_run_iff _ _ _ _ held [] files
      (fun _ member => absurd member List.not_mem_nil) ?_
    rw [TreeBuffer.runActs, List.foldlM_cons, TreeBuffer.act, checked]
    rfl

end Held

/-! ## Any number of runs -/

/-- Every check of the run is made of the root, or of a page that is held and does not
leave another pin. -/
def ChecksUndone : ShardedBufferManager → List Act → Prop
  | _, [] => True
  | pool, does :: later =>
      (match does with
        | .call _ => True
        | .fileAcrossPivots pgId files => pgId = rootId ∨ ∃ count, Held pgId count pool ∧
            leavesPinned (pool.pageAt pgId).keys files = false) ∧
        ∀ after, act pool does = some after → ChecksUndone after later

/-- A check of the root does not touch the pool. -/
theorem fileAcrossPivots_root (pool : ShardedBufferManager) (files : List FileMetaData) :
    ∃ across, pool.fileAcrossPivots rootId files = some (across, pool) := by
  have pinned : pool.pin rootId = some (.root, pool) := if_pos rfl
  obtain ⟨across, checked⟩ := fileAcrossPivots_eq pinned files
  have unpinned : pool.unpin rootId = pool := if_pos rfl
  rw [unpinned, ite_self, ite_self] at checked
  exact ⟨across, checked⟩

/-- The run goes on exactly as it would without its checks. -/
theorem runActs_eq_runOps {acts : List Act} (undone : ChecksUndone pool acts) :
    runActs pool acts = runOps pool (callsOf acts) := by
  induction acts generalizing pool with
  | nil => rfl
  | cons does later ih =>
      obtain ⟨fits, laterUndone⟩ := undone
      rw [runActs, List.foldlM_cons]
      cases does with
      | call op =>
          rw [callsOf, List.filterMap_cons, runOps]
          simp only [List.foldlM_cons]
          cases stepped : step pool op with
          | none => rw [act, stepped]; rfl
          | some middle =>
              rw [act, stepped]
              exact ih (laterUndone middle stepped)
      | fileAcrossPivots checkedId files =>
          have unchanged : act pool (.fileAcrossPivots checkedId files) = some pool := by
            rcases fits with isRoot | ⟨count, held, undone⟩
            · obtain ⟨across, checked⟩ := fileAcrossPivots_root pool files
              rw [act, isRoot, checked, Option.map_some]
            · obtain ⟨across, checked⟩ := held.fileAcrossPivots_self files
              rw [act, checked, Option.map_some, undone]
              rfl
          rw [unchanged]
          exact ih (laterUndone pool unchanged)

/-- Pins are kept by the check and by a run of either function exactly if the files are
out of order or none, or the page is empty, or the first file does not start below the
first pivot.  In that case any number of runs, in any order with whatever else is done,
changes nothing that it would not without its checks. -/
theorem pins_kept_iff (pool : ShardedBufferManager) (pgId : Nat) (files : List FileMetaData) :
    (∀ perShard spec page, Represents perShard pool spec → pgId ≠ rootId →
      spec.contents pgId = some page → spec.Permitted perShard (.pin pgId) →
      ∃ across after, pool.fileAcrossPivots pgId files = some (across, after) ∧
        ((∀ other, after.pinCount other = pool.pinCount other) ↔
          leavesPinned page.keys files = false)) ∧
    (∀ count, Held pgId count pool →
      (∀ compacted flush after, (∀ flushed, ∀ does ∈ flush flushed, does.Elsewhere pgId) →
        pool.compactAndFlushToChildren pgId files compacted flush = some after →
        (after.pinCount pgId = pool.pinCount pgId ↔
          leavesPinned (pool.pageAt pgId).keys files = false)) ∧
      (∀ compacted, ∃ flushed after,
        pool.compactNodeBufferForFlush pgId files compacted = some (flushed, after) ∧
          (after.pinCount pgId = pool.pinCount pgId ↔
            leavesPinned (pool.pageAt pgId).keys files = false))) ∧
    (∀ acts, ChecksUndone pool acts → runActs pool acts = runOps pool (callsOf acts)) := by
  refine ⟨?_, ?_, fun acts undone => runActs_eq_runOps undone⟩
  · intro perShard spec page represents notRoot isContent permitted
    exact represents.pinCount_checked_iff notRoot isContent permitted files
  · intro count held
    exact ⟨fun compacted flush after elsewhere ran =>
        held.compactAndFlushToChildren_iff elsewhere ran,
      held.compactNodeBufferForFlush_iff files⟩

/-! ## A page that stays -/

/-- Page 1 with one pivot. -/
def onePivot : Page := ((pageInit 1 fun _ => 0).insertIndexEntry [2] 5).getD zeroPage

/-- Every shard has one frame, and page 1 is held in the one that page 17 needs too. -/
def oneHeldOps : List Op := List.replicate 17 .allocate ++ [.pin 1, .modify 1 onePivot]

def oneHeld : ShardedBufferManager :=
  (runOps (newBufferManager 16 fun _ => 0) oneHeldOps).getD (newBufferManager 16 fun _ => 0)

theorem oneHeld_represents : Represents (perShard 16) oneHeld
    ((Pool.start fun _ => 0).run oneHeldOps) := by
  obtain ⟨after, ran, related, -⟩ := @Represents.run _ _ _ (represents_new 16 fun _ => 0)
    oneHeldOps (by decide +kernel)
  rw [oneHeld, ran]
  exact related

/-- A file at `key` and nothing else. -/
def atKey (key : Byte) : List FileMetaData := [.spanning 1 [key] [key] le_rfl]

theorem pins_kept_iff_one_pivot :
    (∃ across after, oneHeld.fileAcrossPivots 1 (atKey 3) = some (across, after) ∧
      ∀ other, after.pinCount other = oneHeld.pinCount other) ∧
    (∃ after, oneHeld.compactAndFlushToChildren 1 (atKey 3) []
        (fun _ => [.call (.pin 2), .call (.unpinAndRelease 2)]) = some after ∧
      after.pinCount 1 = oneHeld.pinCount 1) ∧
    runActs oneHeld [.fileAcrossPivots 1 (atKey 3), .call (.unpin 1), .call (.pin 17)] =
      runOps oneHeld [.unpin 1, .pin 17] := by
  obtain ⟨checks, runs, undone⟩ := pins_kept_iff oneHeld 1 (atKey 3)
  have held := oneHeld_represents.held (show 1 ≠ rootId by decide) (by decide +kernel)
  have undoneHere : leavesPinned (oneHeld.pageAt 1).keys (atKey 3) = false := by
    decide +kernel
  refine ⟨?_, ?_, undone _ ⟨.inr ⟨_, held, undoneHere⟩, fun _ _ =>
    ⟨trivial, fun _ _ => ⟨trivial, fun _ _ => trivial⟩⟩⟩⟩
  · obtain ⟨across, after, checked, same⟩ := checks _ _ (clean onePivot) oneHeld_represents
      (by decide) rfl (by decide +kernel)
    exact ⟨across, after, checked, same.mpr (by decide +kernel)⟩
  · obtain ⟨after, ran⟩ := Option.isSome_iff_exists.mp (show
      (oneHeld.compactAndFlushToChildren 1 (atKey 3) []
        fun _ => [.call (.pin 2), .call (.unpinAndRelease 2)]).isSome by decide +kernel)
    refine ⟨after, ran, ((runs _ held).1 [] _ after ?_ ran).mpr undoneHere⟩
    simp [Act.Elsewhere, Op.Elsewhere]

/-- A file below the pivot: the page is pinned twice after the run, and once when it is
given back, so that the shard has no frame for another page. -/
theorem low_file_exhausts_shard :
    (runOps (newBufferManager 16 fun _ => 0) oneHeldOps).isSome ∧
    oneHeld.pinCount 1 = 1 ∧
    ((oneHeld.compactNodeBufferForFlush 1 (atKey 1) []).map fun run => run.2.pinCount 1) =
      some 2 ∧
    runActs oneHeld [.fileAcrossPivots 1 (atKey 1), .call (.unpin 1), .call (.pin 17)] = none ∧
    (runOps oneHeld [.unpin 1, .pin 17]).isSome := by
  refine ⟨by decide +kernel, by decide +kernel, by decide +kernel, ?_, by decide +kernel⟩
  exact Option.isNone_iff_eq_none.mp (by decide +kernel)

end AhaTree.TreeBuffer
