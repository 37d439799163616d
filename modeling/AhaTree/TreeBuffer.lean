import AhaTree.SlottedPage

/-!
# The buffer pool

`TreeFile`, `TreeBufferManager` and `ShardedBufferManager`.  Every operation of a
shard runs under its mutex, so it is one step here.  A handle is known by its page
id, `none` is what ends the program, and a file reads what has been written to it
last.
-/

namespace AhaTree.TreeBuffer

open Slotted (Page pageInit)

/-! ## The file of a shard -/

structure TreeFile where
  pageNum : Nat
  stored : Nat → Option Page

namespace TreeFile

/-- A page that is not dirty is not written; the second result is the page in memory. -/
def writePage (file : TreeFile) (pgId : Nat) (page : Page) : TreeFile × Page :=
  if ¬ page.isDirty then (file, page)
  else
    let written := { page with isDirty := false }
    ({ file with stored := Function.update file.stored pgId (some written) }, written)

def getPage (file : TreeFile) (pgId : Nat) : Option Page :=
  if file.pageNum ≤ pgId then none else file.stored pgId

/-- `GetNewPageid` is called until the location is a page of the file. -/
def extend (file : TreeFile) (pageLoc : Nat) : TreeFile :=
  if file.pageNum ≤ pageLoc then { file with pageNum := pageLoc + 1 } else file

end TreeFile

/-! ## A shard -/

def kNumShards : Nat := 16

structure PageHandle where
  pageArrayId : Nat
  refs : UInt32

structure TreeBufferManager where
  maxNum : Nat
  /-- The keys of `table_`. -/
  table : List Nat
  handle : Nat → PageHandle
  /-- Oldest first. -/
  lru : List Nat
  inUse : List Nat
  pages : Nat → Page
  pageCount : Nat
  recentEvicted : List Nat
  file : TreeFile

/-- `(pg_id - 1) / shard_num_`. -/
def offset (pgId : Nat) : Nat := (pgId - 1) / kNumShards

def zeroPage : Page where
  pageId := 0
  itemNum := 0
  left := 0
  right := 0
  freeStart := 0
  freeEnd := 0
  isLeaf := false
  isDirty := false
  bytes := fun _ => 0

namespace TreeBufferManager

variable (shard : TreeBufferManager)

def pageOf (pgId : Nat) : Page := shard.pages (shard.handle pgId).pageArrayId

def setRefs (pgId : Nat) (refs : UInt32) : TreeBufferManager :=
  { shard with
    handle := Function.update shard.handle pgId { shard.handle pgId with refs := refs } }

def lruRemove (pgId : Nat) : TreeBufferManager :=
  { shard with lru := shard.lru.erase pgId, inUse := shard.inUse.erase pgId }

/-- The page is written if it is dirty, and its frame becomes free. -/
def erase (pgId : Nat) : Option TreeBufferManager :=
  if pgId ∉ shard.table then none
  else
    let e := shard.handle pgId
    let written := shard.file.writePage (offset pgId) (shard.pages e.pageArrayId)
    some { shard.lruRemove pgId with
      file := written.1
      pages := Function.update shard.pages e.pageArrayId written.2
      recentEvicted := shard.recentEvicted ++ [e.pageArrayId]
      table := shard.table.erase pgId }

/-- The loop of `MayOverflow`, which takes a page from `lru_` each time. -/
def evict : Nat → Nat → TreeBufferManager → Option (Nat × TreeBufferManager)
  | 0, usage, shard => some (usage, shard)
  | fuel + 1, usage, shard =>
      if shard.maxNum ≤ usage then
        match shard.lru with
        | [] => some (usage, shard)
        | old :: later =>
            if old ∈ shard.table then (shard.erase old).bind (evict fuel (usage - 1))
            else evict fuel usage { shard with lru := later }
      else some (usage, shard)

/-- Whether the pool is full of pinned pages, and the shard after evictions. -/
def mayOverflow : Option (Bool × TreeBufferManager) :=
  (evict shard.lru.length shard.table.length shard).map fun evicted =>
    (decide (evicted.2.maxNum ≤ evicted.1), evicted.2)

/-- A free frame, or a new one, with zeros in it. -/
def getBuffer : Nat × TreeBufferManager :=
  match shard.recentEvicted with
  | [] =>
      (shard.pageCount, { shard with
        pages := Function.update shard.pages shard.pageCount zeroPage
        pageCount := shard.pageCount + 1 })
  | newId :: later =>
      (newId, { shard with
        pages := Function.update shard.pages newId zeroPage
        recentEvicted := later })

def setPage (pageArrayId : Nat) (page : Page) : TreeBufferManager :=
  { shard with pages := Function.update shard.pages pageArrayId page }

/-- A handle without references, at the new end of `lru_`. -/
def addHandle (pgId pageArrayId : Nat) : TreeBufferManager :=
  { shard with
    handle := Function.update shard.handle pgId { pageArrayId := pageArrayId, refs := 0 }
    table := shard.table.insert pgId
    lru := shard.lru ++ [pgId] }

/-- A page that the table has would lose its frame. -/
def insertTable (pgId pageArrayId : Nat) : Option TreeBufferManager :=
  if pgId ∈ shard.table then none else some (shard.addHandle pgId pageArrayId)

def allocate (pgId : Nat) : Option TreeBufferManager :=
  shard.mayOverflow.bind fun (overflow, shard) =>
    if overflow then none
    else
      let (newId, shard) :=
        getBuffer { shard with file := shard.file.extend (offset pgId) }
      (shard.setPage newId (pageInit pgId (shard.pages newId).bytes)).insertTable pgId newId

def allocateRoot (newId : Nat) (oldRoot : Page) : Option TreeBufferManager :=
  shard.mayOverflow.bind fun (overflow, shard) =>
    if overflow then none
    else
      let (frame, shard) :=
        getBuffer { shard with file := shard.file.extend (offset newId) }
      some ((shard.setPage frame { oldRoot with pageId := newId }).addHandle newId frame)

def retrieveHandle (pgId : Nat) : Option TreeBufferManager :=
  if pgId ∈ shard.table then some shard
  else
    shard.mayOverflow.bind fun (overflow, shard) =>
      if overflow then none
      else
        let (newId, shard) := shard.getBuffer
        (shard.file.getPage (offset pgId)).bind fun page =>
          (shard.setPage newId page).insertTable pgId newId

def ref (pgId : Nat) : TreeBufferManager :=
  let e := shard.handle pgId
  let moved :=
    if e.refs = 0 then
      { shard.lruRemove pgId with inUse := (shard.lruRemove pgId).inUse ++ [pgId] }
    else shard
  moved.setRefs pgId (e.refs + 1)

/-- The frame of the page. -/
def pin (pgId : Nat) : Option (Nat × TreeBufferManager) :=
  (shard.retrieveHandle pgId).map fun shard =>
    ((shard.handle pgId).pageArrayId, shard.ref pgId)

/-- `Release` and `Unref`. -/
def unpin (pgId : Nat) : TreeBufferManager :=
  if pgId ∉ shard.table then shard
  else
    let refs := (shard.handle pgId).refs - 1
    let released := shard.setRefs pgId refs
    if refs = 0 then
      { released.lruRemove pgId with lru := (released.lruRemove pgId).lru ++ [pgId] }
    else released

def unpinAndRelease (pgId : Nat) : Option TreeBufferManager :=
  if pgId ∉ shard.table then some shard
  else
    let refs := (shard.handle pgId).refs - 1
    let released := shard.setRefs pgId refs
    if refs = 0 then released.erase pgId else some released

def delete (pgId : Nat) : TreeBufferManager :=
  if pgId ∉ shard.table then shard
  else
    { shard.lruRemove pgId with
      recentEvicted := shard.recentEvicted ++ [(shard.handle pgId).pageArrayId]
      table := shard.table.erase pgId }

end TreeBufferManager

/-! ## The pool -/

def rootId : Nat := 0

def shardOf (pgId : Nat) : Nat := pgId % kNumShards

/-- Page ids have 32 bits. -/
def toPageId (pid : Nat) : Nat := pid % 2 ^ 32

/-- What `Pin` returns. -/
inductive Pointer where
  | root
  | frame (shard pageArrayId : Nat)
  deriving DecidableEq

structure ShardedBufferManager where
  shards : Nat → TreeBufferManager
  newId : Nat
  root : Page

/-- `per_shard`, which `SetMaxNum` takes as 32 bits. -/
def perShard (capacity : Nat) : Nat := (capacity + (kNumShards - 1)) / kNumShards % 2 ^ 32

/-- `NewBufferManager`; the buffer of the root is not cleared. -/
def newBufferManager (capacity : Nat) (bytes : Lib.Memory Byte) : ShardedBufferManager where
  shards _ :=
    { maxNum := perShard capacity
      table := []
      handle := fun _ => { pageArrayId := 0, refs := 0 }
      lru := []
      inUse := []
      pages := fun _ => zeroPage
      pageCount := 0
      recentEvicted := []
      file := { pageNum := 0, stored := fun _ => none } }
  newId := 1
  root := pageInit rootId bytes

namespace ShardedBufferManager

variable (pool : ShardedBufferManager)

def setShard (pgId : Nat) (shard : TreeBufferManager) : ShardedBufferManager :=
  { pool with shards := Function.update pool.shards (shardOf pgId) shard }

/-- The new page id. -/
def allocate : Option (Nat × ShardedBufferManager) :=
  let pid := toPageId pool.newId
  ((pool.shards (shardOf pid)).allocate pid).map fun shard =>
    (pid, { pool.setShard pid shard with newId := pool.newId + 1 })

def allocateRoot : Option (Nat × ShardedBufferManager) :=
  let pid := toPageId pool.newId
  ((pool.shards (shardOf pid)).allocateRoot pid pool.root).map fun shard =>
    (pid, { pool.setShard pid shard with
      newId := pool.newId + 1
      root := pageInit rootId pool.root.bytes })

def pin (pgId : Nat) : Option (Pointer × ShardedBufferManager) :=
  if pgId = rootId then some (.root, pool)
  else
    ((pool.shards (shardOf pgId)).pin pgId).map fun (pageArrayId, shard) =>
      (.frame (shardOf pgId) pageArrayId, pool.setShard pgId shard)

def unpin (pgId : Nat) : ShardedBufferManager :=
  if pgId = rootId then pool
  else pool.setShard pgId ((pool.shards (shardOf pgId)).unpin pgId)

def unpinAndRelease (pgId : Nat) : Option ShardedBufferManager :=
  if pgId = rootId then some pool
  else ((pool.shards (shardOf pgId)).unpinAndRelease pgId).map (pool.setShard pgId)

def delete (pgId : Nat) : Option ShardedBufferManager :=
  if pgId = rootId then none
  else some (pool.setShard pgId ((pool.shards (shardOf pgId)).delete pgId))

/-- Where a page is while it is pinned. -/
def pointerTo (pgId : Nat) : Pointer :=
  if pgId = rootId then .root
  else .frame (shardOf pgId) ((pool.shards (shardOf pgId)).handle pgId).pageArrayId

def readPage : Pointer → Page
  | .root => pool.root
  | .frame shard pageArrayId => (pool.shards shard).pages pageArrayId

/-- A client of the pool writes to the page and sets `is_dirty_`. -/
def writePage (page : Page) : Pointer → ShardedBufferManager
  | .root => { pool with root := { page with isDirty := true } }
  | .frame shard pageArrayId =>
      { pool with
        shards := Function.update pool.shards shard
          ((pool.shards shard).setPage pageArrayId { page with isDirty := true }) }

end ShardedBufferManager

/-! ## Runs -/

inductive Op where
  | allocate
  | allocateRoot
  | pin (pgId : Nat)
  | modify (pgId : Nat) (page : Page)
  | unpin (pgId : Nat)
  | unpinAndRelease (pgId : Nat)
  | delete (pgId : Nat)

def step (pool : ShardedBufferManager) : Op → Option ShardedBufferManager
  | .allocate => pool.allocate.map Prod.snd
  | .allocateRoot => pool.allocateRoot.map Prod.snd
  | .pin pgId => (pool.pin pgId).map Prod.snd
  | .modify pgId page => some (pool.writePage page (pool.pointerTo pgId))
  | .unpin pgId => some (pool.unpin pgId)
  | .unpinAndRelease pgId => pool.unpinAndRelease pgId
  | .delete pgId => pool.delete pgId

def runOps (pool : ShardedBufferManager) (ops : List Op) : Option ShardedBufferManager :=
  ops.foldlM step pool

end AhaTree.TreeBuffer
