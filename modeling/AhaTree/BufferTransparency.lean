import AhaTree.BufferOperations

/-!
# The buffer pool is transparent

What the pool is for: it has the contents last given to every page.  Runs in which
pages are used as they should be keep this, whatever is evicted in between.
-/

namespace AhaTree.TreeBuffer

open Slotted (Page pageInit)

/-! ## What the pool is for -/

/-- The contents last given to the pages, and how often each page is pinned. -/
structure Pool where
  contents : Nat → Option Page
  pins : Nat → Nat
  newId : Nat

instance (number pgId : Nat) : Decidable (Mine number pgId) :=
  inferInstanceAs (Decidable (pgId ≠ rootId ∧ shardOf pgId = number))

namespace Pool

variable (pool : Pool)

def start (bytes : Lib.Memory Byte) : Pool where
  contents := Function.update (fun _ => none) rootId (some (clean (pageInit rootId bytes)))
  pins := fun _ => 0
  newId := 1

def give (pgId : Nat) (page : Page) : Pool :=
  { pool with contents := Function.update pool.contents pgId (some (clean page)) }

def setPins (pgId pins : Nat) : Pool :=
  { pool with pins := Function.update pool.pins pgId pins }

def next : Op → Pool
  | .allocate =>
      { pool.give pool.newId (pageInit pool.newId fun _ => 0) with newId := pool.newId + 1 }
  | .allocateRoot =>
      let root := pool.contents rootId
      { pool with
        contents := Function.update
          (Function.update pool.contents pool.newId
            (root.map fun page => clean { page with pageId := pool.newId }))
          rootId (root.map fun page => clean (pageInit rootId page.bytes))
        newId := pool.newId + 1 }
  | .pin pgId => pool.setPins pgId (pool.pins pgId + 1)
  | .modify pgId page => pool.give pgId page
  | .unpin pgId | .unpinAndRelease pgId => pool.setPins pgId (pool.pins pgId - 1)
  | .delete pgId => { pool with contents := Function.update pool.contents pgId none }

def run (pool : Pool) (ops : List Op) : Pool := ops.foldl next pool

theorem start_contents {bytes : Lib.Memory Byte} {pgId : Nat} {page : Page}
    (isContent : (start bytes).contents pgId = some page) :
    pgId = rootId ∧ clean page = page := by
  simp only [start] at isContent
  rcases update_eq_some isContent with ⟨isRoot, isPage⟩ | ⟨-, isNone⟩
  · cases isPage
    exact ⟨isRoot, rfl⟩
  · cases isNone

/-- How many pages of a shard are pinned. -/
def pinnedIn (number : Nat) : Nat :=
  ((List.range pool.newId).filter fun pgId => Mine number pgId ∧ 0 < pool.pins pgId).length

/-- A shard that has to find a frame must not be full of pinned pages.  Only pinned pages
are written to and unpinned, and a deleted page is not pinned; the root is always in
memory.  A page id is not given twice, and the references of a page fit 32 bits. -/
def Permitted (perShard : Nat) : Op → Prop
  | .allocate | .allocateRoot =>
      pool.newId < 2 ^ 32 ∧ pool.pinnedIn (shardOf pool.newId) < perShard
  | .pin pgId =>
      (pool.contents pgId).isSome ∧
        (pgId = rootId ∨ pool.pins pgId + 1 < 2 ^ 32 ∧
          (0 < pool.pins pgId ∨ pool.pinnedIn (shardOf pgId) < perShard))
  | .modify pgId _ | .unpin pgId | .unpinAndRelease pgId =>
      pgId = rootId ∨ 0 < pool.pins pgId
  | .delete pgId => pgId ≠ rootId ∧ (pool.contents pgId).isSome ∧ pool.pins pgId = 0

instance (perShard : Nat) (op : Op) : Decidable (pool.Permitted perShard op) := by
  cases op <;> unfold Permitted <;> infer_instance

def Legal (perShard : Nat) : Pool → List Op → Prop
  | _, [] => True
  | pool, op :: later => pool.Permitted perShard op ∧ Legal perShard (pool.next op) later

instance decidableLegal (perShard : Nat) :
    ∀ (ops : List Op) (pool : Pool), Decidable (pool.Legal perShard ops)
  | [], _ => .isTrue trivial
  | op :: later, pool =>
      have := decidableLegal perShard later (pool.next op)
      inferInstanceAs (Decidable (pool.Permitted perShard op ∧ Legal perShard _ later))

theorem legal_append {perShard : Nat} {pool : Pool} {earlier later : List Op} :
    pool.Legal perShard (earlier ++ later) ↔
      pool.Legal perShard earlier ∧ (pool.run earlier).Legal perShard later := by
  induction earlier generalizing pool with
  | nil => exact ⟨fun legal => ⟨trivial, legal⟩, fun legal => legal.2⟩
  | cons op earlier ih =>
      rw [List.cons_append, Legal, Legal, ih, and_assoc]
      rfl

/-- The page is pinned before every operation. -/
def PinnedThrough (pgId : Nat) : Pool → List Op → Prop
  | _, [] => True
  | pool, op :: later => 0 < pool.pins pgId ∧ PinnedThrough pgId (pool.next op) later

end Pool

/-! ## The manager and the pool -/

structure Represents (perShard : Nat) (pool : ShardedBufferManager) (spec : Pool) :
    Prop where
  shards : ∀ number < kNumShards,
    TreeBufferManager.Holds number perShard spec.contents spec.pins (pool.shards number)
  newId : pool.newId = spec.newId
  newIdPos : 0 < spec.newId
  given : ∀ pgId page, spec.contents pgId = some page →
    pgId < spec.newId ∧ clean page = page
  root : spec.contents rootId = some (clean pool.root)
  rootDirty : pool.root.isDirty = true

theorem shardOf_lt (pgId : Nat) : shardOf pgId < kNumShards :=
  Nat.mod_lt _ (Nat.succ_pos _)

variable {perShard pgId : Nat} {pool : ShardedBufferManager} {spec : Pool}

namespace Represents

variable (represents : Represents perShard pool spec)
include represents

theorem shard (pgId : Nat) :
    TreeBufferManager.Holds (shardOf pgId) perShard spec.contents spec.pins
      (pool.shards (shardOf pgId)) :=
  represents.shards _ (shardOf_lt pgId)

theorem contents_newId : spec.contents spec.newId = none :=
  Option.eq_none_iff_forall_ne_some.mpr fun page isContent =>
    (represents.given spec.newId page isContent).1.false

/-- The list of the pages in use has every pinned page once. -/
theorem length_inUse {number : Nat} (isShard : number < kNumShards) :
    (pool.shards number).inUse.length = spec.pinnedIn number := by
  have holds := represents.shards number isShard
  refine List.Perm.length_eq ((List.perm_ext_iff_of_nodup
    (List.nodup_append.mp holds.nodup_lists).2.1 (List.nodup_range.filter _)).mpr ?_)
  intro pgId
  rw [List.mem_filter, List.mem_range, decide_eq_true_iff]
  constructor
  · intro inUse
    have isThere := holds.listed.mem_iff.mp (List.mem_append_right _ inUse)
    have isMine := holds.mine pgId isThere
    exact ⟨(represents.given pgId _ (holds.content pgId isThere)).1, isMine,
      (holds.mem_inUse_iff isMine).mp inUse⟩
  · rintro ⟨-, isMine, pinned⟩
    exact (holds.mem_inUse_iff isMine).mpr pinned

theorem mem_table (notRoot : pgId ≠ rootId) (pinned : 0 < spec.pins pgId) :
    pgId ∈ (pool.shards (shardOf pgId)).table :=
  (represents.shard pgId).mem_table_of_pinned ⟨notRoot, rfl⟩ pinned

end Represents

/-! ## One operation -/

def PointersStay (spec : Pool) (pool after : ShardedBufferManager) : Prop :=
  ∀ pgId, 0 < spec.pins pgId → after.pointerTo pgId = pool.pointerTo pgId

theorem pointerTo_congr {after : ShardedBufferManager}
    (same : (after.shards (shardOf pgId)).frame pgId =
      (pool.shards (shardOf pgId)).frame pgId) :
    after.pointerTo pgId = pool.pointerTo pgId := by
  rw [ShardedBufferManager.pointerTo, ShardedBufferManager.pointerTo]
  exact congrArg (ite _ Pointer.root) (congrArg (Pointer.frame _) same)

theorem setShard_shard (pool : ShardedBufferManager) (pgId : Nat) (shard : TreeBufferManager) :
    (pool.setShard pgId shard).shards (shardOf pgId) = shard :=
  Function.update_self _ _ _

theorem setShard_shard_of_ne {number : Nat} (pool : ShardedBufferManager)
    (shard : TreeBufferManager) (isOther : number ≠ shardOf pgId) :
    (pool.setShard pgId shard).shards number = pool.shards number :=
  Function.update_of_ne isOther _ _

namespace Represents

variable (represents : Represents perShard pool spec)
include represents

theorem setShard {contents : Nat → Option Page} {pins : Nat → Nat}
    {shard : TreeBufferManager}
    (holds : TreeBufferManager.Holds (shardOf pgId) perShard contents pins shard)
    (contentsStay : ∀ other, other ≠ pgId → other ≠ rootId →
      contents other = spec.contents other)
    (pinsStay : ∀ other, other ≠ pgId → pins other = spec.pins other) :
    ∀ number < kNumShards, TreeBufferManager.Holds number perShard contents pins
      ((pool.setShard pgId shard).shards number) := by
  intro number isShard
  by_cases isIt : number = shardOf pgId
  · rw [isIt, setShard_shard]
    exact holds
  · rw [setShard_shard_of_ne pool shard isIt]
    refine (represents.shards number isShard).congr fun other isMine => ?_
    have isOther : other ≠ pgId := by
      rintro rfl
      exact isIt isMine.2.symm
    exact ⟨contentsStay other isOther isMine.1, pinsStay other isOther⟩

theorem pointersStay {shard : TreeBufferManager}
    (kept : (pool.shards (shardOf pgId)).Keeps shard) :
    PointersStay spec pool (pool.setShard pgId shard) := by
  intro other pinned
  by_cases isRoot : other = rootId
  · rw [ShardedBufferManager.pointerTo, if_pos isRoot, ShardedBufferManager.pointerTo,
      if_pos isRoot]
  · refine pointerTo_congr ?_
    by_cases sameShard : shardOf other = shardOf pgId
    · have isThere := represents.mem_table isRoot pinned
      rw [sameShard] at isThere ⊢
      rw [setShard_shard]
      exact kept other isThere
    · rw [setShard_shard_of_ne pool shard sameShard]

/-- The pins of the root are not counted. -/
theorem setPins_root (pins : Nat) : Represents perShard pool (spec.setPins rootId pins) :=
  { represents with
    shards := fun number isShard => (represents.shards number isShard).congr
      fun _ isMine => ⟨rfl, Function.update_of_ne isMine.1 _ _⟩ }

theorem setPins {shard : TreeBufferManager} {pins : Nat}
    (holds : TreeBufferManager.Holds (shardOf pgId) perShard spec.contents
      (Function.update spec.pins pgId pins) shard) :
    Represents perShard (pool.setShard pgId shard) (spec.setPins pgId pins) :=
  { represents with
    shards := represents.setShard holds (fun _ _ _ => rfl)
      fun _ isOther => Function.update_of_ne isOther _ _ }

theorem pin (permitted : spec.Permitted perShard (.pin pgId)) :
    ∃ after, pool.pin pgId = some (after.pointerTo pgId, after) ∧
      Represents perShard after (spec.next (.pin pgId)) ∧ PointersStay spec pool after := by
  obtain ⟨hasContent, hasRoom⟩ := permitted
  obtain ⟨page, isContent⟩ := Option.isSome_iff_exists.mp hasContent
  by_cases isRoot : pgId = rootId
  · refine ⟨pool, ?_, ?_, fun _ _ => rfl⟩
    · rw [ShardedBufferManager.pin, if_pos isRoot, ShardedBufferManager.pointerTo,
        if_pos isRoot]
    · rw [isRoot]
      exact represents.setPins_root _
  · have room : pgId ∈ (pool.shards (shardOf pgId)).table ∨
        (pool.shards (shardOf pgId)).inUse.length < perShard := by
      rw [represents.length_inUse (shardOf_lt pgId)]
      exact (hasRoom.resolve_left isRoot).2.imp_left (represents.mem_table isRoot)
    obtain ⟨shard, ran, holds, -, kept⟩ := (represents.shard pgId).pin ⟨isRoot, rfl⟩
      isContent (represents.given pgId page isContent).2 room (hasRoom.resolve_left isRoot).1
    refine ⟨pool.setShard pgId shard, ?_, represents.setPins holds,
      represents.pointersStay kept⟩
    rw [ShardedBufferManager.pin, if_neg isRoot, ran, Option.map_some,
      ShardedBufferManager.pointerTo, if_neg isRoot, setShard_shard]
    rfl

theorem unpin (permitted : spec.Permitted perShard (.unpin pgId)) :
    Represents perShard (pool.unpin pgId) (spec.next (.unpin pgId)) ∧
      PointersStay spec pool (pool.unpin pgId) := by
  by_cases isRoot : pgId = rootId
  · rw [ShardedBufferManager.unpin, if_pos isRoot, isRoot]
    exact ⟨represents.setPins_root _, fun _ _ => rfl⟩
  · have pinned := Or.resolve_left permitted isRoot
    rw [ShardedBufferManager.unpin, if_neg isRoot]
    exact ⟨represents.setPins
        ((represents.shard pgId).unpin (represents.mem_table isRoot pinned) pinned),
      represents.pointersStay (TreeBufferManager.unpin_keeps _ pgId)⟩

theorem unpinAndRelease (permitted : spec.Permitted perShard (.unpinAndRelease pgId)) :
    ∃ after, pool.unpinAndRelease pgId = some after ∧
      Represents perShard after (spec.next (.unpinAndRelease pgId)) ∧
      PointersStay spec pool after := by
  by_cases isRoot : pgId = rootId
  · rw [ShardedBufferManager.unpinAndRelease, if_pos isRoot, isRoot]
    exact ⟨pool, rfl, represents.setPins_root _, fun _ _ => rfl⟩
  · have pinned := Or.resolve_left permitted isRoot
    obtain ⟨shard, ran, holds, kept⟩ :=
      (represents.shard pgId).unpinAndRelease (represents.mem_table isRoot pinned) pinned
    rw [ShardedBufferManager.unpinAndRelease, if_neg isRoot, ran]
    exact ⟨_, rfl, represents.setPins holds, represents.pointersStay kept⟩

theorem delete (permitted : spec.Permitted perShard (.delete pgId)) :
    ∃ after, pool.delete pgId = some after ∧
      Represents perShard after (spec.next (.delete pgId)) ∧ PointersStay spec pool after := by
  obtain ⟨notRoot, hasContent, unpinned⟩ := permitted
  have holds := (represents.shard pgId).delete ⟨notRoot, rfl⟩ unpinned
  refine ⟨_, if_neg notRoot, ?_,
    represents.pointersStay (TreeBufferManager.delete_keeps _ pgId)⟩
  exact { represents with
    shards := represents.setShard holds
      (fun _ isOther _ => Function.update_of_ne isOther _ _) fun _ _ => rfl
    given := fun other page isContent => by
      rcases update_eq_some isContent with ⟨-, isNone⟩ | ⟨-, wasContent⟩
      · cases isNone
      · exact represents.given other page wasContent
    root := (Function.update_of_ne notRoot.symm _ _).trans represents.root }

theorem allocate (permitted : spec.Permitted perShard .allocate) :
    ∃ after, pool.allocate = some (spec.newId, after) ∧
      Represents perShard after (spec.next .allocate) ∧ PointersStay spec pool after := by
  obtain ⟨fits, notAllPinned⟩ := permitted
  have notRoot : spec.newId ≠ rootId := represents.newIdPos.ne'
  have pid : toPageId pool.newId = spec.newId := by
    rw [represents.newId]
    exact Nat.mod_eq_of_lt fits
  rw [← represents.length_inUse (shardOf_lt _)] at notAllPinned
  obtain ⟨shard, ran, holds, kept⟩ := (represents.shard spec.newId).allocate notAllPinned
    ⟨notRoot, rfl⟩ represents.contents_newId
  refine ⟨{ pool.setShard spec.newId shard with newId := pool.newId + 1 }, ?_, ?_,
    represents.pointersStay kept⟩
  · simp only [ShardedBufferManager.allocate, pid]
    rw [ran, Option.map_some]
  · exact {
      shards := represents.setShard holds
        (fun _ isOther _ => Function.update_of_ne isOther _ _) fun _ _ => rfl
      newId := congrArg (· + 1) represents.newId
      newIdPos := Nat.succ_pos _
      given := fun other page isContent => by
        rcases update_eq_some isContent with ⟨rfl, isNew⟩ | ⟨-, wasContent⟩
        · cases isNew
          exact ⟨Nat.lt_succ_self _, rfl⟩
        · obtain ⟨isOld, isClean⟩ := represents.given other page wasContent
          exact ⟨Nat.lt_succ_of_lt isOld, isClean⟩
      root := (Function.update_of_ne notRoot.symm _ _).trans represents.root
      rootDirty := represents.rootDirty }

theorem allocateRoot (permitted : spec.Permitted perShard .allocateRoot) :
    ∃ after, pool.allocateRoot = some (spec.newId, after) ∧
      Represents perShard after (spec.next .allocateRoot) ∧ PointersStay spec pool after := by
  obtain ⟨fits, notAllPinned⟩ := permitted
  have notRoot : spec.newId ≠ rootId := represents.newIdPos.ne'
  have pid : toPageId pool.newId = spec.newId := by
    rw [represents.newId]
    exact Nat.mod_eq_of_lt fits
  rw [← represents.length_inUse (shardOf_lt _)] at notAllPinned
  obtain ⟨shard, ran, holds, kept⟩ := (represents.shard spec.newId).allocateRoot notAllPinned
    ⟨notRoot, rfl⟩ represents.contents_newId represents.rootDirty
  have contents : (spec.next .allocateRoot).contents =
      Function.update (Function.update spec.contents spec.newId
        (some (clean { pool.root with pageId := spec.newId })))
        rootId (some (clean (pageInit rootId pool.root.bytes))) := by
    rw [Pool.next, represents.root]
    rfl
  have holdsAfter : TreeBufferManager.Holds (shardOf spec.newId) perShard
      (spec.next .allocateRoot).contents spec.pins shard := by
    refine holds.congr fun other isMine => ⟨?_, rfl⟩
    rw [contents]
    exact Function.update_of_ne isMine.1 _ _
  refine ⟨{ pool.setShard spec.newId shard with
      newId := pool.newId + 1
      root := pageInit rootId pool.root.bytes }, ?_, ?_, represents.pointersStay kept⟩
  · simp only [ShardedBufferManager.allocateRoot, pid]
    rw [ran, Option.map_some]
  · exact {
      shards := represents.setShard holdsAfter
        (fun _ isOther otherNotRoot => by
          rw [contents]
          exact (Function.update_of_ne otherNotRoot _ _).trans
            (Function.update_of_ne isOther _ _))
        fun _ _ => rfl
      newId := congrArg (· + 1) represents.newId
      newIdPos := Nat.succ_pos _
      given := fun other page isContent => by
        rw [contents] at isContent
        rcases update_eq_some isContent with ⟨rfl, isRoot⟩ | ⟨-, isContent⟩
        · cases isRoot
          exact ⟨Nat.succ_pos _, rfl⟩
        · rcases update_eq_some isContent with ⟨rfl, isNew⟩ | ⟨-, wasContent⟩
          · cases isNew
            exact ⟨Nat.lt_succ_self _, rfl⟩
          · obtain ⟨isOld, isClean⟩ := represents.given other page wasContent
            exact ⟨Nat.lt_succ_of_lt isOld, isClean⟩
      root := by
        rw [contents]
        exact Function.update_self _ _ _
      rootDirty := rfl }

theorem modify (page : Page) (permitted : spec.Permitted perShard (.modify pgId page)) :
    Represents perShard (pool.writePage page (pool.pointerTo pgId))
        (spec.next (.modify pgId page)) ∧
      PointersStay spec pool (pool.writePage page (pool.pointerTo pgId)) := by
  have given {other : Nat} {content : Page} (isOld : pgId < spec.newId)
      (isContent : (spec.give pgId page).contents other = some content) :
      other < spec.newId ∧ clean content = content := by
    rcases update_eq_some isContent with ⟨rfl, isNew⟩ | ⟨-, wasContent⟩
    · cases isNew
      exact ⟨isOld, rfl⟩
    · exact represents.given other content wasContent
  by_cases isRoot : pgId = rootId
  · rw [ShardedBufferManager.pointerTo, if_pos isRoot]
    refine ⟨?_, fun _ _ => rfl⟩
    rw [isRoot] at given ⊢
    exact {
      shards := fun number isShard => (represents.shards number isShard).congr
        fun _ isMine => ⟨Function.update_of_ne isMine.1 _ _, rfl⟩
      newId := represents.newId
      newIdPos := represents.newIdPos
      given := fun _ _ => given represents.newIdPos
      root := by
        change Function.update spec.contents rootId (some (clean page)) rootId =
          some (clean page)
        exact Function.update_self _ _ _
      rootDirty := rfl }
  · have isThere := represents.mem_table isRoot (Or.resolve_left permitted isRoot)
    have holds := (represents.shard pgId).setPage isThere { page with isDirty := true } rfl
    have isOld := (represents.given pgId _ ((represents.shard pgId).content pgId isThere)).1
    rw [ShardedBufferManager.pointerTo, if_neg isRoot]
    refine ⟨?_, represents.pointersStay fun _ _ => rfl⟩
    exact {
      shards := represents.setShard holds
        (fun _ isOther _ => Function.update_of_ne isOther _ _) fun _ _ => rfl
      newId := represents.newId
      newIdPos := represents.newIdPos
      given := fun _ _ => given isOld
      root := (Function.update_of_ne (Ne.symm isRoot) _ _).trans represents.root
      rootDirty := represents.rootDirty }

theorem step {op : Op} (permitted : spec.Permitted perShard op) :
    ∃ after, TreeBuffer.step pool op = some after ∧
      Represents perShard after (spec.next op) ∧ PointersStay spec pool after := by
  cases op with
  | allocate =>
      obtain ⟨after, ran, related⟩ := represents.allocate permitted
      refine ⟨after, ?_, related⟩
      rw [TreeBuffer.step, ran]
      rfl
  | allocateRoot =>
      obtain ⟨after, ran, related⟩ := represents.allocateRoot permitted
      refine ⟨after, ?_, related⟩
      rw [TreeBuffer.step, ran]
      rfl
  | pin pgId =>
      obtain ⟨after, ran, related⟩ := represents.pin permitted
      refine ⟨after, ?_, related⟩
      rw [TreeBuffer.step, ran]
      rfl
  | modify pgId page => exact ⟨_, rfl, represents.modify page permitted⟩
  | unpin pgId => exact ⟨_, rfl, represents.unpin permitted⟩
  | unpinAndRelease pgId => exact represents.unpinAndRelease permitted
  | delete pgId => exact represents.delete permitted

/-! ## Runs -/

theorem run {ops : List Op} (legal : spec.Legal perShard ops) :
    ∃ after, runOps pool ops = some after ∧ Represents perShard after (spec.run ops) ∧
      ∀ pgId, spec.PinnedThrough pgId ops → after.pointerTo pgId = pool.pointerTo pgId := by
  induction ops generalizing pool spec with
  | nil => exact ⟨pool, rfl, represents, fun _ _ => rfl⟩
  | cons op later ih =>
      obtain ⟨permitted, laterLegal⟩ := legal
      obtain ⟨middle, stepped, related, stay⟩ := represents.step permitted
      obtain ⟨after, ran, afterRelated, laterStay⟩ := ih related laterLegal
      refine ⟨after, ?_, afterRelated, fun pgId ⟨pinned, laterPinned⟩ => ?_⟩
      · rw [runOps, List.foldlM_cons, stepped]
        exact ran
      · exact (laterStay pgId laterPinned).trans (stay pgId pinned)

theorem readPage {page : Page} (isContent : spec.contents pgId = some page)
    (inMemory : pgId = rootId ∨ 0 < spec.pins pgId) :
    clean (pool.readPage (pool.pointerTo pgId)) = page := by
  refine Option.some_injective _ (Eq.trans ?_ isContent)
  by_cases isRoot : pgId = rootId
  · rw [ShardedBufferManager.pointerTo, if_pos isRoot, isRoot]
    exact represents.root.symm
  · rw [ShardedBufferManager.pointerTo, if_neg isRoot]
    exact ((represents.shard pgId).content pgId
      (represents.mem_table isRoot (inMemory.resolve_left isRoot))).symm

end Represents

theorem represents_new (capacity : Nat) (bytes : Lib.Memory Byte) :
    Represents (TreeBuffer.perShard capacity) (newBufferManager capacity bytes)
      (Pool.start bytes) where
  shards number _ := {
    size := rfl
    nodup := List.nodup_nil
    mine := fun _ isThere => absurd isThere List.not_mem_nil
    listed := List.Perm.refl _
    lruUnused := fun _ inLru => absurd inLru List.not_mem_nil
    inUseUsed := fun _ inUse => absurd inUse List.not_mem_nil
    counted := fun _ isThere => absurd isThere List.not_mem_nil
    pinnedThere := fun _ _ _ => rfl
    frames := List.Perm.refl _
    room := Nat.zero_le _
    content := fun _ isThere => absurd isThere List.not_mem_nil
    synced := fun _ isThere => absurd isThere List.not_mem_nil
    evicted := fun pgId page isMine _ isContent =>
      absurd (Pool.start_contents isContent).1 isMine.1
    inFile := fun pgId page isMine isContent =>
      absurd (Pool.start_contents isContent).1 isMine.1 }
  newId := rfl
  newIdPos := Nat.succ_pos _
  given pgId page isContent := by
    obtain ⟨rfl, isClean⟩ := Pool.start_contents isContent
    exact ⟨Nat.succ_pos _, isClean⟩
  root := by
    change Function.update (fun _ => none) rootId (some (clean (pageInit rootId bytes))) rootId =
      some (clean (pageInit rootId bytes))
    exact Function.update_self _ _ _
  rootDirty := rfl

/-! ## Transparency -/

/-- What a client of the pool may rely on. -/
structure Transparent (perShard : Nat) (pool : ShardedBufferManager) (spec : Pool) :
    Prop where
  /-- `Pin` returns a frame with what the page was given last. -/
  pin : ∀ pgId page, spec.contents pgId = some page →
    spec.Permitted perShard (.pin pgId) →
      ∃ pointer after, pool.pin pgId = some (pointer, after) ∧
        clean (after.readPage pointer) = page
  /-- A pinned page is in its frame. -/
  pinned : ∀ pgId page, spec.contents pgId = some page → pgId ≠ rootId →
    0 < spec.pins pgId → pgId ∈ (pool.shards (shardOf pgId)).table ∧
      clean (pool.readPage (pool.pointerTo pgId)) = page
  /-- Every handle is in one of the lists, once. -/
  lists : ∀ number < kNumShards, (pool.shards number).table.Nodup ∧
    ((pool.shards number).lru ++ (pool.shards number).inUse).Perm
      (pool.shards number).table
  lru : ∀ number < kNumShards, ∀ pgId ∈ (pool.shards number).table,
    (pgId ∈ (pool.shards number).lru ↔ ((pool.shards number).handle pgId).refs = 0)
  inUse : ∀ number < kNumShards, ∀ pgId ∈ (pool.shards number).table,
    (pgId ∈ (pool.shards number).inUse ↔ 0 < ((pool.shards number).handle pgId).refs)
  frames : ∀ number < kNumShards,
    ((pool.shards number).table.map (pool.shards number).frame ++
      (pool.shards number).recentEvicted).Perm (List.range (pool.shards number).pageCount) ∧
    (pool.shards number).pageCount ≤ perShard
  offsets : ∀ number first second, Mine number first → Mine number second →
    offset first = offset second → first = second
  inFile : ∀ number < kNumShards, ∀ pgId page, Mine number pgId →
    spec.contents pgId = some page → offset pgId < (pool.shards number).file.pageNum

theorem Represents.transparent (represents : Represents perShard pool spec) :
    Transparent perShard pool spec where
  pin pgId page isContent permitted := by
    obtain ⟨after, ran, related, -⟩ := represents.pin permitted
    refine ⟨_, after, ran, related.readPage isContent (.inr ?_)⟩
    change 0 < Function.update spec.pins pgId (spec.pins pgId + 1) pgId
    rw [Function.update_self]
    exact Nat.succ_pos _
  pinned pgId page isContent notRoot pinned :=
    ⟨represents.mem_table notRoot pinned, represents.readPage isContent (.inr pinned)⟩
  lists number isShard :=
    ⟨(represents.shards number isShard).nodup, (represents.shards number isShard).listed⟩
  lru number isShard pgId isThere := by
    have holds := represents.shards number isShard
    rw [holds.refs_eq_zero_iff isThere]
    exact holds.mem_lru_iff isThere
  inUse number isShard pgId isThere := by
    have holds := represents.shards number isShard
    rw [UInt32.pos_iff_ne_zero, ne_eq, holds.refs_eq_zero_iff isThere, ← ne_eq,
      ← Nat.pos_iff_ne_zero]
    exact holds.mem_inUse_iff (holds.mine pgId isThere)
  frames number isShard :=
    ⟨(represents.shards number isShard).frames, (represents.shards number isShard).room⟩
  offsets _ _ _ firstMine secondMine same := firstMine.eq_of_offset secondMine same
  inFile number isShard := (represents.shards number isShard).inFile

/-- Runs that use the pages as they should do not fail, and a page that stays pinned
stays in its frame. -/
theorem pool_transparent (capacity : Nat) (bytes : Lib.Memory Byte)
    (earlier later : List Op)
    (legal : (Pool.start bytes).Legal (TreeBuffer.perShard capacity) (earlier ++ later)) :
    ∃ pool after, runOps (newBufferManager capacity bytes) earlier = some pool ∧
      runOps pool later = some after ∧
      Transparent (TreeBuffer.perShard capacity) after
        ((Pool.start bytes).run (earlier ++ later)) ∧
      ∀ pgId, ((Pool.start bytes).run earlier).PinnedThrough pgId later →
        after.pointerTo pgId = pool.pointerTo pgId := by
  obtain ⟨earlierLegal, laterLegal⟩ := Pool.legal_append.mp legal
  obtain ⟨pool, earlierRan, related, -⟩ :=
    (represents_new capacity bytes).run earlierLegal
  obtain ⟨after, laterRan, afterRelated, stay⟩ := related.run laterLegal
  refine ⟨pool, after, earlierRan, laterRan, ?_, stay⟩
  rw [Pool.run, List.foldl_append]
  exact afterRelated.transparent

/-- Every shard has one frame.  Page 17 takes it from page 1, which has been written to,
and page 1 comes back and stays. -/
theorem pool_transparent_one_frame :
    ∃ pool after, runOps (newBufferManager 16 fun _ => 0)
        (List.replicate 17 .allocate ++ [.pin 1, .modify 1 zeroPage, .unpin 1, .pin 17,
          .unpin 17, .pin 1]) = some pool ∧
      runOps pool [.allocateRoot, .unpinAndRelease 1] = some after ∧
      after.pointerTo 1 = pool.pointerTo 1 := by
  obtain ⟨pool, after, ran, laterRan, -, stay⟩ := pool_transparent 16 (fun _ => 0)
    (List.replicate 17 .allocate ++ [.pin 1, .modify 1 zeroPage, .unpin 1, .pin 17,
      .unpin 17, .pin 1]) [.allocateRoot, .unpinAndRelease 1] (by decide +kernel)
  have pinned : ((Pool.start fun _ => 0).run (List.replicate 17 .allocate ++
      [.pin 1, .modify 1 zeroPage, .unpin 1, .pin 17, .unpin 17, .pin 1])).PinnedThrough 1
        [.allocateRoot, .unpinAndRelease 1] :=
    ⟨by decide +kernel, by decide +kernel, trivial⟩
  exact ⟨pool, after, ran, laterRan, stay 1 pinned⟩

end AhaTree.TreeBuffer
