import AhaTree.TreeBuffer

/-!
# A shard of the buffer pool

What holds of a shard between its operations: the table, the two lists, the frames
and the file, against the contents last given to its pages and against how often
each of them is pinned.
-/

namespace AhaTree.TreeBuffer

open Slotted (Page pageInit)

/-! ## Pages and offsets -/

/-- What a page says; writing it to the file only clears `is_dirty_`. -/
def clean (page : Page) : Page := { page with isDirty := false }

theorem update_eq_some {contents : Nat → Option Page} {content : Option Page}
    {pgId other : Nat} {page : Page}
    (isContent : Function.update contents pgId content other = some page) :
    other = pgId ∧ content = some page ∨ other ≠ pgId ∧ contents other = some page := by
  by_cases isIt : other = pgId
  · rw [isIt, Function.update_self] at isContent
    exact .inl ⟨isIt, isContent⟩
  · rw [Function.update_of_ne isIt] at isContent
    exact .inr ⟨isIt, isContent⟩

/-- The root is in no shard. -/
def Mine (number pgId : Nat) : Prop := pgId ≠ rootId ∧ shardOf pgId = number

theorem Mine.eq_of_offset {number first second : Nat} (firstMine : Mine number first)
    (secondMine : Mine number second) (same : offset first = offset second) :
    first = second := by
  obtain ⟨firstNotRoot, firstShard⟩ := firstMine
  obtain ⟨secondNotRoot, secondShard⟩ := secondMine
  simp only [offset, shardOf, kNumShards, rootId] at *
  omega

theorem TreeFile.writePage_stored {file : TreeFile} {pgId : Nat} {page : Page}
    (synced : page.isDirty = false → file.stored pgId = some (clean page)) :
    (file.writePage pgId page).1.stored =
      Function.update file.stored pgId (some (clean page)) := by
  by_cases dirty : page.isDirty = true
  · rw [TreeFile.writePage, if_neg (not_not.mpr dirty)]
    rfl
  · rw [TreeFile.writePage, if_pos dirty]
    exact (Function.update_eq_self_iff.mpr (synced (Bool.eq_false_iff.mpr dirty)).symm).symm

theorem TreeFile.writePage_pageNum (file : TreeFile) (pgId : Nat) (page : Page) :
    (file.writePage pgId page).1.pageNum = file.pageNum := by
  rw [TreeFile.writePage]
  split <;> rfl

/-! ## The invariant -/

namespace TreeBufferManager

def frame (shard : TreeBufferManager) (pgId : Nat) : Nat := (shard.handle pgId).pageArrayId

structure Holds (number perShard : Nat) (contents : Nat → Option Page) (pins : Nat → Nat)
    (shard : TreeBufferManager) : Prop where
  size : shard.maxNum = perShard
  nodup : shard.table.Nodup
  mine : ∀ pgId ∈ shard.table, Mine number pgId
  listed : (shard.lru ++ shard.inUse).Perm shard.table
  lruUnused : ∀ pgId ∈ shard.lru, (shard.handle pgId).refs = 0
  inUseUsed : ∀ pgId ∈ shard.inUse, (shard.handle pgId).refs ≠ 0
  counted : ∀ pgId ∈ shard.table, (shard.handle pgId).refs.toNat = pins pgId
  pinnedThere : ∀ pgId, Mine number pgId → pgId ∉ shard.table → pins pgId = 0
  frames : (shard.table.map shard.frame ++ shard.recentEvicted).Perm
    (List.range shard.pageCount)
  room : shard.pageCount ≤ perShard
  content : ∀ pgId ∈ shard.table, contents pgId = some (clean (shard.pageOf pgId))
  /-- A page that is not dirty is in the file as it is in its frame. -/
  synced : ∀ pgId ∈ shard.table, (shard.pageOf pgId).isDirty = false →
    shard.file.stored (offset pgId) = some (clean (shard.pageOf pgId))
  evicted : ∀ pgId page, Mine number pgId → pgId ∉ shard.table →
    contents pgId = some page → shard.file.stored (offset pgId) = some page
  inFile : ∀ pgId page, Mine number pgId → contents pgId = some page →
    offset pgId < shard.file.pageNum

/-- What an operation may do to the handles. -/
def Keeps (shard after : TreeBufferManager) : Prop :=
  ∀ pgId ∈ shard.table, after.frame pgId = shard.frame pgId

variable {number perShard pgId : Nat} {contents : Nat → Option Page} {pins : Nat → Nat}
  {shard : TreeBufferManager}

namespace Holds

variable (holds : Holds number perShard contents pins shard)
include holds

theorem nodup_frames : (shard.table.map shard.frame ++ shard.recentEvicted).Nodup :=
  holds.frames.nodup_iff.mpr List.nodup_range

theorem nodup_lists : (shard.lru ++ shard.inUse).Nodup :=
  holds.listed.nodup_iff.mpr holds.nodup

theorem eq_of_frame {other : Nat} (isThere : pgId ∈ shard.table)
    (otherThere : other ∈ shard.table) (same : shard.frame other = shard.frame pgId) :
    other = pgId :=
  List.inj_on_of_nodup_map (List.nodup_append.mp holds.nodup_frames).1 otherThere isThere same

theorem refs_eq_zero_iff (isThere : pgId ∈ shard.table) :
    (shard.handle pgId).refs = 0 ↔ pins pgId = 0 := by
  rw [← holds.counted pgId isThere, ← UInt32.toNat_inj]
  rfl

theorem mem_lru_iff (isThere : pgId ∈ shard.table) : pgId ∈ shard.lru ↔ pins pgId = 0 := by
  rw [← holds.refs_eq_zero_iff isThere]
  refine ⟨holds.lruUnused pgId, fun unused => ?_⟩
  rcases List.mem_append.mp (holds.listed.mem_iff.mpr isThere) with inLru | inUse
  · exact inLru
  · exact absurd unused (holds.inUseUsed pgId inUse)

theorem mem_inUse_iff (isMine : Mine number pgId) : pgId ∈ shard.inUse ↔ 0 < pins pgId := by
  constructor
  · intro inUse
    have isThere := holds.listed.mem_iff.mp (List.mem_append_right _ inUse)
    rw [Nat.pos_iff_ne_zero, ne_eq, ← holds.refs_eq_zero_iff isThere]
    exact holds.inUseUsed pgId inUse
  · intro pinned
    have isThere : pgId ∈ shard.table := by
      by_contra absent
      exact pinned.ne' (holds.pinnedThere pgId isMine absent)
    rcases List.mem_append.mp (holds.listed.mem_iff.mpr isThere) with inLru | inUse
    · exact absurd ((holds.mem_lru_iff isThere).mp inLru) pinned.ne'
    · exact inUse

theorem mem_table_of_pinned (isMine : Mine number pgId) (pinned : 0 < pins pgId) :
    pgId ∈ shard.table :=
  holds.listed.mem_iff.mp (List.mem_append_right _ ((holds.mem_inUse_iff isMine).mpr pinned))

/-- Only what is said of the pages of the shard matters. -/
theorem congr {otherContents : Nat → Option Page} {otherPins : Nat → Nat}
    (same : ∀ pgId, Mine number pgId →
      otherContents pgId = contents pgId ∧ otherPins pgId = pins pgId) :
    Holds number perShard otherContents otherPins shard :=
  { holds with
    counted := fun pgId isThere =>
      (holds.counted pgId isThere).trans (same pgId (holds.mine pgId isThere)).2.symm
    pinnedThere := fun pgId isMine absent =>
      (same pgId isMine).2.trans (holds.pinnedThere pgId isMine absent)
    content := fun pgId isThere =>
      (same pgId (holds.mine pgId isThere)).1.trans (holds.content pgId isThere)
    evicted := fun pgId page isMine absent isContent =>
      holds.evicted pgId page isMine absent ((same pgId isMine).1.symm.trans isContent)
    inFile := fun pgId page isMine isContent =>
      holds.inFile pgId page isMine ((same pgId isMine).1.symm.trans isContent) }

end Holds

/-! ## Taking a page out of its list -/

theorem erase_lists {first second : List Nat} (nodup : (first ++ second).Nodup) (pgId : Nat) :
    (first ++ second).erase pgId = first.erase pgId ++ second.erase pgId := by
  rw [List.Nodup.erase_eq_filter nodup, List.filter_append,
    (List.nodup_append.mp nodup).1.erase_eq_filter,
    (List.nodup_append.mp nodup).2.1.erase_eq_filter]

namespace Holds

variable (holds : Holds number perShard contents pins shard)
include holds

theorem listed_remove (pgId : Nat) :
    ((shard.lruRemove pgId).lru ++ (shard.lruRemove pgId).inUse).Perm
      (shard.table.erase pgId) := by
  have removed := holds.listed.erase pgId
  rwa [erase_lists holds.nodup_lists] at removed

theorem frames_remove (isThere : pgId ∈ shard.table) :
    ((shard.table.erase pgId).map shard.frame ++
      (shard.recentEvicted ++ [shard.frame pgId])).Perm (List.range shard.pageCount) := by
  refine List.Perm.trans ?_ holds.frames
  have split : (shard.table.map shard.frame).Perm
      (shard.frame pgId :: (shard.table.erase pgId).map shard.frame) :=
    (List.perm_cons_erase isThere).map shard.frame
  refine List.Perm.trans ?_ (split.symm.append_right _)
  rw [← List.append_assoc]
  exact List.perm_append_singleton _ _

end Holds

/-! ## Eviction -/

/-- The shard when the page has been written and its frame is free. -/
def erased (shard : TreeBufferManager) (pgId : Nat) : TreeBufferManager :=
  let written := shard.file.writePage (offset pgId) (shard.pageOf pgId)
  { shard.lruRemove pgId with
    file := written.1
    pages := Function.update shard.pages (shard.frame pgId) written.2
    recentEvicted := shard.recentEvicted ++ [shard.frame pgId]
    table := shard.table.erase pgId }

theorem erase_eq (isThere : pgId ∈ shard.table) :
    shard.erase pgId = some (shard.erased pgId) :=
  if_neg (not_not.mpr isThere)

theorem Holds.erased (holds : Holds number perShard contents pins shard)
    (isThere : pgId ∈ shard.table) :
    Holds number perShard contents (Function.update pins pgId 0) (shard.erased pgId) := by
  have stays {other : Nat} (otherThere : other ∈ shard.table.erase pgId) :
      other ≠ pgId ∧ other ∈ shard.table := holds.nodup.mem_erase_iff.mp otherThere
  have pageStays {other : Nat} (otherThere : other ∈ shard.table.erase pgId) :
      (shard.erased pgId).pageOf other = shard.pageOf other :=
    Function.update_of_ne (fun same => (stays otherThere).1
      (holds.eq_of_frame isThere (stays otherThere).2 same)) _ _
  have stored : (shard.erased pgId).file.stored =
      Function.update shard.file.stored (offset pgId) (some (clean (shard.pageOf pgId))) :=
    TreeFile.writePage_stored (holds.synced pgId isThere)
  have storedOther {other : Nat} (isMine : Mine number other) (isOther : other ≠ pgId) :
      (shard.erased pgId).file.stored (offset other) = shard.file.stored (offset other) := by
    rw [stored]
    exact Function.update_of_ne
      (fun same => isOther (isMine.eq_of_offset (holds.mine pgId isThere) same)) _ _
  exact {
    size := holds.size
    nodup := holds.nodup.erase pgId
    mine := fun other otherThere => holds.mine other (stays otherThere).2
    listed := holds.listed_remove pgId
    lruUnused := fun other inLru => holds.lruUnused other (List.mem_of_mem_erase inLru)
    inUseUsed := fun other inUse => holds.inUseUsed other (List.mem_of_mem_erase inUse)
    counted := fun other otherThere => by
      rw [Function.update_of_ne (stays otherThere).1]
      exact holds.counted other (stays otherThere).2
    pinnedThere := fun other isMine absent => by
      by_cases isIt : other = pgId
      · rw [isIt, Function.update_self]
      · rw [Function.update_of_ne isIt]
        exact holds.pinnedThere other isMine
          fun otherThere => absent (holds.nodup.mem_erase_iff.mpr ⟨isIt, otherThere⟩)
    frames := holds.frames_remove isThere
    room := holds.room
    content := fun other otherThere => by
      rw [pageStays otherThere]
      exact holds.content other (stays otherThere).2
    synced := fun other otherThere => by
      rw [pageStays otherThere,
        storedOther (holds.mine other (stays otherThere).2) (stays otherThere).1]
      exact holds.synced other (stays otherThere).2
    evicted := fun other page isMine absent isContent => by
      by_cases isIt : other = pgId
      · rw [stored, isIt, Function.update_self, ← holds.content pgId isThere, ← isIt]
        exact isContent
      · rw [storedOther isMine isIt]
        exact holds.evicted other page isMine
          (fun otherThere => absent (holds.nodup.mem_erase_iff.mpr ⟨isIt, otherThere⟩)) isContent
    inFile := fun other page isMine isContent =>
      lt_of_lt_of_eq (holds.inFile other page isMine isContent)
        (TreeFile.writePage_pageNum _ _ _).symm }

/-- What evictions leave as it was. -/
structure Evicted (shard after : TreeBufferManager) : Prop where
  handle : after.handle = shard.handle
  inUse : after.inUse = shard.inUse
  table : after.table ⊆ shard.table

theorem Holds.evict {fuel : Nat} (holds : Holds number perShard contents pins shard)
    (enough : shard.lru.length ≤ fuel) :
    ∃ after, TreeBufferManager.evict fuel shard.table.length shard =
        some (after.table.length, after) ∧
      Holds number perShard contents pins after ∧ shard.Evicted after ∧
      (perShard ≤ after.table.length → after.lru = []) := by
  have unchanged : shard.Evicted shard := ⟨rfl, rfl, List.Subset.refl _⟩
  induction fuel generalizing shard with
  | zero =>
      exact ⟨shard, rfl, holds, unchanged,
        fun _ => List.eq_nil_of_length_eq_zero (Nat.le_zero.mp enough)⟩
  | succ fuel ih =>
      rw [TreeBufferManager.evict, holds.size]
      by_cases isFull : perShard ≤ shard.table.length
      · rw [if_pos isFull]
        cases isLru : shard.lru with
        | nil => exact ⟨shard, rfl, holds, unchanged, fun _ => isLru⟩
        | cons old later =>
            have inLru : old ∈ shard.lru := isLru ▸ List.mem_cons_self
            have isThere : old ∈ shard.table :=
              holds.listed.mem_iff.mp (List.mem_append_left _ inLru)
            have unpinned : pins old = 0 := (holds.mem_lru_iff isThere).mp inLru
            have notUsed : old ∉ shard.inUse := fun inUse =>
              ((holds.mem_inUse_iff (holds.mine old isThere)).mp inUse).ne' unpinned
            have lruAfter : (shard.erased old).lru = later := by
              change shard.lru.erase old = later
              rw [isLru, List.erase_cons_head]
            have erasedHolds := holds.erased isThere
            rw [Function.update_eq_self_iff.mpr unpinned.symm] at erasedHolds
            have fits : (shard.erased old).lru.length ≤ fuel := by
              rw [lruAfter]
              rw [isLru] at enough
              exact Nat.le_of_succ_le_succ enough
            obtain ⟨after, ran, afterHolds, kept, isEmpty⟩ :=
              ih erasedHolds fits ⟨rfl, rfl, List.Subset.refl _⟩
            refine ⟨after, ?_, afterHolds, ?_, isEmpty⟩
            · simp only [if_pos isThere]
              rw [erase_eq isThere, Option.bind_some, ← List.length_erase_of_mem isThere]
              exact ran
            · exact ⟨kept.handle, kept.inUse.trans (List.erase_of_not_mem notUsed),
                List.Subset.trans kept.table List.erase_subset⟩
      · rw [if_neg isFull]
        exact ⟨shard, rfl, holds, unchanged, fun full => absurd full isFull⟩

/-- A frame can be had when not every frame holds a pinned page. -/
theorem Holds.mayOverflow (holds : Holds number perShard contents pins shard)
    (notAllPinned : shard.inUse.length < perShard) :
    ∃ after, shard.mayOverflow = some (false, after) ∧
      Holds number perShard contents pins after ∧ shard.Evicted after ∧
      after.table.length < perShard := by
  obtain ⟨after, ran, afterHolds, kept, isEmpty⟩ := holds.evict (Nat.le_refl _)
  have notFull : after.table.length < perShard := by
    by_contra full
    have allInUse : after.table.length = shard.inUse.length := by
      rw [← afterHolds.listed.length_eq, isEmpty (Nat.le_of_not_lt full), List.nil_append,
        kept.inUse]
    omega
  refine ⟨after, ?_, afterHolds, kept, notFull⟩
  rw [TreeBufferManager.mayOverflow, ran, Option.map_some, afterHolds.size,
    decide_eq_false (Nat.not_le.mpr notFull)]

/-! ## Placing a page in a frame -/

theorem Holds.extend (holds : Holds number perShard contents pins shard) (pageLoc : Nat) :
    Holds number perShard contents pins { shard with file := shard.file.extend pageLoc } := by
  have stored : (shard.file.extend pageLoc).stored = shard.file.stored := by
    rw [TreeFile.extend]
    split <;> rfl
  have pageNum : shard.file.pageNum ≤ (shard.file.extend pageLoc).pageNum := by
    rw [TreeFile.extend]
    split
    · exact Nat.le_succ_of_le ‹_›
    · exact Nat.le_refl _
  exact { holds with
    synced := fun pgId isThere notDirty =>
      (congrFun stored _).trans (holds.synced pgId isThere notDirty)
    evicted := fun pgId page isMine absent isContent =>
      (congrFun stored _).trans (holds.evicted pgId page isMine absent isContent)
    inFile := fun pgId page isMine isContent =>
      lt_of_lt_of_le (holds.inFile pgId page isMine isContent) pageNum }

theorem TreeFile.lt_extend_pageNum (file : TreeFile) (pageLoc : Nat) :
    pageLoc < (file.extend pageLoc).pageNum := by
  rw [TreeFile.extend]
  split
  · exact Nat.lt_succ_self _
  · exact Nat.lt_of_not_le ‹_›

/-- A frame that no handle has and that is not free. -/
structure Took (perShard : Nat) (shard : TreeBufferManager) (newId : Nat)
    (after : TreeBufferManager) : Prop where
  rest : ∃ pages pageCount recentEvicted, after = { shard with
    pages := pages, pageCount := pageCount, recentEvicted := recentEvicted }
  frames : (newId :: (shard.table.map shard.frame ++ after.recentEvicted)).Perm
    (List.range after.pageCount)
  room : after.pageCount ≤ perShard
  pages : ∀ other, other ≠ newId → after.pages other = shard.pages other
  zeros : after.pages newId = zeroPage

theorem Holds.getBuffer (holds : Holds number perShard contents pins shard)
    (notFull : shard.table.length < perShard) :
    Took perShard shard shard.getBuffer.1 shard.getBuffer.2 := by
  rw [TreeBufferManager.getBuffer]
  cases isFree : shard.recentEvicted with
  | nil =>
      have allUsed := holds.frames
      rw [isFree, List.append_nil] at allUsed
      have isCount : shard.table.length = shard.pageCount := by
        simpa only [List.length_map, List.length_range] using allUsed.length_eq
      dsimp only
      exact {
        rest := ⟨_, _, _, rfl⟩
        frames := by
          rw [List.append_nil, List.range_succ]
          exact (allUsed.cons _).trans (List.perm_append_singleton _ _).symm
        room := isCount ▸ notFull
        pages := fun other isOther => Function.update_of_ne isOther _ _
        zeros := Function.update_self _ _ _ }
  | cons newId later =>
      have allUsed := holds.frames
      rw [isFree] at allUsed
      dsimp only
      exact {
        rest := ⟨_, _, _, rfl⟩
        frames := List.perm_middle.symm.trans allUsed
        room := holds.room
        pages := fun other isOther => Function.update_of_ne isOther _ _
        zeros := Function.update_self _ _ _ }

/-- A new handle may be added for a page that the table does not have. -/
theorem Holds.place {newId : Nat} {after : TreeBufferManager} {page : Page}
    (holds : Holds number perShard contents pins shard)
    (took : Took perShard shard newId after) (isMine : Mine number pgId)
    (absent : pgId ∉ shard.table) (inFile : offset pgId < shard.file.pageNum)
    (synced : page.isDirty = false →
      shard.file.stored (offset pgId) = some (clean page)) :
    Holds number perShard (Function.update contents pgId (some (clean page))) pins
      ((after.setPage newId page).addHandle pgId newId) := by
  obtain ⟨⟨pages, pageCount, recentEvicted, rfl⟩, frames, room, pagesStay, -⟩ := took
  have isOther {other : Nat} (otherThere : other ∈ shard.table) : other ≠ pgId :=
    fun isIt => absent (isIt ▸ otherThere)
  have notTaken : newId ∉ shard.table.map shard.frame := fun taken =>
    (List.nodup_cons.mp (frames.nodup_iff.mpr List.nodup_range)).1
      (List.mem_append_left _ taken)
  have frameStays {other : Nat} (otherThere : other ∈ shard.table) :
      Function.update shard.handle pgId { pageArrayId := newId, refs := 0 } other =
        shard.handle other :=
    Function.update_of_ne (isOther otherThere) _ _
  have tableAfter : shard.table.insert pgId = pgId :: shard.table :=
    List.insert_of_not_mem absent
  generalize isAfter : TreeBufferManager.addHandle _ pgId newId = placed
  have handleAt : placed.handle pgId = { pageArrayId := newId, refs := 0 } := by
    rw [← isAfter]
    exact Function.update_self _ _ _
  have handleStays {other : Nat} (otherThere : other ∈ shard.table) :
      placed.handle other = shard.handle other := by
    rw [← isAfter]
    exact frameStays otherThere
  have pageAt : placed.pageOf pgId = page := by
    rw [pageOf, handleAt, ← isAfter]
    exact Function.update_self _ _ _
  have pageStays {other : Nat} (otherThere : other ∈ shard.table) :
      placed.pageOf other = shard.pageOf other := by
    have isOtherFrame : (shard.handle other).pageArrayId ≠ newId :=
      fun same => notTaken (List.mem_map.mpr ⟨other, otherThere, same⟩)
    rw [pageOf, handleStays otherThere, ← isAfter]
    exact (Function.update_of_ne isOtherFrame _ _).trans (pagesStay _ isOtherFrame)
  have table : placed.table = pgId :: shard.table := by
    rw [← isAfter]
    exact tableAfter
  have lists : placed.lru = shard.lru ++ [pgId] ∧ placed.inUse = shard.inUse ∧
      placed.file = shard.file ∧ placed.maxNum = shard.maxNum ∧
      placed.recentEvicted = recentEvicted ∧ placed.pageCount = pageCount := by
    rw [← isAfter]
    exact ⟨rfl, rfl, rfl, rfl, rfl, rfl⟩
  clear isAfter
  obtain ⟨lru, inUse, file, maxNum, recent, count⟩ := lists
  have isThere {other : Nat} : other ∈ placed.table ↔ other = pgId ∨ other ∈ shard.table := by
    rw [table, List.mem_cons]
  exact {
    size := maxNum.trans holds.size
    nodup := by
      rw [table]
      exact List.nodup_cons.mpr ⟨absent, holds.nodup⟩
    mine := fun other otherThere => by
      rcases isThere.mp otherThere with rfl | wasThere
      · exact isMine
      · exact holds.mine other wasThere
    listed := by
      rw [lru, inUse, table, List.append_assoc]
      exact List.perm_middle.trans (holds.listed.cons pgId)
    lruUnused := fun other inLru => by
      rw [lru] at inLru
      rcases List.mem_append.mp inLru with wasInLru | isIt
      · rw [handleStays (holds.listed.mem_iff.mp (List.mem_append_left _ wasInLru))]
        exact holds.lruUnused other wasInLru
      · rw [List.mem_singleton.mp isIt, handleAt]
    inUseUsed := fun other isInUse => by
      rw [inUse] at isInUse
      rw [handleStays (holds.listed.mem_iff.mp (List.mem_append_right _ isInUse))]
      exact holds.inUseUsed other isInUse
    counted := fun other otherThere => by
      rcases isThere.mp otherThere with rfl | wasThere
      · rw [handleAt]
        exact (holds.pinnedThere other isMine absent).symm
      · rw [handleStays wasThere]
        exact holds.counted other wasThere
    pinnedThere := fun other otherMine otherAbsent =>
      holds.pinnedThere other otherMine
        fun wasThere => otherAbsent (isThere.mpr (.inr wasThere))
    frames := by
      have same : shard.table.map placed.frame = shard.table.map shard.frame :=
        List.map_congr_left fun other otherThere =>
          congrArg PageHandle.pageArrayId (handleStays otherThere)
      have frameAt : placed.frame pgId = newId := congrArg PageHandle.pageArrayId handleAt
      rw [table, List.map_cons, same, frameAt, recent, count]
      exact frames
    room := by
      rw [count]
      exact room
    content := fun other otherThere => by
      rcases isThere.mp otherThere with rfl | wasThere
      · rw [Function.update_self, pageAt]
      · rw [Function.update_of_ne (isOther wasThere), pageStays wasThere]
        exact holds.content other wasThere
    synced := fun other otherThere notDirty => by
      rw [file]
      rcases isThere.mp otherThere with rfl | wasThere
      · rw [pageAt] at notDirty ⊢
        exact synced notDirty
      · rw [pageStays wasThere] at notDirty ⊢
        exact holds.synced other wasThere notDirty
    evicted := fun other content otherMine otherAbsent isContent => by
      have notIt : other ≠ pgId := fun isIt => otherAbsent (isThere.mpr (.inl isIt))
      rw [Function.update_of_ne notIt] at isContent
      rw [file]
      exact holds.evicted other content otherMine
        (fun wasThere => otherAbsent (isThere.mpr (.inr wasThere))) isContent
    inFile := fun other content otherMine isContent => by
      rw [file]
      by_cases isIt : other = pgId
      · rw [isIt]
        exact inFile
      · rw [Function.update_of_ne isIt] at isContent
        exact holds.inFile other content otherMine isContent }

end TreeBufferManager

end AhaTree.TreeBuffer
