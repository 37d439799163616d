import AhaTree.BufferShard

/-!
# The operations of a shard

Each operation keeps the invariant, with the contents and the pins that it should
leave, and the frames of the pages that are in the table.
-/

namespace AhaTree.TreeBuffer.TreeBufferManager

open Slotted (Page pageInit)

variable {number perShard pgId : Nat} {contents : Nat → Option Page} {pins : Nat → Nat}
  {shard : TreeBufferManager}

/-! ## References -/

theorem toNat_add_one {refs : UInt32} (small : refs.toNat + 1 < 2 ^ 32) :
    (refs + 1).toNat = refs.toNat + 1 := by
  rw [UInt32.toNat_add]
  exact Nat.mod_eq_of_lt small

theorem toNat_sub_one {refs : UInt32} (used : 0 < refs.toNat) :
    (refs - 1).toNat = refs.toNat - 1 :=
  UInt32.toNat_sub_of_le _ _ (UInt32.le_iff_toNat_le.mpr used)

theorem setRefs_handle (shard : TreeBufferManager) (pgId : Nat) (refs : UInt32) :
    (shard.setRefs pgId refs).handle pgId = { shard.handle pgId with refs := refs } :=
  Function.update_self _ _ _

theorem setRefs_handle_of_ne {other : Nat} (shard : TreeBufferManager) (refs : UInt32)
    (isOther : other ≠ pgId) :
    (shard.setRefs pgId refs).handle other = shard.handle other :=
  Function.update_of_ne isOther _ _

theorem setRefs_frame (shard : TreeBufferManager) (pgId : Nat) (refs : UInt32) (other : Nat) :
    (shard.setRefs pgId refs).frame other = shard.frame other := by
  by_cases isIt : other = pgId
  · rw [isIt, frame, setRefs_handle]
    rfl
  · rw [frame, setRefs_handle_of_ne shard refs isIt]
    rfl

theorem setRefs_pageOf (shard : TreeBufferManager) (pgId : Nat) (refs : UInt32) (other : Nat) :
    (shard.setRefs pgId refs).pageOf other = shard.pageOf other :=
  congrArg shard.pages (setRefs_frame shard pgId refs other)

theorem setRefs_map_frame (shard : TreeBufferManager) (pgId : Nat) (refs : UInt32)
    (table : List Nat) :
    table.map (shard.setRefs pgId refs).frame = table.map shard.frame :=
  List.map_congr_left fun other _ => setRefs_frame shard pgId refs other

/-- The references of a page may change when its list fits them. -/
theorem Holds.recount {refs : UInt32} {lru inUse : List Nat}
    (holds : Holds number perShard contents pins shard) (isThere : pgId ∈ shard.table)
    (listed : (lru ++ inUse).Perm shard.table)
    (lruStays : ∀ other ∈ lru, other ≠ pgId → other ∈ shard.lru)
    (inUseStays : ∀ other ∈ inUse, other ≠ pgId → other ∈ shard.inUse)
    (unused : pgId ∈ lru → refs = 0) (used : pgId ∈ inUse → refs ≠ 0) :
    Holds number perShard contents (Function.update pins pgId refs.toNat)
      { shard.setRefs pgId refs with lru := lru, inUse := inUse } where
  size := holds.size
  nodup := holds.nodup
  mine := holds.mine
  listed := listed
  lruUnused other inLru := by
    by_cases isIt : other = pgId
    · rw [isIt] at inLru ⊢
      exact (congrArg PageHandle.refs (setRefs_handle shard pgId refs)).trans (unused inLru)
    · exact (congrArg PageHandle.refs (setRefs_handle_of_ne shard refs isIt)).trans
        (holds.lruUnused other (lruStays other inLru isIt))
  inUseUsed other isInUse := by
    by_cases isIt : other = pgId
    · rw [isIt] at isInUse ⊢
      exact ne_of_eq_of_ne (congrArg PageHandle.refs (setRefs_handle shard pgId refs))
        (used isInUse)
    · exact ne_of_eq_of_ne (congrArg PageHandle.refs (setRefs_handle_of_ne shard refs isIt))
        (holds.inUseUsed other (inUseStays other isInUse isIt))
  counted other otherThere := by
    by_cases isIt : other = pgId
    · rw [isIt, Function.update_self]
      exact congrArg (UInt32.toNat ∘ PageHandle.refs) (setRefs_handle shard pgId refs)
    · rw [Function.update_of_ne isIt]
      exact (congrArg (UInt32.toNat ∘ PageHandle.refs)
        (setRefs_handle_of_ne shard refs isIt)).trans (holds.counted other otherThere)
  pinnedThere other isMine absent := by
    have isOther : other ≠ pgId := by
      rintro rfl
      exact absent isThere
    rw [Function.update_of_ne isOther]
    exact holds.pinnedThere other isMine absent
  frames := (congrArg (· ++ shard.recentEvicted)
    (setRefs_map_frame shard pgId refs shard.table)) ▸ holds.frames
  room := holds.room
  content other otherThere := (holds.content other otherThere).trans
    (congrArg (some ∘ clean) (setRefs_pageOf shard pgId refs other).symm)
  synced other otherThere notDirty := by
    have pageOf := setRefs_pageOf shard pgId refs other
    exact (holds.synced other otherThere ((congrArg Page.isDirty pageOf).symm.trans notDirty)).trans
      (congrArg (some ∘ clean) pageOf.symm)
  evicted := holds.evicted
  inFile := holds.inFile

theorem Holds.setRefs_of_absent (holds : Holds number perShard contents pins shard)
    (absent : pgId ∉ shard.table) (refs : UInt32) :
    Holds number perShard contents pins (shard.setRefs pgId refs) := by
  have isOther {other : Nat} (otherThere : other ∈ shard.table) : other ≠ pgId :=
    fun isIt => absent (isIt ▸ otherThere)
  have refsStay {other : Nat} (otherThere : other ∈ shard.table) :
      ((shard.setRefs pgId refs).handle other).refs = (shard.handle other).refs :=
    congrArg PageHandle.refs (setRefs_handle_of_ne shard refs (isOther otherThere))
  exact { holds with
    lruUnused := fun other inLru =>
      (refsStay (holds.listed.mem_iff.mp (List.mem_append_left _ inLru))).trans
        (holds.lruUnused other inLru)
    inUseUsed := fun other inUse =>
      ne_of_eq_of_ne (refsStay (holds.listed.mem_iff.mp (List.mem_append_right _ inUse)))
        (holds.inUseUsed other inUse)
    counted := fun other otherThere =>
      (congrArg UInt32.toNat (refsStay otherThere)).trans (holds.counted other otherThere)
    frames := (congrArg (· ++ shard.recentEvicted)
      (setRefs_map_frame shard pgId refs shard.table)) ▸ holds.frames
    content := fun other otherThere => (holds.content other otherThere).trans
      (congrArg (some ∘ clean) (setRefs_pageOf shard pgId refs other).symm)
    synced := fun other otherThere notDirty => by
      rw [setRefs_pageOf] at notDirty ⊢
      exact holds.synced other otherThere notDirty }

/-- The references of a page that stays in its list. -/
theorem Holds.setRefs {refs : UInt32} (holds : Holds number perShard contents pins shard)
    (isThere : pgId ∈ shard.table) (wasPinned : 0 < pins pgId) (isPinned : refs ≠ 0) :
    Holds number perShard contents (Function.update pins pgId refs.toNat)
      (shard.setRefs pgId refs) :=
  holds.recount isThere holds.listed (fun _ inLru _ => inLru) (fun _ inUse _ => inUse)
    (fun inLru => absurd ((holds.mem_lru_iff isThere).mp inLru) wasPinned.ne')
    fun _ => isPinned

theorem Holds.ref (holds : Holds number perShard contents pins shard)
    (isThere : pgId ∈ shard.table) (small : pins pgId + 1 < 2 ^ 32) :
    Holds number perShard contents (Function.update pins pgId (pins pgId + 1))
      (shard.ref pgId) := by
  have counted := holds.counted pgId isThere
  have isNext : ((shard.handle pgId).refs + 1).toNat = pins pgId + 1 := by
    rw [toNat_add_one (counted.symm ▸ small), counted]
  have used : (shard.handle pgId).refs + 1 ≠ 0 := by
    intro none
    rw [none] at isNext
    cases isNext
  rw [TreeBufferManager.ref, ← isNext]
  by_cases unpinned : (shard.handle pgId).refs = 0
  · simp only [if_pos unpinned]
    have nodup := holds.nodup_lists
    refine holds.recount isThere ?_ (fun _ inLru _ => List.mem_of_mem_erase inLru) ?_
      (fun inLru => absurd inLru (List.Nodup.not_mem_erase (List.nodup_append.mp nodup).1))
      fun _ => used
    · have removed := (holds.listed_remove pgId).append_right [pgId]
      rw [List.append_assoc] at removed
      exact removed.trans ((List.perm_append_singleton _ _).trans
        (List.perm_cons_erase isThere).symm)
    · intro other isInUse isOther
      rcases List.mem_append.mp isInUse with wasInUse | isIt
      · exact List.mem_of_mem_erase wasInUse
      · exact absurd (List.mem_singleton.mp isIt) isOther
  · rw [if_neg unpinned]
    have pinned := mt (holds.refs_eq_zero_iff isThere).mpr unpinned
    exact holds.setRefs isThere (Nat.pos_of_ne_zero pinned) used

theorem ref_frame (shard : TreeBufferManager) (pgId other : Nat) :
    (shard.ref pgId).frame other = shard.frame other := by
  rw [ref]
  split
  · exact setRefs_frame _ _ _ _
  · exact setRefs_frame _ _ _ _

/-- What is left of the references of a page that is unpinned. -/
theorem Holds.released (holds : Holds number perShard contents pins shard)
    (isThere : pgId ∈ shard.table) (pinned : 0 < pins pgId) :
    ((shard.handle pgId).refs - 1).toNat = pins pgId - 1 := by
  have counted := holds.counted pgId isThere
  rw [toNat_sub_one (counted.symm ▸ pinned), counted]

theorem Holds.unpin (holds : Holds number perShard contents pins shard)
    (isThere : pgId ∈ shard.table) (pinned : 0 < pins pgId) :
    Holds number perShard contents (Function.update pins pgId (pins pgId - 1))
      (shard.unpin pgId) := by
  rw [← holds.released isThere pinned, TreeBufferManager.unpin, if_neg (not_not.mpr isThere)]
  by_cases isLast : (shard.handle pgId).refs - 1 = 0
  · simp only [if_pos isLast]
    have nodup := holds.nodup_lists
    refine holds.recount isThere ?_ ?_ (fun _ inUse _ => List.mem_of_mem_erase inUse)
      (fun _ => isLast) fun inUse =>
        absurd inUse (List.Nodup.not_mem_erase (List.nodup_append.mp nodup).2.1)
    · rw [List.append_assoc]
      exact List.perm_middle.trans (((holds.listed_remove pgId).cons pgId).trans
        (List.perm_cons_erase isThere).symm)
    · intro other inLru isOther
      rcases List.mem_append.mp inLru with wasInLru | isIt
      · exact List.mem_of_mem_erase wasInLru
      · exact absurd (List.mem_singleton.mp isIt) isOther
  · simp only [if_neg isLast]
    exact holds.setRefs isThere pinned isLast

theorem unpin_keeps (shard : TreeBufferManager) (pgId : Nat) :
    shard.Keeps (shard.unpin pgId) := by
  intro other _
  rw [unpin]
  split
  · rfl
  · simp only []
    split
    · exact setRefs_frame _ _ _ _
    · exact setRefs_frame _ _ _ _

theorem Holds.unpinAndRelease (holds : Holds number perShard contents pins shard)
    (isThere : pgId ∈ shard.table) (pinned : 0 < pins pgId) :
    ∃ after, shard.unpinAndRelease pgId = some after ∧
      Holds number perShard contents (Function.update pins pgId (pins pgId - 1)) after ∧
      shard.Keeps after := by
  rw [← holds.released isThere pinned, TreeBufferManager.unpinAndRelease,
    if_neg (not_not.mpr isThere)]
  by_cases isLast : (shard.handle pgId).refs - 1 = 0
  · have same : (shard.setRefs pgId 0).erased pgId = (shard.erased pgId).setRefs pgId 0 := by
      simp only [TreeBufferManager.erased, setRefs_pageOf, setRefs_frame]
      rfl
    refine ⟨(shard.setRefs pgId 0).erased pgId, ?_, ?_, ?_⟩
    · simp only [isLast, if_true]
      exact erase_eq isThere
    · rw [same, isLast]
      exact (holds.erased isThere).setRefs_of_absent
        (List.Nodup.not_mem_erase holds.nodup) 0
    · intro other _
      exact setRefs_frame shard pgId 0 other
  · refine ⟨shard.setRefs pgId ((shard.handle pgId).refs - 1), ?_, ?_, ?_⟩
    · simp only [if_neg isLast]
    · exact holds.setRefs isThere pinned isLast
    · intro other _
      exact setRefs_frame shard pgId _ other

/-! ## Bringing a page in -/

theorem Took.table_eq {after : TreeBufferManager} {newId : Nat}
    (took : Took perShard shard newId after) : after.table = shard.table := by
  obtain ⟨_, _, _, rfl⟩ := took.rest
  rfl

theorem Took.file_eq {after : TreeBufferManager} {newId : Nat}
    (took : Took perShard shard newId after) : after.file = shard.file := by
  obtain ⟨_, _, _, rfl⟩ := took.rest
  rfl

theorem Took.keeps {evicted after : TreeBufferManager} {newId : Nat}
    (took : Took perShard evicted newId after) (handle : evicted.handle = shard.handle)
    (absent : pgId ∉ shard.table) (page : Page) :
    shard.Keeps ((after.setPage newId page).addHandle pgId newId) := by
  obtain ⟨⟨pages, pageCount, recentEvicted, rfl⟩, -, -, -, -⟩ := took
  intro other otherThere
  have isOther : other ≠ pgId := by
    rintro rfl
    exact absent otherThere
  rw [frame, frame, ← handle]
  exact congrArg PageHandle.pageArrayId (Function.update_of_ne isOther _ _)

theorem Holds.absent_of_new (holds : Holds number perShard contents pins shard)
    (isNew : contents pgId = none) : pgId ∉ shard.table := fun isThere => by
  rw [holds.content pgId isThere] at isNew
  cases isNew

/-- What `Allocate` and `AllocateRoot` share: room, a location and a frame. -/
theorem Holds.newPage (holds : Holds number perShard contents pins shard)
    (notAllPinned : shard.inUse.length < perShard) (isMine : Mine number pgId)
    (isNew : contents pgId = none) :
    ∃ evicted newId after, shard.mayOverflow = some (false, evicted) ∧
      TreeBufferManager.getBuffer
        { evicted with file := evicted.file.extend (offset pgId) } = (newId, after) ∧
      after.pages newId = zeroPage ∧ pgId ∉ after.table ∧
      ∀ page : Page, page.isDirty = true →
        Holds number perShard (Function.update contents pgId (some (clean page))) pins
            ((after.setPage newId page).addHandle pgId newId) ∧
          shard.Keeps ((after.setPage newId page).addHandle pgId newId) := by
  obtain ⟨evicted, ran, evictedHolds, kept, notFull⟩ := holds.mayOverflow notAllPinned
  have extended := evictedHolds.extend (offset pgId)
  have absent : pgId ∉ evicted.table := evictedHolds.absent_of_new isNew
  have took := extended.getBuffer notFull
  refine ⟨evicted, _, _, ran, Prod.mk.eta.symm, took.zeros, ?_, fun page dirty => ⟨?_, ?_⟩⟩
  · rw [took.table_eq]
    exact absent
  · exact extended.place took isMine absent (TreeFile.lt_extend_pageNum _ _)
      fun notDirty => absurd (dirty.symm.trans notDirty) (by decide)
  · exact took.keeps kept.handle (holds.absent_of_new isNew) page

theorem Holds.allocate (holds : Holds number perShard contents pins shard)
    (notAllPinned : shard.inUse.length < perShard) (isMine : Mine number pgId)
    (isNew : contents pgId = none) :
    ∃ after, shard.allocate pgId = some after ∧
      Holds number perShard
        (Function.update contents pgId (some (clean (pageInit pgId fun _ => 0)))) pins after ∧
      shard.Keeps after := by
  obtain ⟨evicted, newId, buffered, ran, got, zeros, absent, placed⟩ :=
    holds.newPage notAllPinned isMine isNew
  refine ⟨_, ?_, placed (pageInit pgId fun _ => 0) rfl⟩
  rw [TreeBufferManager.allocate, ran]
  simp only [Option.bind_some, Bool.false_eq_true, if_false, got, zeros]
  exact if_neg absent

theorem Holds.allocateRoot (holds : Holds number perShard contents pins shard)
    (notAllPinned : shard.inUse.length < perShard) (isMine : Mine number pgId)
    (isNew : contents pgId = none) {root : Page} (dirty : root.isDirty = true) :
    ∃ after, shard.allocateRoot pgId root = some after ∧
      Holds number perShard
        (Function.update contents pgId (some (clean { root with pageId := pgId }))) pins after ∧
      shard.Keeps after := by
  obtain ⟨evicted, newId, buffered, ran, got, -, -, placed⟩ :=
    holds.newPage notAllPinned isMine isNew
  refine ⟨_, ?_, placed { root with pageId := pgId } dirty⟩
  rw [TreeBufferManager.allocateRoot, ran]
  simp only [Option.bind_some, Bool.false_eq_true, if_false, got]

/-- A page that is not in the table is read from the file as it was last. -/
theorem Holds.retrieveHandle {page : Page} (holds : Holds number perShard contents pins shard)
    (isMine : Mine number pgId) (isContent : contents pgId = some page)
    (isClean : clean page = page)
    (hasRoom : pgId ∈ shard.table ∨ shard.inUse.length < perShard) :
    ∃ after, shard.retrieveHandle pgId = some after ∧
      Holds number perShard contents pins after ∧ pgId ∈ after.table ∧ shard.Keeps after := by
  by_cases isThere : pgId ∈ shard.table
  · exact ⟨shard, if_pos isThere, holds, isThere, fun _ _ => rfl⟩
  · obtain ⟨evicted, ran, evictedHolds, kept, notFull⟩ :=
      holds.mayOverflow (hasRoom.resolve_left isThere)
    have absent : pgId ∉ evicted.table := fun there => isThere (kept.table there)
    have inFile := evictedHolds.inFile pgId page isMine isContent
    have stored := evictedHolds.evicted pgId page isMine absent isContent
    have took := evictedHolds.getBuffer notFull
    have placed := evictedHolds.place took isMine absent inFile
      fun _ => stored.trans (congrArg some isClean.symm)
    rw [isClean, ← isContent, Function.update_eq_self] at placed
    refine ⟨_, ?_, placed, List.mem_insert_self, took.keeps kept.handle isThere page⟩
    have read : evicted.getBuffer.2.file.getPage (offset pgId) = some page := by
      rw [took.file_eq]
      exact (if_neg (Nat.not_le.mpr inFile)).trans stored
    rw [← took.table_eq] at absent
    rw [TreeBufferManager.retrieveHandle, if_neg isThere, ran]
    simp only [Option.bind_some, Bool.false_eq_true, if_false, read]
    exact if_neg absent

/-- The frame that `Pin` returns holds what the page was given last. -/
theorem Holds.pin {page : Page} (holds : Holds number perShard contents pins shard)
    (isMine : Mine number pgId) (isContent : contents pgId = some page)
    (isClean : clean page = page)
    (hasRoom : pgId ∈ shard.table ∨ shard.inUse.length < perShard)
    (small : pins pgId + 1 < 2 ^ 32) :
    ∃ after, shard.pin pgId = some (after.frame pgId, after) ∧
      Holds number perShard contents (Function.update pins pgId (pins pgId + 1)) after ∧
      pgId ∈ after.table ∧ shard.Keeps after := by
  obtain ⟨retrieved, ran, retrievedHolds, isThere, kept⟩ :=
    holds.retrieveHandle isMine isContent isClean hasRoom
  refine ⟨retrieved.ref pgId, ?_, retrievedHolds.ref isThere small, ?_, ?_⟩
  · rw [TreeBufferManager.pin, ran, Option.map_some, ref_frame]
    rfl
  · rw [TreeBufferManager.ref]
    split <;> exact isThere
  · intro other otherThere
    exact (ref_frame retrieved pgId other).trans (kept other otherThere)

/-! ## Writing to a page and deleting it -/

theorem Holds.setPage (holds : Holds number perShard contents pins shard)
    (isThere : pgId ∈ shard.table) (page : Page) (dirty : page.isDirty = true) :
    Holds number perShard (Function.update contents pgId (some (clean page))) pins
      (shard.setPage (shard.frame pgId) page) := by
  have pageAt : (shard.setPage (shard.frame pgId) page).pageOf pgId = page :=
    Function.update_self _ _ _
  have pageStays {other : Nat} (otherThere : other ∈ shard.table) (isOther : other ≠ pgId) :
      (shard.setPage (shard.frame pgId) page).pageOf other = shard.pageOf other :=
    Function.update_of_ne
      (fun same => isOther (holds.eq_of_frame isThere otherThere same)) _ _
  exact { holds with
    content := fun other otherThere => by
      by_cases isIt : other = pgId
      · rw [isIt, Function.update_self, pageAt]
      · rw [Function.update_of_ne isIt, pageStays otherThere isIt]
        exact holds.content other otherThere
    synced := fun other otherThere notDirty => by
      by_cases isIt : other = pgId
      · rw [isIt, pageAt, dirty] at notDirty
        cases notDirty
      · rw [pageStays otherThere isIt] at notDirty ⊢
        exact holds.synced other otherThere notDirty
    evicted := fun other content isMine absent isContent => by
      have isOther : other ≠ pgId := by
        rintro rfl
        exact absent isThere
      rw [Function.update_of_ne isOther] at isContent
      exact holds.evicted other content isMine absent isContent
    inFile := fun other content isMine isContent => by
      by_cases isIt : other = pgId
      · rw [isIt]
        exact holds.inFile pgId _ (holds.mine pgId isThere) (holds.content pgId isThere)
      · rw [Function.update_of_ne isIt] at isContent
        exact holds.inFile other content isMine isContent }

theorem Holds.delete (holds : Holds number perShard contents pins shard)
    (isMine : Mine number pgId) (unpinned : pins pgId = 0) :
    Holds number perShard (Function.update contents pgId none) pins (shard.delete pgId) := by
  have isOther {other : Nat} {content : Page}
      (isContent : Function.update contents pgId none other = some content) :
      other ≠ pgId ∧ contents other = some content :=
    (update_eq_some isContent).resolve_left fun ⟨_, isNone⟩ => by cases isNone
  rw [TreeBufferManager.delete]
  by_cases isThere : pgId ∈ shard.table
  · have stays {other : Nat} (otherThere : other ∈ shard.table.erase pgId) :
        other ≠ pgId ∧ other ∈ shard.table := holds.nodup.mem_erase_iff.mp otherThere
    rw [if_neg (not_not.mpr isThere)]
    exact {
      size := holds.size
      nodup := holds.nodup.erase pgId
      mine := fun other otherThere => holds.mine other (stays otherThere).2
      listed := holds.listed_remove pgId
      lruUnused := fun other inLru => holds.lruUnused other (List.mem_of_mem_erase inLru)
      inUseUsed := fun other inUse => holds.inUseUsed other (List.mem_of_mem_erase inUse)
      counted := fun other otherThere => holds.counted other (stays otherThere).2
      pinnedThere := fun other otherMine absent => by
        by_cases isIt : other = pgId
        · rw [isIt]
          exact unpinned
        · exact holds.pinnedThere other otherMine
            fun otherThere => absent (holds.nodup.mem_erase_iff.mpr ⟨isIt, otherThere⟩)
      frames := holds.frames_remove isThere
      room := holds.room
      content := fun other otherThere => by
        rw [Function.update_of_ne (stays otherThere).1]
        exact holds.content other (stays otherThere).2
      synced := fun other otherThere => holds.synced other (stays otherThere).2
      evicted := fun other content otherMine absent isContent => by
        obtain ⟨notIt, wasContent⟩ := isOther isContent
        exact holds.evicted other content otherMine
          (fun otherThere => absent (holds.nodup.mem_erase_iff.mpr ⟨notIt, otherThere⟩))
          wasContent
      inFile := fun other content otherMine isContent =>
        holds.inFile other content otherMine (isOther isContent).2 }
  · rw [if_pos isThere]
    exact { holds with
      content := fun other otherThere => by
        have notIt : other ≠ pgId := by
          rintro rfl
          exact isThere otherThere
        rw [Function.update_of_ne notIt]
        exact holds.content other otherThere
      evicted := fun other content otherMine absent isContent =>
        holds.evicted other content otherMine absent (isOther isContent).2
      inFile := fun other content otherMine isContent =>
        holds.inFile other content otherMine (isOther isContent).2 }

theorem delete_keeps (shard : TreeBufferManager) (pgId : Nat) :
    shard.Keeps (shard.delete pgId) := by
  intro other _
  rw [delete]
  split <;> rfl

end AhaTree.TreeBuffer.TreeBufferManager
