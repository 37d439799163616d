import AhaTree.LeafMerge

/-!
# What readers find while leaf pages are merged

The loop of `FlushFilesToChildren` prepares one new buffer for all page children
of a node.  A child that fills one page installs it at once, together with the
removals that earlier children have left in it, although their new pages are not
installed yet.
-/

namespace AhaTree

/-- The entries of the tables that the files of a buffer name. -/
def Lsmt.entries (lsmt : Lsmt) : List Entry :=
  (List.range kNumLevels).flatMap (fun level =>
    (lsmt.files level).flatMap (fun file => lsmt.tables file.number))

/-- The child that a search of the page leads to. -/
def childFor (items : IndexItems) (key : Slice) : Option PageId :=
  (items[pageFindOffset items key]?).map Prod.snd

namespace Node

/-- The versions of a user key that a reader finds in the installed buffer and in
the page of the child it is led to. -/
def held (node : Node) (key : Slice) : Set Entry :=
  {entry | entry.userKey = key ∧ (entry ∈ node.nodeLsmt.entries ∨
    ∃ child ∈ childFor node.items key, entry ∈ node.pages child)}

/-- The newest versions that are values. -/
def content (node : Node) : Set Entry :=
  {entry | Lib.Shows Entry.sequence Entry.IsValue (node.held entry.userKey) entry}

/-- The buffer that the next change is made to. -/
def nextBuffer (node : Node) : Lsmt :=
  node.lsmt4compact.getD node.nodeLsmt.copy

/-- A page or a file other than the given one holds the entry. -/
def HoldsBeside (node : Node) (number : Nat) (entry : Entry) : Prop :=
  (∃ child ∈ childFor node.items entry.userKey, entry ∈ node.pages child) ∨
    ∃ level < kNumLevels, ∃ file ∈ node.nodeLsmt.files level,
      file.number ≠ number ∧ entry ∈ node.nodeLsmt.tables file.number

end Node

/-- A node at the start of the loop, with the files of one level of its buffer
and the page children that are visited.  The page has ascending pivots and
different children, files have their own numbers and hold only keys of their
range, tables and pages are sorted, page entries are where a search looks for
them, and a user key and a sequence number name one version. -/
structure LeafFlush extends Node where
  level : Nat
  files : List FileMetaData
  children : List (Slice × PageId)
  getPageSplitPolicy : PageId → Nat → Nat → PageSplitPolicy
  nothingPending : lsmt4compact = none
  increasing : (pivots items).Pairwise (· < ·)
  distinct : (items.map Prod.snd).Nodup
  visited : children.Sublist items
  levelInside : level < kNumLevels
  ofLevel : files ⊆ nodeLsmt.files level
  numbered : ∀ upper lower, ∀ left ∈ nodeLsmt.files upper,
    ∀ right ∈ nodeLsmt.files lower, left.number = right.number →
      left = right ∧ upper = lower
  notObsolete : ∀ upper, ∀ file ∈ nodeLsmt.files upper,
    file.number ∉ nodeLsmt.obsoleteFiles
  covers : ∀ upper, ∀ file ∈ nodeLsmt.files upper,
    ∀ entry ∈ nodeLsmt.tables file.number, file.Covers entry.userKey
  tableSorted : ∀ upper, ∀ file ∈ nodeLsmt.files upper,
    (nodeLsmt.tables file.number).Pairwise
      (fun front behind => behind.before front = false)
  pageSorted : ∀ item ∈ items, (pages item.2).Pairwise
    (fun front behind => behind.before front = false)
  placed : ∀ item ∈ items, ∀ entry ∈ pages item.2,
    childFor items entry.userKey = some item.2
  named : ∀ left ∈ nodeLsmt.entries ++ items.flatMap (fun item => pages item.2),
    ∀ right ∈ nodeLsmt.entries ++ items.flatMap (fun item => pages item.2),
      left.userKey = right.userKey → left.sequence = right.sequence → left = right
  bounded : ∀ entry ∈ nodeLsmt.entries ++ items.flatMap (fun item => pages item.2),
    entry.sequence < kMaxSequenceNumber

namespace LeafFlush

variable (flush : LeafFlush)

/-- The moments of the loop at which other threads may see the node. -/
def moments : List Moment :=
  (mergeLeaves flush.getPageSplitPolicy flush.level flush.files flush.children
    ⟨flush.toNode, [], [], false⟩).1

/-- The files of the list that belong to the child. -/
def flushed (child : PageId) : List FileMetaData :=
  match pageGetOffsetByChild flush.items child with
  | none => []
  | some offset => flush.files.filter (belongsToChild flush.items offset)

def merged (child : PageId) : List Entry :=
  flush.mergedLeaf (flush.flushed child) child

def written (child : PageId) : Option (List (List Entry)) :=
  writeToPage (flush.getPageSplitPolicy child) (flush.merged child)

/-- The process ends while the child's pages are written. -/
def Aborts (child : PageId) : Prop :=
  flush.flushed child ≠ [] ∧ flush.written child = none

def FillsOnePage (child : PageId) : Prop :=
  flush.flushed child ≠ [] ∧ ∃ page, flush.written child = some [page]

/-- The child has files, and they fill no page or several. -/
def FillsOther (child : PageId) : Prop :=
  flush.flushed child ≠ [] ∧ ∃ pages, flush.written child = some pages ∧ pages.length ≠ 1

/-- The entries of the files that belong to the child. -/
def fileEntries (child : PageId) : List Entry :=
  (flush.flushed child).flatMap (fun file => flush.nodeLsmt.tables file.number)

/-- The entries of all other files of the buffer. -/
def restEntries (child : PageId) : List Entry :=
  (List.range kNumLevels).flatMap (fun level =>
    ((flush.nodeLsmt.files level).filter (fun file => file ∉ flush.flushed child)).flatMap
      (fun file => flush.nodeLsmt.tables file.number))

/-- No deletion that the merge with the leaf page drops hides an older value in
the rest of the buffer. -/
def HidesNothing (child : PageId) : Prop :=
  ∀ mark ∈ flush.merged child,
    Lib.Newest Entry.sequence (versions (flush.merged child) mark.userKey) mark →
    ¬ mark.IsValue → ∀ older, Lib.Shows Entry.sequence Entry.IsValue
      (versions (flush.restEntries child) mark.userKey) older →
        mark.sequence < older.sequence

/-- An entry that only the child's files hold decides about its user key only if
it is a deletion and there is nothing to delete. -/
def DecidesNothing (child : PageId) : Prop :=
  let others := flush.restEntries child ++ flush.pages child
  ∀ gone ∈ flush.fileEntries child, gone ∉ others →
    Lib.Newest Entry.sequence
      (versions (others ++ flush.fileEntries child) gone.userKey) gone →
    ¬ gone.IsValue ∧ ∀ older, ¬ Lib.Shows Entry.sequence Entry.IsValue
      (versions others gone.userKey) older

/-- For every page child that is reached and fills one page: its merge hides
nothing, and neither do the files of the children before it decide anything that
have filled no page or several. -/
def KeepsContent : Prop :=
  ∀ front child back, flush.children = front ++ child :: back →
    (∀ earlier ∈ front, ¬ flush.Aborts earlier.2) → flush.FillsOnePage child.2 →
    flush.HidesNothing child.2 ∧
      ∀ earlier ∈ front, flush.FillsOther earlier.2 → flush.DecidesNothing earlier.2

end LeafFlush

/-! ## Files and their children -/

namespace LeafFlush

variable {flush : LeafFlush} {child : PageId} {file : FileMetaData} {key : Slice}

theorem not_fillsOnePage (other : flush.FillsOther child) : ¬ flush.FillsOnePage child := by
  rintro ⟨-, page, isPage⟩
  obtain ⟨-, pages, isWritten, notOne⟩ := other
  rw [isWritten] at isPage
  exact notOne (Option.some.inj isPage ▸ rfl)

theorem not_aborts (one : flush.FillsOnePage child) : ¬ flush.Aborts child := by
  rintro ⟨-, aborted⟩
  obtain ⟨-, page, isPage⟩ := one
  rw [isPage] at aborted
  cases aborted

theorem fillsOther (filled : flush.flushed child ≠ []) (continues : ¬ flush.Aborts child)
    (notOne : ¬ flush.FillsOnePage child) : flush.FillsOther child := by
  cases isWritten : flush.written child with
  | none => exact absurd ⟨filled, isWritten⟩ continues
  | some pages =>
      refine ⟨filled, pages, isWritten, fun single => notOne ⟨filled, ?_⟩⟩
      obtain ⟨page, rfl⟩ := List.length_eq_one_iff.mp single
      exact ⟨page, isWritten⟩

theorem mem_flushed_iff : file ∈ flush.flushed child ↔
    ∃ offset, pageGetOffsetByChild flush.items child = some offset ∧
      file ∈ flush.files ∧ belongsToChild flush.items offset file = true := by
  rw [flushed]
  cases found : pageGetOffsetByChild flush.items child with
  | none => simp
  | some offset => simp [List.mem_filter]

theorem belongsToChild_iff {items : IndexItems} {offset : Nat} :
    belongsToChild items offset file = true ↔
      pageReadPivotAtOffset (pivots items) offset ≤ file.start ∧
        (offset + 1 = items.length ∨
          file.limit < pageReadPivotAtOffset (pivots items) (offset + 1)) := by
  simp [belongsToChild, Slice.compare_isGE, Ordering.isLT_iff_eq_lt,
    Slice.compare_eq_lt]

/-- A search for a key of the file leads to the child that the file belongs to. -/
theorem childFor_of_flushed (isFlushed : file ∈ flush.flushed child)
    (covers : file.Covers key) : childFor flush.items key = some child := by
  obtain ⟨offset, found, -, belongs⟩ := mem_flushed_iff.mp isFlushed
  obtain ⟨inside, isChild, -⟩ := List.findIdx?_eq_some_iff_getElem.mp found
  obtain ⟨lower, upper⟩ := belongsToChild_iff.mp belongs
  have insidePivots : offset < (pivots flush.items).length := by simpa using inside
  have notEmpty : pivots flush.items ≠ [] := List.ne_nil_of_length_pos (by omega)
  obtain ⟨within, notAbove, beyond⟩ :=
    pageBinSearch_spec flush.increasing notEmpty key
  have reached : pageReadPivotAtOffset (pivots flush.items) offset ≤ key :=
    lower.trans covers.1
  rw [pageReadPivotAtOffset_eq insidePivots] at reached
  have stops : pageBinSearch (pivots flush.items) key = offset := by
    rcases Nat.lt_trichotomy (pageBinSearch (pivots flush.items) key) offset with
      less | same | more
    · exact absurd reached (not_le.mpr (beyond offset insidePivots less))
    · exact same
    · exfalso
      rcases notAbove with zero | notAbove
      · omega
      · rcases upper with last | upper
        · simp only [pivots_length] at within
          omega
        · rw [pageReadPivotAtOffset_eq (by omega)] at upper
          have ascending := List.pairwise_iff_getElem.mp flush.increasing
          have nextLe : (pivots flush.items)[offset + 1] ≤
              (pivots flush.items)[pageBinSearch (pivots flush.items) key] := by
            rcases Nat.lt_or_ge (offset + 1)
              (pageBinSearch (pivots flush.items) key) with less | here
            · exact (ascending (offset + 1) _ (by omega) within less).le
            · have same : pageBinSearch (pivots flush.items) key = offset + 1 := by omega
              simp only [same, le_refl]
          exact absurd (covers.2.trans_lt upper) (not_lt.mpr (nextLe.trans notAbove))
  have isLast : (flush.items[offset]).2 = child := by simpa using isChild
  simp [childFor, pageFindOffset, stops, inside, isLast]

theorem mem_files_of_flushed (isFlushed : file ∈ flush.flushed child) :
    file ∈ flush.nodeLsmt.files flush.level := by
  obtain ⟨-, -, member, -⟩ := mem_flushed_iff.mp isFlushed
  exact flush.ofLevel member

/-- No file belongs to two children. -/
theorem child_unique {other : PageId} (isFlushed : file ∈ flush.flushed child)
    (isOther : file ∈ flush.flushed other) : child = other := by
  have starts : file.Covers file.start := ⟨le_rfl, file.start_le_limit⟩
  have same := (childFor_of_flushed isFlushed starts).symm.trans
    (childFor_of_flushed isOther starts)
  exact Option.some.inj same

theorem mem_entries_iff {lsmt : Lsmt} {entry : Entry} : entry ∈ lsmt.entries ↔
    ∃ level < kNumLevels, ∃ file ∈ lsmt.files level, entry ∈ lsmt.tables file.number := by
  simp [Lsmt.entries]

theorem mem_restEntries_iff {entry : Entry} : entry ∈ flush.restEntries child ↔
    ∃ level < kNumLevels, ∃ file ∈ flush.nodeLsmt.files level,
      file ∉ flush.flushed child ∧ entry ∈ flush.nodeLsmt.tables file.number := by
  simp [restEntries, and_assoc]

theorem mem_fileEntries_iff {entry : Entry} : entry ∈ flush.fileEntries child ↔
    ∃ file ∈ flush.flushed child, entry ∈ flush.nodeLsmt.tables file.number := by
  simp [fileEntries]

/-- The buffer consists of the child's files and the others. -/
theorem mem_entries_split (child : PageId) {entry : Entry} : entry ∈ flush.nodeLsmt.entries ↔
    entry ∈ flush.restEntries child ∨ entry ∈ flush.fileEntries child := by
  rw [mem_entries_iff, mem_restEntries_iff, mem_fileEntries_iff]
  constructor
  · rintro ⟨level, inside, file, member, isEntry⟩
    by_cases isFlushed : file ∈ flush.flushed child
    · exact .inr ⟨file, isFlushed, isEntry⟩
    · exact .inl ⟨level, inside, file, member, isFlushed, isEntry⟩
  · rintro (⟨level, inside, file, member, -, isEntry⟩ | ⟨file, isFlushed, isEntry⟩)
    · exact ⟨level, inside, file, member, isEntry⟩
    · exact ⟨flush.level, flush.levelInside, file, mem_files_of_flushed isFlushed, isEntry⟩

/-! ## The merged stream -/

theorem exists_item (isChild : child ∈ flush.items.map Prod.snd) :
    ∃ item ∈ flush.items, item.2 = child :=
  List.mem_map.mp isChild

theorem mem_stored_of_page (isChild : child ∈ flush.items.map Prod.snd) {entry : Entry}
    (member : entry ∈ flush.pages child) :
    entry ∈ flush.nodeLsmt.entries ++
      flush.items.flatMap (fun item => flush.pages item.2) := by
  obtain ⟨item, isItem, rfl⟩ := exists_item isChild
  exact List.mem_append_right _ (List.mem_flatMap.mpr ⟨item, isItem, member⟩)

theorem mem_stored_of_files {entry : Entry} (member : entry ∈ flush.fileEntries child) :
    entry ∈ flush.nodeLsmt.entries ++
      flush.items.flatMap (fun item => flush.pages item.2) :=
  List.mem_append_left _ ((mem_entries_split child).mpr (.inr member))

/-- The merge delivers the entries of the child's files and of its page, in
order. -/
theorem merged_spec (isChild : child ∈ flush.items.map Prod.snd) :
    (flush.merged child).Perm (flush.fileEntries child ++ flush.pages child) ∧
      (flush.merged child).Pairwise (fun front behind => behind.before front = false) := by
  obtain ⟨item, isItem, rfl⟩ := exists_item isChild
  have streams : ((flush.flushed item.2).map (fun file =>
      flush.nodeLsmt.tables file.number) ++ (if flush.pages item.2 = [] then []
        else [flush.pages item.2])).flatten =
      flush.fileEntries item.2 ++ flush.pages item.2 := by
    rw [List.flatten_append, fileEntries, List.flatMap_def]
    split
    · rename_i empty
      simp [empty]
    · simp
  have spec := Entry.before_strictOrder.merge_spec
    ((flush.flushed item.2).map (fun file => flush.nodeLsmt.tables file.number) ++
      if flush.pages item.2 = [] then [] else [flush.pages item.2]) (by
    intro list member
    rcases List.mem_append.mp member with isTable | isPage
    · obtain ⟨file, isFlushed, rfl⟩ := List.mem_map.mp isTable
      exact flush.tableSorted flush.level file (mem_files_of_flushed isFlushed)
    · split at isPage
      · cases isPage
      · rw [List.mem_singleton.mp isPage]
        exact flush.pageSorted item isItem)
  rw [streams] at spec
  simp only [merged, Node.mergedLeaf, streams]
  exact spec

theorem mem_merged_iff (isChild : child ∈ flush.items.map Prod.snd) {entry : Entry} :
    entry ∈ flush.merged child ↔
      entry ∈ flush.fileEntries child ∨ entry ∈ flush.pages child := by
  rw [(merged_spec isChild).1.mem_iff, List.mem_append]

theorem mem_stored_of_merged (isChild : child ∈ flush.items.map Prod.snd) {entry : Entry}
    (member : entry ∈ flush.merged child) :
    entry ∈ flush.nodeLsmt.entries ++
      flush.items.flatMap (fun item => flush.pages item.2) := by
  rcases (mem_merged_iff isChild).mp member with inFiles | inPage
  · exact mem_stored_of_files inFiles
  · exact mem_stored_of_page isChild inPage

theorem sorted_merged (isChild : child ∈ flush.items.map Prod.snd) :
    Sorted (flush.merged child) where
  ascending := (merged_spec isChild).2
  named left isLeft right isRight :=
    flush.named left (mem_stored_of_merged isChild isLeft) right
      (mem_stored_of_merged isChild isRight)

/-- A single page holds what the merged entries show. -/
theorem mem_page_iff (isChild : child ∈ flush.items.map Prod.snd) {page : List Entry}
    (isWritten : flush.written child = some [page]) {entry : Entry} :
    entry ∈ page ↔ Lib.Shows Entry.sequence Entry.IsValue
      (versions (flush.merged child) entry.userKey) entry := by
  have whole := writeToPage_flatten isWritten
  simp only [List.flatten_cons, List.flatten_nil, List.append_nil] at whole
  rw [whole, (sorted_merged isChild).mem_liveEntries_iff]
  intro other member
  exact flush.bounded other (mem_stored_of_merged isChild member)

/-! ## The buffers of the loop -/

theorem files_eq_nil_of_levelCount_le {levels : Levels} {level : Nat}
    (inside : level < kNumLevels) (beyond : levelCount levels ≤ level) :
    levels level = [] := by
  rw [levelCount] at beyond
  split at beyond
  · rename_i isNone
    exact (getBottomLevel_eq_none_iff levels).mp isNone level inside
  · rename_i bottom isBottom
    exact (getBottomLevel_eq_some isBottom).2.2 level inside beyond

theorem copy_files {lsmt : Lsmt} {level : Nat} (inside : level < kNumLevels) :
    lsmt.copy.files level = lsmt.files level := by
  by_cases reached : level < levelCount lsmt.files
  · exact if_pos reached
  · have empty := files_eq_nil_of_levelCount_le inside (Nat.le_of_not_lt reached)
    simp [Lsmt.copy, empty]

theorem mem_finalizeRetrieval_iff {lsmt : Lsmt} {level upper : Nat}
    (inside : level < kNumLevels) {retrieved : List FileMetaData} :
    file ∈ (lsmt.finalizeRetrieval level retrieved).files upper ↔
      file ∈ lsmt.files upper ∧
        (upper = level → file.number ∉ retrieved.map FileMetaData.number) := by
  rw [Lsmt.finalizeRetrieval]
  split
  · rename_i bottom
    have empty := (getBottomLevel_eq_none_iff lsmt.files).mp bottom level inside
    refine ⟨fun member => ⟨member, ?_⟩, And.left⟩
    rintro rfl
    rw [empty] at member
    cases member
  · by_cases same : upper = level
    · subst same
      simp [List.mem_filter]
    · simp [same]

theorem finalizeRetrieval_keeps (lsmt : Lsmt) (level : Nat)
    (retrieved : List FileMetaData) :
    (lsmt.finalizeRetrieval level retrieved).tables = lsmt.tables ∧
      (lsmt.finalizeRetrieval level retrieved).obsoleteFiles = lsmt.obsoleteFiles := by
  rw [Lsmt.finalizeRetrieval]
  split <;> exact ⟨rfl, rfl⟩

/-- The files of the children that are done have left the buffer, the tables of
all other files are there. -/
structure Installed (flush : LeafFlush) (done : List PageId) (lsmt : Lsmt) : Prop where
  files : ∀ level < kNumLevels, ∀ file, file ∈ lsmt.files level ↔
    file ∈ flush.nodeLsmt.files level ∧ ∀ child ∈ done, file ∉ flush.flushed child
  tables : ∀ level < kNumLevels, ∀ file ∈ lsmt.files level,
    lsmt.tables file.number = flush.nodeLsmt.tables file.number
  obsolete : ∀ number ∈ lsmt.obsoleteFiles, ∀ level < kNumLevels,
    ∀ file ∈ lsmt.files level, file.number ≠ number

namespace Installed

variable {done : List PageId} {lsmt : Lsmt}

theorem start (flush : LeafFlush) : Installed flush [] flush.nodeLsmt where
  files level _ file := by simp
  tables _ _ _ _ := rfl
  obsolete number isObsolete level _ file member same :=
    flush.notObsolete level file member (same ▸ isObsolete)

theorem copy (installed : Installed flush done lsmt) : Installed flush done lsmt.copy where
  files level inside file := by
    rw [copy_files inside]
    exact installed.files level inside file
  tables level inside file member :=
    installed.tables level inside file (by rwa [copy_files inside] at member)
  obsolete number isObsolete level inside file member :=
    installed.obsolete number isObsolete level inside file
      (by rwa [copy_files inside] at member)

/-- A child without files changes nothing. -/
theorem skip (installed : Installed flush done lsmt) (empty : flush.flushed child = []) :
    Installed flush (done ++ [child]) lsmt where
  files level inside file := by
    rw [installed.files level inside file]
    simp [or_imp, forall_and, empty]
  tables := installed.tables
  obsolete := installed.obsolete

theorem mem_finalized_iff (installed : Installed flush done lsmt) {upper : Nat}
    (inside : upper < kNumLevels) :
    file ∈ (lsmt.finalizeRetrieval flush.level (flush.flushed child)).files upper ↔
      file ∈ flush.nodeLsmt.files upper ∧
        ∀ other ∈ done ++ [child], file ∉ flush.flushed other := by
  rw [mem_finalizeRetrieval_iff flush.levelInside, installed.files upper inside file,
    and_assoc]
  refine and_congr_right (fun member => ?_)
  simp only [List.mem_append, List.mem_singleton, or_imp, forall_and, forall_eq]
  refine and_congr_right (fun _ => ?_)
  constructor
  · intro apart isFlushed
    have atLevel := (flush.numbered upper flush.level file member file
      (mem_files_of_flushed isFlushed) rfl).2
    exact apart atLevel (List.mem_map_of_mem isFlushed)
  · rintro notFlushed - isNumber
    obtain ⟨other, isFlushed, same⟩ := List.mem_map.mp isNumber
    have equal := (flush.numbered flush.level upper other
      (mem_files_of_flushed isFlushed) file member same).1
    exact notFlushed (equal ▸ isFlushed)

theorem finalize (installed : Installed flush done lsmt) :
    Installed flush (done ++ [child])
      (lsmt.finalizeRetrievalAndDelete flush.level (flush.flushed child)) where
  files level inside file := installed.mem_finalized_iff inside
  tables level inside file member := by
    have before := ((mem_finalizeRetrieval_iff flush.levelInside).mp member).1
    simp only [Lsmt.finalizeRetrievalAndDelete,
      (finalizeRetrieval_keeps lsmt flush.level (flush.flushed child)).1]
    exact installed.tables level inside file before
  obsolete number isObsolete level inside file member := by
    simp only [Lsmt.finalizeRetrievalAndDelete,
      (finalizeRetrieval_keeps lsmt flush.level (flush.flushed child)).2,
      List.mem_append] at isObsolete
    rcases isObsolete with earlier | now
    · exact installed.obsolete number earlier level inside file
        ((mem_finalizeRetrieval_iff flush.levelInside).mp member).1
    · obtain ⟨isStart, apart⟩ := (installed.mem_finalized_iff inside).mp member
      obtain ⟨other, isFlushed, rfl⟩ := List.mem_map.mp now
      intro same
      have equal := (flush.numbered level flush.level file isStart other
        (mem_files_of_flushed isFlushed) same).1
      exact apart child (by simp) (equal ▸ isFlushed)

theorem clear (installed : Installed flush done lsmt) :
    Installed flush done { lsmt with obsoleteFiles := [] } where
  files := installed.files
  tables := installed.tables
  obsolete _ isObsolete := absurd isObsolete List.not_mem_nil

/-- Removing the obsolete files takes no table that the buffer names. -/
theorem removeFiles (installed : Installed flush done lsmt) {dead : List Nat}
    (apart : ∀ number ∈ dead, ∀ level < kNumLevels, ∀ file ∈ lsmt.files level,
      file.number ≠ number) : Installed flush done (lsmt.removeFiles dead) where
  files := installed.files
  tables level inside file member := by
    have alive : dead.contains file.number = false := by
      rw [Bool.eq_false_iff, ne_eq, List.contains_iff_mem]
      intro isDead
      exact apart file.number isDead level inside file member rfl
    simp only [Lsmt.removeFiles, alive, Bool.false_eq_true, if_false]
    exact installed.tables level inside file member
  obsolete := installed.obsolete

end Installed

/-! ## One round of the loop -/

/-- The pages of the children that are done: new where one page was filled. -/
structure Paged (flush : LeafFlush) (done : List PageId) (node : Node) : Prop where
  items : node.items = flush.items
  fresh : ∀ child ∈ done, flush.flushed child ≠ [] →
    ∀ page, flush.written child = some [page] → node.pages child = page
  kept : ∀ child, child ∉ done ∨ ¬ flush.FillsOnePage child →
    node.pages child = flush.pages child

/-- The loop has treated these children; the buffer that it prepares knows. -/
structure Progress (flush : LeafFlush) (done : List PageId) (node : Node) : Prop
    extends Paged flush done node where
  buffer : Installed flush done node.nextBuffer
  tables : node.nextBuffer.tables = node.nodeLsmt.tables

/-- These children are treated, and readers see it. -/
structure Stands (flush : LeafFlush) (done : List PageId) (moment : Moment) : Prop
    extends Paged flush done moment.node where
  buffer : Installed flush done moment.node.nodeLsmt
  removed : ∀ number ∈ moment.removed, ∀ level < kNumLevels,
    ∀ file ∈ moment.node.nodeLsmt.files level, file.number ≠ number

variable {done : List PageId} {node : Node}

/-- A child that does not fill one page leaves all pages as they are. -/
theorem Paged.append (paged : Paged flush done node) (notOne : ¬ flush.FillsOnePage child)
    {after : Node} (items : after.items = node.items) (pages : after.pages = node.pages) :
    Paged flush (done ++ [child]) after where
  items := items.trans paged.items
  fresh other isDone filled page isWritten := by
    rw [pages]
    rcases List.mem_append.mp isDone with earlier | here
    · exact paged.fresh other earlier filled page isWritten
    · obtain rfl := List.mem_singleton.mp here
      exact absurd ⟨filled, page, isWritten⟩ notOne
  kept other apart := by
    rw [pages]
    refine paged.kept other (apart.imp_left (fun notDone isDone => ?_))
    exact notDone (List.mem_append_left _ isDone)

theorem Progress.start (flush : LeafFlush) : Progress flush [] flush.toNode := by
  have next : flush.nextBuffer = flush.nodeLsmt.copy := by
    rw [Node.nextBuffer, flush.nothingPending]
    rfl
  refine ⟨⟨rfl, by simp, fun _ _ => rfl⟩, ?_, ?_⟩
  · rw [next]
    exact (Installed.start flush).copy
  · rw [next]
    rfl

namespace Progress

/-- The merge reads what it would have read at the start of the loop. -/
theorem mergedLeaf_eq (progress : Progress flush done node) (notDone : child ∉ done) :
    node.mergedLeaf (flush.flushed child) child = flush.merged child := by
  have tables : (flush.flushed child).map (fun file => node.nodeLsmt.tables file.number) =
      (flush.flushed child).map (fun file => flush.nodeLsmt.tables file.number) := by
    refine List.map_congr_left (fun file isFlushed => ?_)
    rw [← progress.tables]
    refine progress.buffer.tables flush.level flush.levelInside file ?_
    rw [progress.buffer.files flush.level flush.levelInside]
    refine ⟨mem_files_of_flushed isFlushed, fun other isDone isOther => ?_⟩
    exact notDone (child_unique isFlushed isOther ▸ isDone)
  simp only [merged, Node.mergedLeaf, tables, progress.kept child (.inl notDone)]

/-- The files that the code picks for the child. -/
theorem picks (progress : Progress flush done node)
    (isChild : child ∈ flush.items.map Prod.snd) :
    ∃ offset, pageGetOffsetByChild node.items child = some offset ∧
      flush.files.filter (belongsToChild node.items offset) = flush.flushed child := by
  obtain ⟨item, isItem, rfl⟩ := exists_item isChild
  cases found : pageGetOffsetByChild flush.items item.2 with
  | none =>
      have missing := List.findIdx?_eq_none_iff.mp found item isItem
      simp at missing
  | some offset =>
      refine ⟨offset, by rw [progress.items, found], ?_⟩
      rw [progress.items, flushed, found]

theorem skip (progress : Progress flush done node) (empty : flush.flushed child = []) :
    Progress flush (done ++ [child]) node where
  toPaged := progress.toPaged.append (fun one => one.1 empty) rfl rfl
  buffer := progress.buffer.skip empty
  tables := progress.tables

theorem nextBuffer_finalize (node : Node) (level : Nat) (files : List FileMetaData) :
    (node.bufferFinalizeMergeLeaf level files).nextBuffer =
      node.nextBuffer.finalizeRetrievalAndDelete level files := rfl

/-- A child that does not fill one page leaves its removals in the next buffer. -/
theorem pend (progress : Progress flush done node)
    (notOne : ¬ flush.FillsOnePage child) :
    Progress flush (done ++ [child])
      (node.bufferFinalizeMergeLeaf flush.level (flush.flushed child)) where
  toPaged := progress.toPaged.append notOne rfl rfl
  buffer := by
    rw [nextBuffer_finalize]
    exact progress.buffer.finalize
  tables := by
    rw [nextBuffer_finalize, Lsmt.finalizeRetrievalAndDelete]
    exact (finalizeRetrieval_keeps _ _ _).1.trans progress.tables

theorem paged_update (progress : Progress flush done node) {page : List Entry}
    (filled : flush.flushed child ≠ []) (isWritten : flush.written child = some [page])
    {after : Node} (items : after.items = node.items)
    (pages : after.pages = Function.update node.pages child page) :
    Paged flush (done ++ [child]) after where
  items := items.trans progress.items
  fresh other isDone otherFilled otherPage otherWritten := by
    rw [pages]
    by_cases same : other = child
    · subst same
      rw [isWritten] at otherWritten
      simpa using otherWritten
    · have earlier : other ∈ done := by simpa [same] using isDone
      rw [Function.update_of_ne same]
      exact progress.fresh other earlier otherFilled otherPage otherWritten
  kept other apart := by
    have different : other ≠ child := by
      rintro rfl
      rcases apart with notDone | notOne
      · exact notDone (by simp)
      · exact notOne ⟨filled, page, isWritten⟩
    rw [pages, Function.update_of_ne different]
    refine progress.kept other (apart.imp_left (fun notDone isDone => ?_))
    exact notDone (List.mem_append_left _ isDone)

/-- A child that fills one page shows what all children so far have left. -/
theorem install (progress : Progress flush done node) {page : List Entry}
    (filled : flush.flushed child ≠ []) (isWritten : flush.written child = some [page])
    {moments : List Moment} {after : Node}
    (isResult : (node.bufferFinalizeMergeLeaf flush.level (flush.flushed child)).installLeaf
      child page = (moments, after)) :
    Progress flush (done ++ [child]) after ∧ moments ≠ [] ∧
      ∀ moment ∈ moments, Stands flush (done ++ [child]) moment := by
  have finalized : Installed flush (done ++ [child])
      (node.nextBuffer.finalizeRetrievalAndDelete flush.level (flush.flushed child)) :=
    progress.buffer.finalize
  obtain ⟨rfl, rfl⟩ := Prod.mk.inj isResult
  have removed := finalized.clear.removeFiles finalized.obsolete
  refine ⟨⟨progress.paged_update filled isWritten rfl rfl, removed.copy, rfl⟩, ?_, ?_⟩
  · simp
  · intro moment isMoment
    rcases List.mem_cons.mp isMoment with rfl | isLast
    · exact ⟨progress.paged_update filled isWritten rfl rfl, finalized.clear,
        fun _ isRemoved => absurd isRemoved List.not_mem_nil⟩
    · obtain rfl := List.mem_singleton.mp isLast
      exact ⟨progress.paged_update filled isWritten rfl rfl, removed, finalized.obsolete⟩

/-- A round ends the process, or it leads on; it is visible if and only if the
child fills one page. -/
theorem round (progress : Progress flush done node)
    (isChild : child ∈ flush.items.map Prod.snd) (notDone : child ∉ done) :
    match node.flushAndMergeSmallLeaf (flush.getPageSplitPolicy child) flush.level
        flush.files child with
    | none => flush.Aborts child
    | some result => ¬ flush.Aborts child ∧
        Progress flush (done ++ [child]) result.node ∧
        (flush.FillsOnePage child → result.moments ≠ []) ∧
        ∀ moment ∈ result.moments, flush.FillsOnePage child ∧
          Stands flush (done ++ [child]) moment := by
  obtain ⟨offset, found, picked⟩ := progress.picks isChild
  rw [Node.flushAndMergeSmallLeaf, found, Option.bind_some, picked]
  by_cases empty : flush.flushed child = []
  · simp only [empty, if_true]
    exact ⟨fun aborts => aborts.1 empty, progress.skip empty,
      fun one => absurd empty one.1, by simp⟩
  · rw [if_neg empty, progress.mergedLeaf_eq notDone]
    cases isWritten : writeToPage (flush.getPageSplitPolicy child) (flush.merged child) with
    | none => exact ⟨empty, isWritten⟩
    | some result =>
        have written : flush.written child = some result := isWritten
        have continues : ¬ flush.Aborts child := by
          rintro ⟨-, aborted⟩
          rw [written] at aborted
          cases aborted
        have pending : (∀ page, result ≠ [page]) → ¬ flush.FillsOnePage child := by
          rintro several ⟨-, page, isPage⟩
          exact several page (Option.some.inj (written.symm.trans isPage))
        rcases result with _ | ⟨page, _ | ⟨second, pages⟩⟩
        · have notOne := pending (by simp)
          exact ⟨continues, progress.pend notOne, fun isOne => absurd isOne notOne,
            fun moment isMoment => absurd isMoment List.not_mem_nil⟩
        · obtain ⟨after, visible, stands⟩ := progress.install empty written rfl
          exact ⟨continues, after, fun _ => visible,
            fun moment isMoment => ⟨⟨empty, page, written⟩, stands moment isMoment⟩⟩
        · have notOne := pending (by simp)
          exact ⟨continues, progress.pend notOne, fun isOne => absurd isOne notOne,
            fun moment isMoment => absurd isMoment List.not_mem_nil⟩

end Progress

/-! ## The whole loop -/

/-- The visible moments are those after the children that fill one page. -/
theorem mergeLeaves_spec {children : List (Slice × PageId)} {loop : FlushLoop}
    (progress : Progress flush done loop.node)
    (areChildren : ∀ child ∈ children, child.2 ∈ flush.items.map Prod.snd)
    (fresh : (done ++ children.map Prod.snd).Nodup) :
    (∀ moment ∈ (mergeLeaves flush.getPageSplitPolicy flush.level flush.files
        children loop).1, ∃ front child back, children = front ++ child :: back ∧
      (∀ earlier ∈ front, ¬ flush.Aborts earlier.2) ∧ flush.FillsOnePage child.2 ∧
      Stands flush (done ++ (front ++ [child]).map Prod.snd) moment) ∧
    ∀ front child back, children = front ++ child :: back →
      (∀ earlier ∈ front, ¬ flush.Aborts earlier.2) → flush.FillsOnePage child.2 →
      ∃ moment ∈ (mergeLeaves flush.getPageSplitPolicy flush.level flush.files
        children loop).1, Stands flush (done ++ (front ++ [child]).map Prod.snd) moment := by
  induction children generalizing done loop with
  | nil => simp [mergeLeaves]
  | cons first children ih =>
      have isFirst := areChildren first List.mem_cons_self
      have notDone : first.2 ∉ done := by
        intro isDone
        exact (List.nodup_append.mp fresh).2.2 first.2 isDone first.2
          List.mem_cons_self rfl
      have round := progress.round isFirst notDone
      rw [mergeLeaves]
      cases merged : loop.node.flushAndMergeSmallLeaf (flush.getPageSplitPolicy first.2)
          flush.level flush.files first.2 with
      | none =>
          simp only [merged] at round
          refine ⟨by simp, ?_⟩
          rintro (_ | ⟨other, front⟩) child back split continues one
          · obtain ⟨rfl, -⟩ := List.cons.inj split
            exact absurd round (not_aborts one)
          · obtain ⟨rfl, -⟩ := List.cons.inj split
            exact absurd round (continues first List.mem_cons_self)
      | some result =>
          simp only [merged] at round
          obtain ⟨continues, after, visible, stands⟩ := round
          have moved : Progress flush (done ++ [first.2]) (loop.add first result).node := by
            rw [FlushLoop.add]
            split <;> exact after
          have freshLeft : (done ++ [first.2] ++ children.map Prod.snd).Nodup := by
            simpa using fresh
          obtain ⟨sound, complete⟩ := ih moved (fun child isChild =>
            areChildren child (List.mem_cons_of_mem _ isChild)) freshLeft
          refine ⟨fun moment isMoment => ?_, ?_⟩
          · rcases List.mem_append.mp isMoment with now | later
            · obtain ⟨one, standsNow⟩ := stands moment now
              exact ⟨[], first, children, rfl, by simp, one, by simpa using standsNow⟩
            · obtain ⟨front, child, back, rfl, earlier, one, standsLater⟩ :=
                sound moment later
              refine ⟨first :: front, child, back, rfl, ?_, one, by simpa using standsLater⟩
              exact List.forall_mem_cons.mpr ⟨continues, earlier⟩
          · rintro (_ | ⟨other, front⟩) child back split earlier one
            · obtain ⟨rfl, -⟩ := List.cons.inj split
              obtain ⟨moment, isMoment⟩ := List.exists_mem_of_ne_nil _ (visible one)
              exact ⟨moment, List.mem_append_left _ isMoment,
                by simpa using (stands moment isMoment).2⟩
            · obtain ⟨rfl, rfl⟩ := List.cons.inj split
              obtain ⟨moment, isMoment, standsLater⟩ := complete front child back rfl
                (fun other isOther => earlier other (List.mem_cons_of_mem _ isOther)) one
              exact ⟨moment, List.mem_append_right _ isMoment, by simpa using standsLater⟩

/-! ## What readers find -/

section Held

variable {entry : Entry} {moment : Moment}

/-- Stored versions of one user key differ in their sequence numbers. -/
theorem versions_injOn (flush : LeafFlush) {entries : List Entry} (stored : ∀ entry ∈ entries,
    entry ∈ flush.nodeLsmt.entries ++ flush.items.flatMap (fun item => flush.pages item.2)) :
    Set.InjOn Entry.sequence (versions entries key) := by
  rintro left ⟨isLeft, leftKey⟩ right ⟨isRight, rightKey⟩ same
  exact flush.named left (stored left isLeft) right (stored right isRight)
    (leftKey.trans rightKey.symm) same

/-- The entries of a child's files are looked for there. -/
theorem childFor_of_fileEntries (member : entry ∈ flush.fileEntries child) :
    childFor flush.items entry.userKey = some child := by
  obtain ⟨file, isFlushed, isEntry⟩ := mem_fileEntries_iff.mp member
  exact childFor_of_flushed isFlushed
    (flush.covers flush.level file (mem_files_of_flushed isFlushed) entry isEntry)

theorem childFor_of_merged (isChild : child ∈ flush.items.map Prod.snd)
    (member : entry ∈ flush.merged child) :
    childFor flush.items entry.userKey = some child := by
  rcases (mem_merged_iff isChild).mp member with inFiles | inPage
  · exact childFor_of_fileEntries inFiles
  · obtain ⟨item, isItem, rfl⟩ := exists_item isChild
    exact flush.placed item isItem entry inPage

theorem mem_stored_of_rest (member : entry ∈ flush.restEntries child) :
    entry ∈ flush.nodeLsmt.entries ++
      flush.items.flatMap (fun item => flush.pages item.2) :=
  List.mem_append_left _ ((mem_entries_split child).mpr (.inl member))

theorem Installed.mem_entries_iff {lsmt : Lsmt} (installed : Installed flush done lsmt) :
    entry ∈ lsmt.entries ↔ ∃ level < kNumLevels, ∃ file ∈ flush.nodeLsmt.files level,
      (∀ child ∈ done, file ∉ flush.flushed child) ∧
        entry ∈ flush.nodeLsmt.tables file.number := by
  rw [LeafFlush.mem_entries_iff]
  constructor
  · rintro ⟨level, inside, file, member, isEntry⟩
    rw [installed.tables level inside file member] at isEntry
    obtain ⟨isStart, apart⟩ := (installed.files level inside file).mp member
    exact ⟨level, inside, file, isStart, apart, isEntry⟩
  · rintro ⟨level, inside, file, isStart, apart, isEntry⟩
    have member := (installed.files level inside file).mpr ⟨isStart, apart⟩
    refine ⟨level, inside, file, member, ?_⟩
    rwa [installed.tables level inside file member]

/-- Of the children that are done only the one that the search leads to matters. -/
theorem Installed.mem_entries_of_done {lsmt : Lsmt}
    (installed : Installed flush done lsmt) (isDone : child ∈ done)
    (leads : childFor flush.items entry.userKey = some child) :
    entry ∈ lsmt.entries ↔ entry ∈ flush.restEntries child := by
  rw [installed.mem_entries_iff, mem_restEntries_iff]
  constructor
  · rintro ⟨level, inside, file, isStart, apart, isEntry⟩
    exact ⟨level, inside, file, isStart, apart child isDone, isEntry⟩
  · rintro ⟨level, inside, file, isStart, notFlushed, isEntry⟩
    refine ⟨level, inside, file, isStart, fun other _ isFlushed => ?_, isEntry⟩
    have otherLeads := childFor_of_flushed isFlushed
      (flush.covers level file isStart entry isEntry)
    rw [leads] at otherLeads
    exact notFlushed (Option.some.inj otherLeads ▸ isFlushed)

theorem Installed.mem_entries_of_not_done {lsmt : Lsmt}
    (installed : Installed flush done lsmt)
    (apart : ∀ child ∈ childFor flush.items entry.userKey, child ∉ done) :
    entry ∈ lsmt.entries ↔ entry ∈ flush.nodeLsmt.entries := by
  rw [installed.mem_entries_iff, LeafFlush.mem_entries_iff]
  constructor
  · rintro ⟨level, inside, file, isStart, -, isEntry⟩
    exact ⟨level, inside, file, isStart, isEntry⟩
  · rintro ⟨level, inside, file, isStart, isEntry⟩
    refine ⟨level, inside, file, isStart, fun other isDone isFlushed => ?_, isEntry⟩
    exact apart other (childFor_of_flushed isFlushed
      (flush.covers level file isStart entry isEntry)) isDone

theorem mem_held_iff {node : Node} (leads : childFor node.items key = some child) :
    entry ∈ node.held key ↔ entry.userKey = key ∧
      (entry ∈ node.nodeLsmt.entries ∨ entry ∈ node.pages child) := by
  simp [Node.held, leads]

theorem held_start_merged (isChild : child ∈ flush.items.map Prod.snd)
    (leads : childFor flush.items key = some child) :
    flush.held key =
      versions (flush.restEntries child) key ∪ versions (flush.merged child) key := by
  ext entry
  rw [mem_held_iff leads, mem_entries_split child, or_assoc,
    ← mem_merged_iff isChild]
  simp only [versions, Set.mem_union, Set.mem_ofPred_eq]
  tauto

theorem held_start_lost (leads : childFor flush.items key = some child) :
    flush.held key =
      versions (flush.restEntries child ++ flush.pages child) key ∪
        versions (flush.fileEntries child) key := by
  ext entry
  rw [mem_held_iff leads, mem_entries_split child]
  simp only [versions, Set.mem_union, Set.mem_ofPred_eq, List.mem_append]
  tauto

theorem Stands.held_one (stands : Stands flush done moment) (isDone : child ∈ done)
    (isChild : child ∈ flush.items.map Prod.snd) (one : flush.FillsOnePage child)
    (leads : childFor flush.items key = some child) :
    moment.node.held key = versions (flush.restEntries child) key ∪
      {kept | Lib.Shows Entry.sequence Entry.IsValue
        (versions (flush.merged child) key) kept} := by
  obtain ⟨filled, page, isWritten⟩ := one
  have nodeLeads : childFor moment.node.items key = some child := by
    rw [stands.items, leads]
  ext entry
  rw [mem_held_iff nodeLeads, stands.fresh child isDone filled page isWritten,
    mem_page_iff isChild isWritten]
  constructor
  · rintro ⟨rfl, inBuffer | inPage⟩
    · exact .inl ⟨(stands.buffer.mem_entries_of_done isDone leads).mp inBuffer, rfl⟩
    · exact .inr inPage
  · rintro (⟨inRest, rfl⟩ | shows)
    · exact ⟨rfl, .inl ((stands.buffer.mem_entries_of_done isDone leads).mpr inRest)⟩
    · have same := shows.member.2
      refine ⟨same, .inr ?_⟩
      rw [same]
      exact shows

/-- The files of a child that has not filled one page are gone, its page is old. -/
theorem Stands.held_other (stands : Stands flush done moment) (isDone : child ∈ done)
    (notOne : ¬ flush.FillsOnePage child)
    (leads : childFor flush.items key = some child) :
    moment.node.held key =
      versions (flush.restEntries child ++ flush.pages child) key := by
  have nodeLeads : childFor moment.node.items key = some child := by
    rw [stands.items, leads]
  ext entry
  rw [mem_held_iff nodeLeads, stands.kept child (.inr notOne)]
  simp only [versions, List.mem_append, Set.mem_ofPred_eq]
  constructor
  · rintro ⟨rfl, inside⟩
    exact ⟨inside.imp_left (stands.buffer.mem_entries_of_done isDone leads).mp, rfl⟩
  · rintro ⟨inside, rfl⟩
    exact ⟨rfl, inside.imp_left (stands.buffer.mem_entries_of_done isDone leads).mpr⟩

theorem Stands.held_same (stands : Stands flush done moment)
    (apart : ∀ child ∈ childFor flush.items key, child ∉ done) :
    moment.node.held key = flush.held key := by
  ext entry
  simp only [Node.held, Set.mem_ofPred_eq, stands.items]
  refine and_congr_right (fun same => or_congr ?_ ?_)
  · exact stands.buffer.mem_entries_of_not_done (same ▸ apart)
  · refine exists_congr (fun child => and_congr_right (fun leads => ?_))
    rw [stands.kept child (.inl (apart child leads))]

end Held

/-! ## When nothing changes -/

section Content

variable {moment : Moment}

theorem content_eq_iff {left right : Node} : left.content = right.content ↔
    ∀ key found, Lib.Shows Entry.sequence Entry.IsValue (left.held key) found ↔
      Lib.Shows Entry.sequence Entry.IsValue (right.held key) found := by
  constructor
  · intro same key found
    have here := Set.ext_iff.mp same found
    constructor
    · intro shows
      obtain rfl := shows.member.1
      exact here.mp shows
    · intro shows
      obtain rfl := shows.member.1
      exact here.mpr shows
  · intro same
    ext found
    exact same found.userKey found

/-- A merge into one page changes nothing if and only if it hides nothing. -/
theorem hidesNothing_iff (isChild : child ∈ flush.items.map Prod.snd) :
    flush.HidesNothing child ↔ ∀ key found,
      Lib.Shows Entry.sequence Entry.IsValue (versions (flush.restEntries child) key ∪
        {kept | Lib.Shows Entry.sequence Entry.IsValue
          (versions (flush.merged child) key) kept}) found ↔
      Lib.Shows Entry.sequence Entry.IsValue (versions (flush.restEntries child) key ∪
        versions (flush.merged child) key) found := by
  have atKey : ∀ key, _ := fun key => @Lib.shows_replace_iff Entry Entry.sequence
    Entry.IsValue (versions (flush.restEntries child) key)
    (versions (flush.merged child) key) (versions_finite _ _) (by
      rw [← versions_append]
      refine versions_injOn flush (fun entry member => ?_)
      rcases List.mem_append.mp member with inRest | inMerged
      · exact mem_stored_of_rest inRest
      · exact mem_stored_of_merged isChild inMerged)
  constructor
  · intro hides key
    refine (atKey key).mpr (fun mark isNewest dead older shows => ?_)
    obtain ⟨inMerged, rfl⟩ := isNewest.member
    exact hides mark inMerged isNewest dead older shows
  · intro same mark _ isNewest dead older shows
    exact (atKey mark.userKey).mp (same mark.userKey) mark isNewest dead older shows

/-- The files of a child can be lost if and only if they decide nothing. -/
theorem decidesNothing_iff (isChild : child ∈ flush.items.map Prod.snd) :
    flush.DecidesNothing child ↔ ∀ key found,
      Lib.Shows Entry.sequence Entry.IsValue
        (versions (flush.restEntries child ++ flush.pages child) key) found ↔
      Lib.Shows Entry.sequence Entry.IsValue
        (versions (flush.restEntries child ++ flush.pages child) key ∪
          versions (flush.fileEntries child) key) found := by
  have atKey : ∀ key, _ := fun key => @Lib.shows_lose_iff Entry Entry.sequence
    Entry.IsValue (versions (flush.restEntries child ++ flush.pages child) key)
    (versions (flush.fileEntries child) key) (by
      rw [← versions_append]
      exact versions_finite _ _) (by
      rw [← versions_append]
      refine versions_injOn flush (fun entry member => ?_)
      rcases List.mem_append.mp member with inOthers | inFiles
      · rcases List.mem_append.mp inOthers with inRest | inPage
        · exact mem_stored_of_rest inRest
        · exact mem_stored_of_page isChild inPage
      · exact mem_stored_of_files inFiles)
  constructor
  · intro decides key
    refine (atKey key).mpr ?_
    rintro gone ⟨inFiles, rfl⟩ apart isNewest
    rw [← versions_append] at isNewest
    exact decides gone inFiles (fun inOthers => apart ⟨inOthers, rfl⟩) isNewest
  · intro same gone inFiles apart isNewest
    rw [versions_append] at isNewest
    exact (atKey gone.userKey).mp (same gone.userKey) gone ⟨inFiles, rfl⟩
      (fun inOthers => apart inOthers.1) isNewest

theorem versions_merged_eq_empty (isChild : child ∈ flush.items.map Prod.snd)
    (elsewhere : childFor flush.items key ≠ some child) :
    versions (flush.merged child) key = ∅ := by
  refine Set.eq_empty_of_forall_notMem (fun entry member => elsewhere ?_)
  exact member.2 ▸ childFor_of_merged isChild member.1

theorem versions_fileEntries_eq_empty
    (elsewhere : childFor flush.items key ≠ some child) :
    versions (flush.fileEntries child) key = ∅ := by
  refine Set.eq_empty_of_forall_notMem (fun entry member => elsewhere ?_)
  exact member.2 ▸ childFor_of_fileEntries member.1

/-- At a user key that leads to another child there is nothing to hide. -/
theorem Stands.hidesNothing (stands : Stands flush done moment) (isDone : child ∈ done)
    (isChild : child ∈ flush.items.map Prod.snd) (one : flush.FillsOnePage child)
    (same : ∀ key found,
      Lib.Shows Entry.sequence Entry.IsValue (moment.node.held key) found ↔
        Lib.Shows Entry.sequence Entry.IsValue (flush.held key) found) :
    flush.HidesNothing child := by
  rw [hidesNothing_iff isChild]
  intro key found
  by_cases leads : childFor flush.items key = some child
  · rw [← stands.held_one isDone isChild one leads, ← held_start_merged isChild leads]
    exact same key found
  · have hidden : {kept | Lib.Shows Entry.sequence Entry.IsValue
        (∅ : Set Entry) kept} = ∅ :=
      Set.eq_empty_of_forall_notMem (fun _ shows => shows.member)
    rw [versions_merged_eq_empty isChild leads, hidden]

theorem Stands.decidesNothing (stands : Stands flush done moment) (isDone : child ∈ done)
    (isChild : child ∈ flush.items.map Prod.snd) (other : flush.FillsOther child)
    (same : ∀ key found,
      Lib.Shows Entry.sequence Entry.IsValue (moment.node.held key) found ↔
        Lib.Shows Entry.sequence Entry.IsValue (flush.held key) found) :
    flush.DecidesNothing child := by
  rw [decidesNothing_iff isChild]
  intro key found
  by_cases leads : childFor flush.items key = some child
  · rw [← held_start_lost leads, ← stands.held_other isDone (not_fillsOnePage other) leads]
    exact same key found
  · rw [versions_fileEntries_eq_empty leads, Set.union_empty]

/-- What the condition asks of the children that are done. -/
theorem Stands.content_eq_iff (stands : Stands flush done moment)
    (areChildren : ∀ child ∈ done, child ∈ flush.items.map Prod.snd)
    (continues : ∀ child ∈ done, ¬ flush.Aborts child) :
    moment.node.content = flush.content ↔ ∀ child ∈ done,
      (flush.FillsOnePage child → flush.HidesNothing child) ∧
        (flush.FillsOther child → flush.DecidesNothing child) := by
  rw [LeafFlush.content_eq_iff]
  constructor
  · intro same child isDone
    have isChild := areChildren child isDone
    exact ⟨fun one => stands.hidesNothing isDone isChild one same,
      fun other => stands.decidesNothing isDone isChild other same⟩
  · intro asked key found
    by_cases apart : ∀ child ∈ childFor flush.items key, child ∉ done
    · rw [stands.held_same apart]
    · obtain ⟨child, leads, isDone⟩ : ∃ child ∈ childFor flush.items key, child ∈ done := by
        by_contra none
        exact apart (fun child leads isDone => none ⟨child, leads, isDone⟩)
      have isChild := areChildren child isDone
      obtain ⟨hides, decides⟩ := asked child isDone
      by_cases one : flush.FillsOnePage child
      · rw [stands.held_one isDone isChild one leads, held_start_merged isChild leads]
        exact (hidesNothing_iff isChild).mp (hides one) key found
      · rw [stands.held_other isDone one leads, held_start_lost leads]
        by_cases empty : flush.flushed child = []
        · have nothing : versions (flush.fileEntries child) key = ∅ := by
            simp [fileEntries, empty, versions]
          rw [nothing, Set.union_empty]
        · have other := fillsOther empty (continues child isDone) one
          exact (decidesNothing_iff isChild).mp (decides other) key found

/-- What is shown now has a holder that is not being removed. -/
theorem Stands.holdsBeside (stands : Stands flush done moment) {number : Nat}
    (isRemoved : number ∈ moment.removed) {entry : Entry}
    (shown : entry ∈ moment.node.content) : moment.node.HoldsBeside number entry := by
  obtain ⟨-, inBuffer | inPage⟩ := shown.member
  · obtain ⟨level, inside, file, member, isEntry⟩ := mem_entries_iff.mp inBuffer
    exact .inr ⟨level, inside, file, member,
      stands.removed number isRemoved level inside file member, isEntry⟩
  · exact .inl inPage

end Content

theorem mem_items_of_split {front back : List (Slice × PageId)} {child : Slice × PageId}
    (split : flush.children = front ++ child :: back) :
    ∀ other ∈ (front ++ [child]).map Prod.snd, other ∈ flush.items.map Prod.snd := by
  intro other member
  refine (flush.visited.map Prod.snd).subset ?_
  rw [split]
  simp only [List.map_append, List.mem_append, List.map_cons, List.mem_cons] at member ⊢
  tauto

theorem not_aborts_of_reached {front : List (Slice × PageId)} {child : Slice × PageId}
    (earlier : ∀ other ∈ front, ¬ flush.Aborts other.2)
    (one : flush.FillsOnePage child.2) :
    ∀ other ∈ (front ++ [child]).map Prod.snd, ¬ flush.Aborts other := by
  intro other member
  obtain ⟨item, isItem, rfl⟩ := List.mem_map.mp member
  rcases List.mem_append.mp isItem with inFront | here
  · exact earlier item inFront
  · rw [List.mem_singleton.mp here]
    exact not_aborts one

/-- The condition at one child gives it for all children before. -/
theorem KeepsContent.asked (keeps : flush.KeepsContent)
    {front back : List (Slice × PageId)} {child : Slice × PageId}
    (split : flush.children = front ++ child :: back)
    (earlier : ∀ other ∈ front, ¬ flush.Aborts other.2)
    (one : flush.FillsOnePage child.2) :
    ∀ other ∈ (front ++ [child]).map Prod.snd,
      (flush.FillsOnePage other → flush.HidesNothing other) ∧
        (flush.FillsOther other → flush.DecidesNothing other) := by
  intro other member
  obtain ⟨item, isItem, rfl⟩ := List.mem_map.mp member
  have atEnd := keeps front child back split earlier one
  rcases List.mem_append.mp isItem with inFront | here
  · refine ⟨fun itemOne => ?_, atEnd.2 item inFront⟩
    obtain ⟨before, behind, rfl⟩ := List.append_of_mem inFront
    exact (keeps before item (behind ++ child :: back) (by simp [split])
      (fun other isOther => earlier other (List.mem_append_left _ isOther)) itemOne).1
  · rw [List.mem_singleton.mp here]
    exact ⟨fun _ => atEnd.1, fun other => absurd one (not_fillsOnePage other)⟩

/-- At every visible moment of the loop readers find what they found before it,
and no removed file is the only holder of it, if and only if the merges hide
nothing and no child with another number of pages is followed by one with one
page while its files decide something. -/
theorem moments_keep_content_iff (flush : LeafFlush) :
    (∀ moment ∈ flush.moments, moment.node.content = flush.content ∧
      ∀ number ∈ moment.removed, ∀ entry ∈ flush.nodeLsmt.tables number,
        entry ∈ flush.content → moment.node.HoldsBeside number entry) ↔
      flush.KeepsContent := by
  have ids := flush.visited.map Prod.snd
  obtain ⟨sound, complete⟩ := @mergeLeaves_spec flush [] flush.children
    ⟨flush.toNode, [], [], false⟩ (Progress.start flush)
    (fun child isChild => ids.subset (List.mem_map_of_mem isChild))
    (ids.nodup flush.distinct)
  constructor
  · intro kept front child back split earlier one
    obtain ⟨moment, isMoment, stands⟩ := complete front child back split earlier one
    have asked := (stands.content_eq_iff (mem_items_of_split split)
      (not_aborts_of_reached earlier one)).mp (kept moment isMoment).1
    refine ⟨(asked child.2 (by simp)).1 one, fun item isItem other => ?_⟩
    exact (asked item.2 (List.mem_map_of_mem (List.mem_append_left _ isItem))).2 other
  · intro keeps moment isMoment
    obtain ⟨front, child, back, split, earlier, one, stands⟩ := sound moment isMoment
    have same : moment.node.content = flush.content :=
      (stands.content_eq_iff (mem_items_of_split split)
        (not_aborts_of_reached earlier one)).mpr (keeps.asked split earlier one)
    refine ⟨same, fun number isRemoved entry _ shown => ?_⟩
    exact stands.holdsBeside isRemoved (same ▸ shown)

/-! ## Two children without entries -/

/-- A node with two empty leaf pages and with files in level 0. -/
def twoChildNode (files : List FileMetaData) (tables : Nat → List Entry) : Node where
  items := [([1], 1), ([5], 2)]
  nodeLsmt := { Lsmt.empty with
    files := fun level => if level = 0 then files else []
    tables := tables }
  lsmt4compact := none
  pages := fun _ => []

/-- What the files of such a node must be like. -/
structure LevelZero (files : List FileMetaData) (tables : Nat → List Entry) : Prop where
  numbered : ∀ left ∈ files, ∀ right ∈ files, left.number = right.number → left = right
  covers : ∀ file ∈ files, ∀ entry ∈ tables file.number,
    file.start ≤ entry.userKey ∧ entry.userKey ≤ file.limit
  sorted : ∀ file ∈ files, (tables file.number).Pairwise
    (fun front behind => behind.before front = false)
  named : ∀ left ∈ files.flatMap (fun file => tables file.number),
    ∀ right ∈ files.flatMap (fun file => tables file.number),
      left.userKey = right.userKey → left.sequence = right.sequence → left = right
  bounded : ∀ entry ∈ files.flatMap (fun file => tables file.number),
    entry.sequence < kMaxSequenceNumber

section TwoChildren

variable {files : List FileMetaData} {tables : Nat → List Entry}

theorem mem_twoChildNode_files {level : Nat} {file : FileMetaData}
    (member : file ∈ (twoChildNode files tables).nodeLsmt.files level) :
    level = 0 ∧ file ∈ files := by
  simp only [twoChildNode] at member
  split at member
  · exact ⟨‹_›, member⟩
  · cases member

theorem twoChildNode_stored (files : List FileMetaData) (tables : Nat → List Entry) :
    (twoChildNode files tables).nodeLsmt.entries ++
      (twoChildNode files tables).items.flatMap (fun item =>
        (twoChildNode files tables).pages item.2) =
      files.flatMap (fun file => tables file.number) := by
  simp [Lsmt.entries, twoChildNode, kNumLevels, List.range_succ]

/-- The flush of all files to both children. -/
def twoChildFlush (levelZero : LevelZero files tables) : LeafFlush where
  toNode := twoChildNode files tables
  level := 0
  files := files
  children := (twoChildNode files tables).items
  getPageSplitPolicy := fun _ => evenSplitPolicy
  nothingPending := rfl
  increasing := (by decide : ([[1], [5]] : List Slice).Pairwise (· < ·))
  distinct := (by decide : [1, 2].Nodup)
  visited := List.Sublist.refl _
  levelInside := by decide
  ofLevel := List.Subset.refl _
  numbered upper lower left isLeft right isRight same := by
    obtain ⟨rfl, isLeft⟩ := mem_twoChildNode_files isLeft
    obtain ⟨rfl, isRight⟩ := mem_twoChildNode_files isRight
    exact ⟨levelZero.numbered left isLeft right isRight same, rfl⟩
  notObsolete _ _ _ := List.not_mem_nil
  covers upper file member := levelZero.covers file (mem_twoChildNode_files member).2
  tableSorted upper file member := levelZero.sorted file (mem_twoChildNode_files member).2
  pageSorted _ _ := List.Pairwise.nil
  placed _ _ _ isEntry := absurd isEntry List.not_mem_nil
  named := by
    rw [twoChildNode_stored]
    exact levelZero.named
  bounded := by
    rw [twoChildNode_stored]
    exact levelZero.bounded

end TwoChildren

/-- An entry with a value of three thousand bytes: two of them fill a page. -/
def wideEntry (key : Byte) : Entry :=
  ⟨⟨[key], key.val, .kTypeValue⟩, List.replicate 3000 0⟩

/-! ## One page for each child -/

def narrowTables : Nat → List Entry
  | 1 => [wideEntry 1, wideEntry 3]
  | 2 => [wideEntry 5]
  | _ => []

def narrowFlush : LeafFlush :=
  @twoChildFlush
    [⟨1, 6000, 2, (wideEntry 1).key, (wideEntry 3).key, by decide⟩,
      ⟨2, 3000, 1, (wideEntry 5).key, (wideEntry 5).key, by decide⟩]
    narrowTables ⟨by decide, by decide, by decide, by decide +kernel, by decide⟩

theorem narrowFlush_keepsContent : narrowFlush.KeepsContent := by
  have written : ∀ child ∈ narrowFlush.children, narrowFlush.flushed child.2 ≠ [] ∧
      narrowFlush.written child.2 = some [narrowFlush.merged child.2] := by
    decide +kernel
  have values : ∀ child ∈ narrowFlush.children, ∀ mark ∈ narrowFlush.merged child.2,
      mark.key.type = .kTypeValue := by
    decide +kernel
  intro front child back split _ _
  refine ⟨fun mark isMerged _ deletion => ?_, fun earlier isEarlier other => ?_⟩
  · exact absurd (values child (by simp [split]) mark isMerged) deletion
  · obtain ⟨filled, isPage⟩ := written earlier (by simp [split, isEarlier])
    exact absurd ⟨filled, _, isPage⟩ (not_fillsOnePage other)

/-- Each child has two moments: its page is installed, and its file is removed. -/
theorem moments_keep_content_iff_one_page :
    narrowFlush.moments.length = 4 ∧
    ∀ moment ∈ narrowFlush.moments, moment.node.content = narrowFlush.content ∧
      ∀ number ∈ moment.removed, ∀ entry ∈ narrowFlush.nodeLsmt.tables number,
        entry ∈ narrowFlush.content → moment.node.HoldsBeside number entry :=
  ⟨by decide +kernel, (moments_keep_content_iff narrowFlush).mpr narrowFlush_keepsContent⟩

/-! ## Two pages for the first child -/

def wideTables : Nat → List Entry
  | 1 => [wideEntry 1, wideEntry 2, wideEntry 3]
  | 2 => [wideEntry 5]
  | _ => []

/-- The files of the first child fill two pages, the file of the second fills one. -/
def wideFlush : LeafFlush :=
  @twoChildFlush
    [⟨1, 9000, 3, (wideEntry 1).key, (wideEntry 3).key, by decide⟩,
      ⟨2, 3000, 1, (wideEntry 5).key, (wideEntry 5).key, by decide⟩]
    wideTables ⟨by decide, by decide, by decide, by decide +kernel, by decide⟩

/-- When the second child installs its page, the first child's files are gone. -/
theorem wideFlush_moments : wideFlush.moments.map (fun moment =>
    (moment.node.nodeLsmt.entries, childFor moment.node.items [1],
      moment.node.pages 1, moment.removed)) =
    [([], some 1, [], []), ([], some 1, [], [1, 2])] := by
  decide +kernel

theorem wideFlush_shows : wideEntry 1 ∈ wideFlush.content := by
  have newest : ∀ other ∈ [wideEntry 1, wideEntry 2, wideEntry 3, wideEntry 5],
      other.userKey = [1] → other.sequence ≤ (wideEntry 1).sequence := by decide
  have stored : wideFlush.nodeLsmt.entries =
      [wideEntry 1, wideEntry 2, wideEntry 3, wideEntry 5] := by
    decide +kernel
  refine ⟨⟨⟨rfl, .inl ?_⟩, ?_⟩, rfl⟩
  · show wideEntry 1 ∈ wideFlush.nodeLsmt.entries
    simp [stored]
  · rintro other ⟨same, inBuffer | ⟨child, -, inPage⟩⟩
    · exact newest other (stored ▸ inBuffer) same
    · exact absurd inPage List.not_mem_nil

/-- The three entries of the first child are lost. -/
theorem wideFlush_loses_content :
    ¬ ∀ moment ∈ wideFlush.moments, moment.node.content = wideFlush.content ∧
      ∀ number ∈ moment.removed, ∀ entry ∈ wideFlush.nodeLsmt.tables number,
        entry ∈ wideFlush.content → moment.node.HoldsBeside number entry := by
  intro kept
  obtain ⟨moment, isMoment, isLast⟩ := List.mem_map.mp
    (wideFlush_moments ▸ List.mem_cons_self)
  obtain ⟨noEntries, leads, noPage, -⟩ := by
    simpa only [Prod.mk.injEq] using isLast
  have shown : wideEntry 1 ∈ moment.node.content :=
    (kept moment isMoment).1 ▸ wideFlush_shows
  have held := (mem_held_iff leads).mp shown.member
  rw [noEntries, noPage] at held
  exact held.2.elim List.not_mem_nil List.not_mem_nil

end LeafFlush

end AhaTree
