import AhaTree.ChildFlush
import AhaTree.GuardedFlush
import AhaTree.LevelRuns
import AhaTree.Lib.Retry

/-!
# Choosing the files of the hot range

`HotOnlyAdapt` looks for the deepest files in the hot range.  Files that cross
pivots are compacted between the pivots, and as that may take them out of the
range, a flag asks for another round.  Nothing lowers the flag when the next
round finds files that cross no pivot.
-/

namespace AhaTree

open Lsmt
open Slotted (Page)

namespace HotOnlyAdapt

/-! ## The code -/

/-- Whose buffer is flushed: the root LSMT over the root page, or the LSMT of a node. -/
inductive Place where
  | root
  | node
  deriving DecidableEq, Repr

/-- The LSMT, which has no other buffer in preparation, its page, and the two results. -/
structure Selection where
  buffer : Buffer
  page : Page
  levelOfFiles : Option Nat
  files : List FileMetaData

/-- `file_min_key`. -/
def fileMinKey : List FileMetaData → Slice
  | [] => []
  | first :: files => (first :: files).foldl (fun smallest file =>
      if (Slice.compare file.start smallest).isLT then file.start else smallest) first.start

/-- The answer of `FileAcrossPivots`, which always gives one. -/
def across (items : IndexItems) (files : List FileMetaData) : Bool :=
  ((fileAcrossPivots items files).map Across.across).getD true

/-- The compaction of files that cross pivots, and the search after it.  For the root the
first pivot is lowered before; a node compacts a copy, which is installed. -/
def compactInRange (place : Place) (low up : Slice) (level : Nat) (files : List FileMetaData)
    (selection : Selection) : Except Halt Selection :=
  let page := match place with
    | .root => selection.page.mayUpdateMinPivot (fileMinKey files)
    | .node => selection.page
  let buffer := match place with
    | .root => selection.buffer
    | .node => selection.buffer.copy
  match Checked.compactFilesInRange buffer.config.toLsmtConfig page.keys level files
      buffer.lsmt with
  | .error halt => .error halt
  | .ok after => .ok {
      buffer := { buffer with lsmt := { after with obsoleteFiles := [] } }
      page := page
      levelOfFiles := some level
      files := ((Checked.getFilesInRange after.files low up).map Prod.snd).getD [] }

/-- One round of the loop. -/
def hotRound (place : Place) (low up : Slice) (selection : Selection) :
    Lib.Turn Selection (Except Halt Selection) :=
  match Checked.getFilesInRange selection.buffer.lsmt.files low up with
  | none => .leave (.ok { selection with
      buffer := { selection.buffer with hasHotspot := false }
      files := [] })
  | some (level, files) =>
      if across selection.page.items files then
        match compactInRange place low up level files selection with
        | .error halt => .leave (.error halt)
        | .ok next =>
            if (Checked.getFilesInRange next.buffer.lsmt.files low up).map Prod.fst = some level
            then .leave (.ok next)
            else .again next
      else
        let next := { selection with
          page := match place, files with
            | .root, first :: _ => selection.page.mayUpdateMinPivot first.start
            | _, _ => selection.page
          levelOfFiles := some level
          files := files }
        .settle next (.ok next)

/-- `HotOnlyAdapt::CompactRootBufferForFlush`; without a hot range it is that of
`DefaultAdapt`. -/
def compactRootBufferForFlush (default : Selection → Option (Except Halt Selection))
    (low up : Slice) (fuel : Nat) (selection : Selection) : Option (Except Halt Selection) :=
  if low.isEmpty || up.isEmpty then default selection
  else Lib.retry (hotRound .root low up) fuel false selection

/-- `HotOnlyAdapt::CompactNodeBufferForFlush`. -/
def compactNodeBufferForFlush (default : Selection → Option (Except Halt Selection))
    (low up : Slice) (fuel : Nat) (selection : Selection) : Option (Except Halt Selection) :=
  if low.isEmpty || up.isEmpty then default selection
  else Lib.retry (hotRound .node low up) fuel false selection

/-! ## What is promised -/

/-- The keys of a file belong to different children: a pivot behind the first one is above
its first key, but not above its last one. -/
def CrossesPivot (page : Page) (file : FileMetaData) : Prop :=
  ∃ pivot ∈ page.keys.tail, file.start < pivot ∧ pivot ≤ file.limit

/-- Nothing is in the hot range and the flag for it is down, or the files are of the level,
in the hot range, and can be flushed as they are. -/
def Usable (low up : Slice) (selection : Selection) : Prop :=
  (selection.files = [] ∧ selection.buffer.hasHotspot = false ∧ ∀ level < kNumLevels,
    ∀ file ∈ selection.buffer.lsmt.files level, meets low up file = false) ∨
  (selection.files ≠ [] ∧ ∃ level < kNumLevels, selection.levelOfFiles = some level ∧
    ∀ file ∈ selection.files, file ∈ selection.buffer.lsmt.files level ∧
      meets low up file = true ∧ ¬ CrossesPivot selection.page file)

/-- The function returns, and with a usable choice. -/
def Selects (low up : Slice)
    (function : Nat → Selection → Option (Except Halt Selection)) (selection : Selection) :
    Prop :=
  ∃ fuel done, function fuel selection = some (.ok done) ∧ Usable low up done

/-- The files of a level in the range. -/
def inRange (levels : Levels) (low up : Slice) (level : Nat) : List FileMetaData :=
  (levels level).filter (meets low up)

/-- The files found in the range cross pivots, and their compaction leaves no file of
their level in the range. -/
def Empties (place : Place) (low up : Slice) (before after : Selection) : Prop :=
  ∃ level files,
    Checked.getFilesInRange before.buffer.lsmt.files low up = some (level, files) ∧
      across before.page.items files = true ∧
      compactInRange place low up level files before = .ok after ∧
      inRange after.buffer.lsmt.files low up level = []

/-- The check overlooks no crossing in the files that are found first, and whenever a
compaction has left no file of its level in the range, the files that are found next
do not pass it. -/
structure KeepsCrossing (place : Place) (low up : Slice) (selection : Selection) : Prop where
  first : ∀ level files,
    Checked.getFilesInRange selection.buffer.lsmt.files low up = some (level, files) →
    across selection.page.items files = false →
    ∀ file ∈ files, ¬ CrossesPivot selection.page file
  later : ∀ later, Relation.TransGen (Empties place low up) selection later →
    ∀ level files,
      Checked.getFilesInRange later.buffer.lsmt.files low up = some (level, files) →
      across later.page.items files = true

/-- Each round that lowers the first pivot of the root page asks for a key that can be put
there. -/
def LowersWell (low up : Slice) (selection : Selection) : Prop :=
  ∀ later, Relation.ReflTransGen (Empties .root low up) selection later →
    ∀ level files,
      Checked.getFilesInRange later.buffer.lsmt.files low up = some (level, files) →
      across later.page.items files = true → later.page.CanLower (fileMinKey files)

/-! ## The search -/

/-- The files of the deepest level that has any in the range. -/
structure Deepest (levels : Levels) (low up : Slice) (level : Nat)
    (files : List FileMetaData) : Prop where
  inside : level < kNumLevels
  whole : files = inRange levels low up level
  nonempty : files ≠ []
  deeper : ∀ other < kNumLevels, level < other → inRange levels low up other = []

section Search

variable {lsmt : Lsmt} (inv : Leveled lsmt) (low up : Slice)

include inv

theorem levelFiles_eq (level : Nat) :
    (if level = 0 then Checked.getLevel0FilesInRange lsmt.files low up
      else Checked.getLevelFilesInRange lsmt.files low up level) =
        inRange lsmt.files low up level := by
  by_cases top : level = 0
  · subst top
    rw [if_pos rfl]
    refine List.filter_congr fun file _ => ?_
    rw [Bool.eq_iff_iff]
    simp [meets]
  · rw [if_neg top]
    exact Checked.getLevelFilesInRange_eq inv (Nat.pos_of_ne_zero top) low up

theorem filesInRange_spec {count : Nat} (inside : count ≤ kNumLevels)
    (above : ∀ level < kNumLevels, count ≤ level → inRange lsmt.files low up level = []) :
    match Checked.filesInRange lsmt.files low up count with
    | none => ∀ level < kNumLevels, inRange lsmt.files low up level = []
    | some (level, files) => Deepest lsmt.files low up level files := by
  induction count with
  | zero => exact fun level isLevel => above level isLevel (Nat.zero_le _)
  | succ count ih =>
      rw [Checked.filesInRange, levelFiles_eq inv low up count]
      by_cases empty : inRange lsmt.files low up count = []
      · simp only [empty, List.isEmpty_nil, if_true]
        refine ih (Nat.le_of_succ_le inside) fun level isLevel notBelow => ?_
        rcases Nat.eq_or_lt_of_le notBelow with rfl | later
        · exact empty
        · exact above level isLevel later
      · simp only [List.isEmpty_iff, if_neg empty]
        exact ⟨inside, rfl, empty, above⟩

/-- `GetFilesInRange` looks through all levels. -/
theorem getFilesInRange_spec :
    match Checked.getFilesInRange lsmt.files low up with
    | none => ∀ level < kNumLevels, inRange lsmt.files low up level = []
    | some (level, files) => Deepest lsmt.files low up level files := by
  refine filesInRange_spec inv low up (levelCount_le lsmt.files) fun level isLevel beyond => ?_
  rw [inRange, LeafFlush.files_eq_nil_of_levelCount_le isLevel beyond, List.filter_nil]

variable {low up}

theorem deepest_of_found {level : Nat} {files : List FileMetaData}
    (found : Checked.getFilesInRange lsmt.files low up = some (level, files)) :
    Deepest lsmt.files low up level files := by
  have spec := getFilesInRange_spec inv low up
  rwa [found] at spec

theorem inRange_of_none (none : Checked.getFilesInRange lsmt.files low up = none) :
    ∀ level < kNumLevels, inRange lsmt.files low up level = [] := by
  have spec := getFilesInRange_spec inv low up
  rwa [none] at spec

theorem found_of_deepest {level : Nat} {files : List FileMetaData}
    (deepest : Deepest lsmt.files low up level files) :
    Checked.getFilesInRange lsmt.files low up = some (level, files) := by
  have nonempty : inRange lsmt.files low up level ≠ [] := deepest.whole ▸ deepest.nonempty
  cases found : Checked.getFilesInRange lsmt.files low up with
  | none => exact absurd (inRange_of_none inv found level deepest.inside) nonempty
  | some answer =>
      obtain ⟨other, others⟩ := answer
      have same := deepest_of_found inv found
      rcases Nat.lt_trichotomy level other with below | rfl | above
      · exact absurd (same.whole.trans (deepest.deeper other same.inside below)) same.nonempty
      · rw [deepest.whole, same.whole]
      · exact absurd (same.deeper level deepest.inside above) nonempty

end Search

theorem Deepest.copy {lsmt : Lsmt} {low up : Slice} {level : Nat} {files : List FileMetaData}
    (deepest : Deepest lsmt.files low up level files) :
    Deepest lsmt.copy.files low up level files where
  inside := deepest.inside
  whole := by
    rw [inRange, LeafFlush.copy_files deepest.inside]
    exact deepest.whole
  nonempty := deepest.nonempty
  deeper other inside later := by
    rw [inRange, LeafFlush.copy_files inside]
    exact deepest.deeper other inside later

theorem leveled_copy {lsmt : Lsmt} (inv : Leveled lsmt) : Leveled lsmt.copy := by
  refine inv.of_sublist (fun level => ?_) rfl rfl
  simp only [Lsmt.copy]
  split
  · exact List.Sublist.refl _
  · exact List.nil_sublist _

/-! ## The first pivot -/

theorem across_iff {items : IndexItems} (increasing : (pivots items).Pairwise (· < ·))
    (files : List FileMetaData) : across items files = true ↔ Caught items files := by
  obtain ⟨answer, answered, isAcross⟩ := fileAcrossPivots_spec increasing files
  rw [across, answered, Option.map_some, Option.getD_some, isAcross]

theorem increasing_items {page : Page} (wellFormed : Slotted.WellFormed page) :
    (pivots page.items).Pairwise (· < ·) := by
  rw [pivots_items]
  exact keys_increasing wellFormed

/-- Files that pass the check do not start below the first pivot. -/
theorem mayUpdateMinPivot_of_passes {page : Page} {first : FileMetaData}
    {files : List FileMetaData} (wellFormed : Slotted.WellFormed page)
    (passes : across page.items (first :: files) = false) :
    page.mayUpdateMinPivot first.start = page := by
  have notCaught : ¬ Caught page.items (first :: files) := by
    rw [← across_iff (increasing_items wellFormed), passes]
    exact Bool.false_ne_true
  apply mayUpdateMinPivot_of_not_below
  rintro ⟨nonempty, below⟩
  refine notCaught (.inr (.inl ⟨(page.decodeEntry 0).1, ?_, first, rfl, below⟩))
  rw [pivots_items, keys_eq_cons nonempty]
  rfl

/-! ## The compaction -/

/-- The LSMT and the page are in order. -/
structure Sound (selection : Selection) : Prop where
  leveled : Leveled selection.buffer.lsmt
  wellFormed : Slotted.WellFormed selection.page
  isIndex : selection.page.isLeaf = false

/-- What the loop relies on. -/
structure Kept (place : Place) (low up : Slice) (selection : Selection) : Prop
    extends Sound selection where
  lowers : place = .root → LowersWell low up selection

/-- The selection after a compaction of the files found in a level: the files found now
are its choice, of that level only, and none of its files in the range crosses a pivot. -/
structure Recompacted (low up : Slice) (level : Nat) (before after : Selection) : Prop where
  sound : Sound after
  levelOfFiles : after.levelOfFiles = some level
  files : after.files =
    ((Checked.getFilesInRange after.buffer.lsmt.files low up).map Prod.snd).getD []
  others : ∀ other < kNumLevels, other ≠ level →
    after.buffer.lsmt.files other = before.buffer.lsmt.files other
  fits : ∀ file ∈ inRange after.buffer.lsmt.files low up level, ¬ CrossesPivot after.page file

section Compaction

variable {low up : Slice} {level : Nat} {files : List FileMetaData}

/-- An output lies between two pivots. -/
theorem not_crossesPivot_of_added {lsmt : Lsmt} (inv : Leveled lsmt) {compaction : Compaction}
    {target : Nat} (fits : Fits lsmt.files compaction target) (config : LsmtConfig)
    {page : Page} (wellFormed : Slotted.WellFormed page) {file : FileMetaData}
    (isAdded : file ∈ outputFiles config lsmt.fileId
      (lsmt.outputsOf config page.keys compaction)) :
    ¬ CrossesPivot page file := by
  rintro ⟨pivot, isPivot, starts, ends⟩
  obtain ⟨output, isOutput, describes, -⟩ :=
    addedFiles_described inv fits config page.keys isAdded
  obtain ⟨first, isFirst, isStart⟩ := describes.first
  obtain ⟨last, isLast, isLimit⟩ := describes.last
  have within := doCompactionWorkImpl_within config (keys_increasing wellFormed) compaction
    lsmt.files
    (ascending_of_not_before (mergedInput_spec inv fits).2) isOutput
  have sameStart : file.start = first.userKey := congrArg InternalKey.userKey isStart
  have sameLimit : file.limit = last.userKey := congrArg InternalKey.userKey isLimit
  have lastBelow : last.userKey < pivot := within pivot isPivot first
    (List.mem_of_head? isFirst) last (List.mem_of_getLast? isLast) (sameStart ▸ starts)
  exact absurd ends (not_le.mpr (sameLimit ▸ lastBelow))

/-- The compaction of the files in the range writes to their level only. -/
theorem compactFilesInRange_spec {lsmt : Lsmt} (inv : Leveled lsmt) (config : LsmtConfig)
    {page : Page} (wellFormed : Slotted.WellFormed page)
    (found : Checked.getFilesInRange lsmt.files low up = some (level, files)) :
    ∃ after, Checked.compactFilesInRange config page.keys level files lsmt = .ok after ∧
      Leveled after ∧ (∀ other ≠ level, after.files other = lsmt.files other) ∧
      ∀ file ∈ inRange after.files low up level, ¬ CrossesPivot page file := by
  have fits := Checked.fits_filesInRange inv found
  have whole := (deepest_of_found inv found).whole
  refine ⟨_, Checked.compact_eq inv fits config page.keys, inv.compact fits config _,
    ?_, ?_⟩
  · intro other different
    rw [compact_files_of_ne fits config page.keys different]
    simp [unreadLevels, different]
  · intro file member
    obtain ⟨isFile, hits⟩ := List.mem_filter.mp member
    rw [(compact_files_perm inv fits config page.keys).mem_iff] at isFile
    rcases List.mem_append.mp isFile with isAdded | unread
    · exact not_crossesPivot_of_added inv fits config wellFormed isAdded
    · -- all files of the level in the range have been read
      obtain ⟨stays, notDeleted⟩ := List.mem_filter.mp unread
      have isRead : file ∈ files := by
        rw [whole]
        exact List.mem_filter.mpr ⟨stays, hits⟩
      rw [if_pos rfl] at notDeleted
      simp only [List.contains_eq_mem, Bool.not_eq_true', decide_eq_false_iff_not] at notDeleted
      exact absurd (List.mem_map_of_mem isRead) notDeleted

variable {place : Place} {selection : Selection} (kept : Kept place low up selection)

include kept

theorem compactInRange_spec (found :
    Checked.getFilesInRange selection.buffer.lsmt.files low up = some (level, files))
    (isAcross : across selection.page.items files = true) :
    ∃ next, compactInRange place low up level files selection = .ok next ∧
      Recompacted low up level selection next := by
  cases place with
  | root =>
      obtain ⟨wellFormed, isIndex⟩ := mayUpdateMinPivot_wellFormed kept.wellFormed kept.isIndex
        (kept.lowers rfl selection .refl level files found isAcross)
      obtain ⟨after, compacted, leveled, others, fits⟩ := compactFilesInRange_spec kept.leveled
        selection.buffer.config.toLsmtConfig wellFormed found
      simp only [compactInRange, compacted]
      refine ⟨_, rfl, ⟨?_, wellFormed, isIndex⟩, rfl, rfl, ?_, fits⟩
      · exact leveled.of_same rfl rfl rfl
      · exact fun other _ different => others other different
  | node =>
      have copied := leveled_copy kept.leveled
      obtain ⟨after, compacted, leveled, others, fits⟩ := compactFilesInRange_spec copied
        selection.buffer.config.toLsmtConfig kept.wellFormed
        (found_of_deepest copied (deepest_of_found kept.leveled found).copy)
      simp only [compactInRange, Buffer.copy, compacted]
      refine ⟨_, rfl, ⟨?_, kept.wellFormed, kept.isIndex⟩, rfl, rfl, ?_, fits⟩
      · exact leveled.of_same rfl rfl rfl
      · intro other inside different
        exact (others other different).trans (LeafFlush.copy_files inside)

end Compaction

/-! ## One round -/

section Round

variable {place : Place} {low up : Slice} {selection : Selection}
  (kept : Kept place low up selection)

/-- The deepest level with a file in the range, counted from one. -/
def depthInRange (low up : Slice) (selection : Selection) : Nat :=
  ((Checked.getFilesInRange selection.buffer.lsmt.files low up).map
    (fun found => found.1 + 1)).getD 0

/-- What is lowered later is lowered in the rounds that are left. -/
theorem LowersWell.tail {next : Selection} (well : LowersWell low up selection)
    (empties : Empties .root low up selection next) : LowersWell low up next :=
  fun later reached => well later (.head empties reached)

/-- The results so far do not matter. -/
theorem LowersWell.choose (well : LowersWell low up selection) (levelOfFiles : Option Nat)
    (files : List FileMetaData) :
    LowersWell low up { selection with levelOfFiles := levelOfFiles, files := files } := by
  intro later reached
  rcases Relation.ReflTransGen.cases_head reached with rfl | ⟨next, empties, rest⟩
  · exact well selection .refl
  · exact well later (.head empties rest)

/-- A good result of the loop. -/
def Good (low up : Slice) (result : Except Halt Selection) : Prop :=
  ∃ done, result = .ok done ∧ Usable low up done

include kept

/-- Nothing is done for files that pass the check. -/
theorem hotRound_of_passes {level : Nat} {files : List FileMetaData} (found :
    Checked.getFilesInRange selection.buffer.lsmt.files low up = some (level, files))
    (passes : across selection.page.items files = false) :
    hotRound place low up selection =
      .settle { selection with levelOfFiles := some level, files := files }
        (.ok { selection with levelOfFiles := some level, files := files }) := by
  rw [hotRound, found]
  simp only [passes, Bool.false_eq_true, if_false]
  cases place with
  | node => rfl
  | root =>
      cases files with
      | nil => rfl
      | cons first files =>
          simp only [mayUpdateMinPivot_of_passes kept.wellFormed passes]

theorem hotRound_of_across {level : Nat} {files : List FileMetaData} (found :
    Checked.getFilesInRange selection.buffer.lsmt.files low up = some (level, files))
    (isAcross : across selection.page.items files = true) :
    ∃ next, compactInRange place low up level files selection = .ok next ∧
      Recompacted low up level selection next ∧ hotRound place low up selection =
        if (Checked.getFilesInRange next.buffer.lsmt.files low up).map Prod.fst = some level
        then .leave (.ok next) else .again next := by
  obtain ⟨next, compacted, done⟩ := compactInRange_spec kept found isAcross
  refine ⟨next, compacted, done, ?_⟩
  rw [hotRound, found]
  simp only [isAcross, if_true, compacted]

theorem settles_iff : Lib.Settles (hotRound place low up) selection ↔
    ∃ level files,
      Checked.getFilesInRange selection.buffer.lsmt.files low up = some (level, files) ∧
        across selection.page.items files = false := by
  constructor
  · rintro ⟨next, done, isSettle⟩
    cases found : Checked.getFilesInRange selection.buffer.lsmt.files low up with
    | none =>
        rw [hotRound, found] at isSettle
        cases isSettle
    | some answer =>
        obtain ⟨level, files⟩ := answer
        refine ⟨level, files, rfl, ?_⟩
        by_contra isAcross
        obtain ⟨after, -, -, round⟩ :=
          @hotRound_of_across place low up _ kept _ _ found (Bool.not_eq_false _ ▸ isAcross)
        rw [round] at isSettle
        split at isSettle <;> cases isSettle
  · rintro ⟨level, files, found, passes⟩
    exact ⟨_, _, hotRound_of_passes kept found passes⟩

/-- Files that pass the check are usable unless it overlooks a crossing. -/
theorem usable_of_passes_iff {level : Nat} {files : List FileMetaData} (found :
    Checked.getFilesInRange selection.buffer.lsmt.files low up = some (level, files)) :
    Usable low up { selection with levelOfFiles := some level, files := files } ↔
      ∀ file ∈ files, ¬ CrossesPivot selection.page file := by
  have deepest := deepest_of_found kept.leveled found
  constructor
  · rintro (⟨empty, -⟩ | ⟨-, other, -, -, each⟩)
    · exact absurd empty deepest.nonempty
    · exact fun file member => (each file member).2.2
  · intro clear
    refine .inr ⟨deepest.nonempty, level, deepest.inside, rfl, ?_⟩
    intro file member
    have isFound : file ∈ inRange selection.buffer.lsmt.files low up level :=
      deepest.whole ▸ member
    obtain ⟨inside, hits⟩ := List.mem_filter.mp isFound
    exact ⟨inside, hits, clear file member⟩

omit kept in
/-- Deeper levels have nothing in the range, neither before nor after. -/
theorem Recompacted.deepest_after {level : Nat} {files : List FileMetaData}
    {before after : Selection} (recompacted : Recompacted low up level before after)
    (deepest : Deepest before.buffer.lsmt.files low up level files) {later : Nat}
    {choice : List FileMetaData}
    (found : Deepest after.buffer.lsmt.files low up later choice) : later ≤ level := by
  by_contra deeper
  have empty := deepest.deeper later found.inside (not_le.mp deeper)
  rw [inRange, ← recompacted.others later found.inside (by omega)] at empty
  exact found.nonempty (found.whole.trans empty)

omit kept in
/-- The same level is found again unless it has no more files in the range. -/
theorem Recompacted.same_iff {level : Nat} {files : List FileMetaData}
    {before after : Selection} (recompacted : Recompacted low up level before after)
    (deepest : Deepest before.buffer.lsmt.files low up level files) :
    (Checked.getFilesInRange after.buffer.lsmt.files low up).map Prod.fst = some level ↔
      inRange after.buffer.lsmt.files low up level ≠ [] := by
  cases later : Checked.getFilesInRange after.buffer.lsmt.files low up with
  | none =>
      refine iff_of_false (by simp) (not_not.mpr ?_)
      exact inRange_of_none recompacted.sound.leveled later level deepest.inside
  | some answer =>
      obtain ⟨place, choice⟩ := answer
      have found := deepest_of_found recompacted.sound.leveled later
      rw [Option.map_some, Option.some_inj]
      constructor
      · rintro rfl
        exact found.whole ▸ found.nonempty
      · intro nonempty
        rcases (recompacted.deepest_after deepest found).lt_or_eq with above | same
        · exact absurd (found.deeper level deepest.inside above) nonempty
        · exact same

/-- Another round is asked for when the level is emptied. -/
theorem again_iff {next : Selection} :
    Lib.Again (hotRound place low up) selection next ↔ Empties place low up selection next := by
  constructor
  · intro isAgain
    rw [Lib.Again] at isAgain
    cases found : Checked.getFilesInRange selection.buffer.lsmt.files low up with
    | none =>
        rw [hotRound, found] at isAgain
        cases isAgain
    | some answer =>
        obtain ⟨level, files⟩ := answer
        cases isAcross : across selection.page.items files with
        | false =>
            rw [hotRound_of_passes kept found isAcross] at isAgain
            cases isAgain
        | true =>
            obtain ⟨after, compacted, recompacted, round⟩ :=
              @hotRound_of_across place low up _ kept _ _ found isAcross
            rw [round] at isAgain
            split at isAgain
            · cases isAgain
            · rename_i other
              cases isAgain
              rw [recompacted.same_iff (deepest_of_found kept.leveled found), not_not] at other
              exact ⟨level, files, found, isAcross, compacted, other⟩
  · rintro ⟨level, files, found, isAcross, compacted, emptied⟩
    obtain ⟨after, same, recompacted, round⟩ :=
      @hotRound_of_across place low up _ kept _ _ found isAcross
    rw [compacted] at same
    cases same
    rw [Lib.Again, round, if_neg]
    rw [recompacted.same_iff (deepest_of_found kept.leveled found), not_not]
    exact emptied

/-- A compaction that empties its level makes the rest of the search shorter. -/
theorem Empties.spec {next : Selection} (empties : Empties place low up selection next) :
    Kept place low up next ∧ depthInRange low up next < depthInRange low up selection := by
  have lowers : place = .root → LowersWell low up next := by
    rintro rfl
    exact (kept.lowers rfl).tail empties
  obtain ⟨level, files, found, isAcross, compacted, emptied⟩ := empties
  obtain ⟨after, same, recompacted⟩ := compactInRange_spec kept found isAcross
  rw [compacted] at same
  cases same
  refine ⟨⟨recompacted.sound, lowers⟩, ?_⟩
  have deepest := deepest_of_found kept.leveled found
  have isDepth : depthInRange low up selection = level + 1 := by
    rw [depthInRange, found]
    rfl
  rw [isDepth]
  cases later : Checked.getFilesInRange next.buffer.lsmt.files low up with
  | none =>
      rw [depthInRange, later]
      exact Nat.succ_pos _
  | some answer =>
      obtain ⟨other, choice⟩ := answer
      have notSame := mt (recompacted.same_iff deepest).mp (not_not.mpr emptied)
      rw [later, Option.map_some, Option.some_inj] at notSame
      have notDeeper := recompacted.deepest_after deepest
        (deepest_of_found recompacted.sound.leveled later)
      rw [depthInRange, later, Option.map_some, Option.getD_some]
      omega

omit kept in
theorem Recompacted.usable {level : Nat} {before after : Selection}
    (recompacted : Recompacted low up level before after)
    (same : (Checked.getFilesInRange after.buffer.lsmt.files low up).map Prod.fst = some level) :
    Usable low up after := by
  cases later : Checked.getFilesInRange after.buffer.lsmt.files low up with
  | none => simp [later] at same
  | some answer =>
      obtain ⟨place, files⟩ := answer
      have isFiles := recompacted.files
      rw [later] at same isFiles
      obtain rfl : place = level := Option.some.inj same
      have deepest := deepest_of_found recompacted.sound.leveled later
      have isChoice : after.files = inRange after.buffer.lsmt.files low up place :=
        isFiles.trans deepest.whole
      refine .inr ⟨fun empty => deepest.nonempty (isFiles.symm.trans empty), place,
        deepest.inside, recompacted.levelOfFiles, ?_⟩
      intro file member
      rw [isChoice] at member
      obtain ⟨inside, hits⟩ := List.mem_filter.mp member
      exact ⟨inside, hits, recompacted.fits file member⟩

theorem usable_of_none
    (none : Checked.getFilesInRange selection.buffer.lsmt.files low up = none) :
    Usable low up { selection with
      buffer := { selection.buffer with hasHotspot := false }
      files := [] } := by
  refine .inl ⟨rfl, rfl, ?_⟩
  intro level inside file member
  have empty := inRange_of_none kept.leveled none level inside
  rw [inRange, List.filter_eq_nil_iff] at empty
  exact Bool.not_eq_true _ ▸ empty file member

omit kept in
/-- The rounds keep what the loop relies on, and a compaction that asks for another round
leaves nothing in the range as deep as before. -/
theorem retries (place : Place) (low up : Slice) :
    Lib.Retries (hotRound place low up) (Good low up) (Kept place low up)
      (depthInRange low up) where
  settled here next done kept isSettle := by
    obtain ⟨level, files, found, passes⟩ := (settles_iff kept).mp ⟨next, done, isSettle⟩
    rw [hotRound_of_passes kept found passes] at isSettle
    cases isSettle
    have nextKept : Kept place low up
        { here with levelOfFiles := some level, files := files } :=
      ⟨⟨kept.leveled, kept.wellFormed, kept.isIndex⟩,
        fun isRoot => (kept.lowers isRoot).choose _ _⟩
    exact ⟨nextKept, (settles_iff nextKept).mpr ⟨level, files, found, passes⟩⟩
  worked here next kept isAgain := ((again_iff kept).mp isAgain).spec kept
  left here done kept isLeave := by
    cases found : Checked.getFilesInRange here.buffer.lsmt.files low up with
    | none =>
        rw [hotRound, found] at isLeave
        cases isLeave
        exact ⟨_, rfl, usable_of_none kept found⟩
    | some answer =>
        obtain ⟨level, files⟩ := answer
        cases isAcross : across here.page.items files with
        | false =>
            rw [hotRound_of_passes kept found isAcross] at isLeave
            cases isLeave
        | true =>
            obtain ⟨after, -, recompacted, round⟩ :=
              @hotRound_of_across place low up _ kept _ _ found isAcross
            rw [round] at isLeave
            split at isLeave
            · rename_i same
              cases isLeave
              exact ⟨_, rfl, recompacted.usable same⟩
            · cases isLeave

end Round

/-! ## The loop -/

section Loop

variable {place : Place} {low up : Slice} {selection : Selection}
  (kept : Kept place low up selection)

include kept

theorem reaches_iff {later : Selection} :
    Relation.TransGen (Lib.Again (hotRound place low up)) selection later ↔
      Relation.TransGen (Empties place low up) selection later := by
  constructor
  · apply Lib.transGen_of_kept _ kept
    intro here next isKept isAgain
    have empties := (again_iff isKept).mp isAgain
    exact ⟨empties, (empties.spec isKept).1⟩
  · apply Lib.transGen_of_kept _ kept
    intro here next isKept empties
    exact ⟨(again_iff isKept).mpr empties, (empties.spec isKept).1⟩

theorem kept_of_reaches {later : Selection}
    (reached : Relation.TransGen (Empties place low up) selection later) :
    Kept place low up later := by
  induction reached with
  | single empties => exact (empties.spec kept).1
  | tail _ empties ih => exact (empties.spec ih).1

/-- The loop returns a usable choice exactly when crossing files stay crossing. -/
theorem endsWell_iff_keepsCrossing :
    Lib.EndsWell (hotRound place low up) (Good low up) false selection ↔
      KeepsCrossing place low up selection := by
  rw [(retries place low up).endsWell_iff kept]
  constructor
  · rintro ⟨first, never⟩
    refine ⟨?_, ?_⟩
    · intro level files found passes
      obtain ⟨done, isDone, usable⟩ := first _ _ (hotRound_of_passes kept found passes)
      cases isDone
      exact (usable_of_passes_iff kept found).mp usable
    · intro later reached level files found
      by_contra passes
      exact never later ((reaches_iff kept).mpr reached)
        ((settles_iff (kept_of_reaches kept reached)).mpr ⟨level, files, found,
          Bool.not_eq_true _ ▸ passes⟩)
  · rintro ⟨first, further⟩
    refine ⟨?_, ?_⟩
    · intro next done isSettle
      obtain ⟨level, files, found, passes⟩ := (settles_iff kept).mp ⟨next, done, isSettle⟩
      rw [hotRound_of_passes kept found passes] at isSettle
      cases isSettle
      exact ⟨_, rfl, (usable_of_passes_iff kept found).mpr (first level files found passes)⟩
    · intro later reached settles
      rw [reaches_iff kept] at reached
      obtain ⟨level, files, found, passes⟩ :=
        (settles_iff (kept_of_reaches kept reached)).mp settles
      rw [further later reached level files found] at passes
      cases passes

omit kept in
theorem selects_retry_iff (default : Selection → Option (Except Halt Selection))
    (nonempty : low ≠ [] ∧ up ≠ []) :
    Selects low up (fun fuel selection => if low.isEmpty || up.isEmpty then default selection
      else Lib.retry (hotRound place low up) fuel false selection) selection ↔
      Lib.EndsWell (hotRound place low up) (Good low up) false selection := by
  have isRange : ¬ (low.isEmpty || up.isEmpty) = true := by
    simp [nonempty]
  simp only [Selects, if_neg isRange, Lib.EndsWell, Good]
  constructor
  · rintro ⟨fuel, done, ended, usable⟩
    exact ⟨fuel, .ok done, ended, done, rfl, usable⟩
  · rintro ⟨fuel, result, ended, done, rfl, usable⟩
    exact ⟨fuel, done, ended, usable⟩

omit kept in
theorem not_empties_of_stays {level : Nat} {files : List FileMetaData}
    (found : Checked.getFilesInRange selection.buffer.lsmt.files low up = some (level, files))
    (stays : ∃ next, compactInRange place low up level files selection = .ok next ∧
      inRange next.buffer.lsmt.files low up level ≠ []) (next : Selection) :
    ¬ Empties place low up selection next := by
  rintro ⟨other, choice, same, -, compacted, emptied⟩
  obtain ⟨after, done, nonempty⟩ := stays
  rw [found] at same
  cases same
  rw [compacted] at done
  cases done
  exact nonempty emptied

omit kept in
/-- It is enough that the first compaction leaves a file of its level in the range. -/
theorem keepsCrossing_of_stays {level : Nat} {files : List FileMetaData}
    (found : Checked.getFilesInRange selection.buffer.lsmt.files low up = some (level, files))
    (isAcross : across selection.page.items files = true)
    (stays : ∃ next, compactInRange place low up level files selection = .ok next ∧
      inRange next.buffer.lsmt.files low up level ≠ []) :
    KeepsCrossing place low up selection where
  first other choice same passes := by
    rw [found] at same
    cases same
    rw [isAcross] at passes
    cases passes
  later later reached := by
    obtain ⟨next, empties, -⟩ := Relation.TransGen.head'_iff.mp reached
    exact absurd empties (not_empties_of_stays found stays next)

omit kept in
/-- Without further rounds only one key is put in the place of the first pivot. -/
theorem lowersWell_of_last (lowers : ∀ level files,
      Checked.getFilesInRange selection.buffer.lsmt.files low up = some (level, files) →
      across selection.page.items files = true → selection.page.CanLower (fileMinKey files))
    (last : ∀ next, ¬ Empties .root low up selection next) : LowersWell low up selection := by
  intro later reached
  rcases Relation.ReflTransGen.cases_head reached with rfl | ⟨next, empties, -⟩
  · exact lowers
  · exact absurd empties (last next)

end Loop

/-- Both functions return a usable choice exactly when files that cross pivots are not
followed by files that do not.  The function for the root is to find keys that can be put
in the place of the first pivot. -/
theorem selects_iff_keepsCrossing (default : Selection → Option (Except Halt Selection))
    {low up : Slice} (nonempty : low ≠ [] ∧ up ≠ []) {selection : Selection}
    (leveled : Leveled selection.buffer.lsmt) (wellFormed : Slotted.WellFormed selection.page)
    (isIndex : selection.page.isLeaf = false) :
    (LowersWell low up selection →
        (Selects low up (compactRootBufferForFlush default low up) selection ↔
          KeepsCrossing .root low up selection)) ∧
      (Selects low up (compactNodeBufferForFlush default low up) selection ↔
        KeepsCrossing .node low up selection) := by
  constructor
  · intro well
    have kept : Kept .root low up selection := ⟨⟨leveled, wellFormed, isIndex⟩, fun _ => well⟩
    exact (selects_retry_iff default nonempty).trans (endsWell_iff_keepsCrossing kept)
  · have kept : Kept .node low up selection :=
      ⟨⟨leveled, wellFormed, isIndex⟩, fun isRoot => nomatch isRoot⟩
    exact (selects_retry_iff default nonempty).trans (endsWell_iff_keepsCrossing kept)

/-! ## Two levels -/

def twoLevelSelection (upper lower : ValueType) (page : Page) : Selection where
  buffer := {
    config := { RootLsmt.smallTables 3 with status := .kBuffer, leafLimit := 4 }
    lsmt := twoLevels upper lower
    hasHotspot := true }
  page := page
  levelOfFiles := none
  files := []

/-- Values at level 2 are parted by the compaction and stay in the range. -/
theorem selects_twoValues :
    Selects [8] [10] (compactRootBufferForFlush (fun _ => none) [8] [10])
        (twoLevelSelection .kTypeValue .kTypeValue Slotted.twoPivotPage) ∧
      Selects [8] [10] (compactNodeBufferForFlush (fun _ => none) [8] [10])
        (twoLevelSelection .kTypeValue .kTypeValue Slotted.twoPivotPage) := by
  have stays : ∀ place, ∃ next, compactInRange place [8] [10] 2
      [twoFile .kTypeValue 1 1]
      (twoLevelSelection .kTypeValue .kTypeValue Slotted.twoPivotPage) = .ok next ∧
        inRange next.buffer.lsmt.files [8] [10] 2 ≠ [] := by
    intro place
    cases place with
    | root => exact ⟨_, rfl, by decide +kernel⟩
    | node => exact ⟨_, rfl, by decide +kernel⟩
  have well : LowersWell [8] [10]
      (twoLevelSelection .kTypeValue .kTypeValue Slotted.twoPivotPage) := by
    refine lowersWell_of_last ?_ (not_empties_of_stays rfl (stays .root))
    intro level files found _
    cases found
    exact twoPivotPage_canLower (by decide)
  obtain ⟨root, node⟩ := @selects_iff_keepsCrossing (fun _ => none) [8] [10]
    ⟨by decide, by decide⟩ (twoLevelSelection .kTypeValue .kTypeValue Slotted.twoPivotPage)
    (twoLevels_leveled _ _) Slotted.twoPivotPage_wellFormed rfl
  exact ⟨(root well).mpr (keepsCrossing_of_stays rfl (by decide) (stays .root)),
    node.mpr (keepsCrossing_of_stays rfl (by decide) (stays .node))⟩

/-! A root page with one pivot inside the file of each level. -/

def innerPivotPage : Page :=
  ((Slotted.pageInit 3 fun _ => 0).writeEntryAt 0 ([9], .child 1)).addItem

theorem innerPivotPage_wellFormed : Slotted.WellFormed innerPivotPage := by
  have one : Slotted.Inserted _ innerPivotPage ([9], .child 1) :=
    Slotted.insertIndexEntry_inserted (Slotted.wellFormed_pageInit 3 false fun _ => 0) rfl
      (by simp [Page.keys, Page.entries, Page.ids, Slotted.pageInit]) rfl
  exact one.wellFormed

/-- The deletions of level 2 are all dropped, and what is found then passes the check. -/
theorem innerPivot_round : ∃ next,
    compactInRange .root [8] [10] 2 [twoFile .kTypeDeletion 1 1]
        (twoLevelSelection .kTypeValue .kTypeDeletion innerPivotPage) = .ok next ∧
      inRange next.buffer.lsmt.files [8] [10] 2 = [] ∧
      Checked.getFilesInRange next.buffer.lsmt.files [8] [10] =
        some (1, [twoFile .kTypeValue 2 3]) ∧
      across next.page.items [twoFile .kTypeValue 2 3] = false :=
  ⟨_, rfl, rfl, rfl, by decide +kernel⟩

theorem innerPivot_lowersWell : LowersWell [8] [10]
    (twoLevelSelection .kTypeValue .kTypeDeletion innerPivotPage) := by
  obtain ⟨next, compacted, -, found, passes⟩ := innerPivot_round
  have settled : ∀ level files,
      Checked.getFilesInRange next.buffer.lsmt.files [8] [10] = some (level, files) →
      across next.page.items files = true → False := by
    intro level files same isAcross
    rw [found] at same
    cases same
    rw [passes] at isAcross
    cases isAcross
  intro later reached
  rcases Relation.ReflTransGen.cases_head reached with rfl | ⟨other, empties, rest⟩
  · intro level files isFound _
    cases isFound
    exact fun _ _ => .inl (by decide)
  · obtain ⟨level, files, isFound, -, done, -⟩ := empties
    cases isFound
    obtain rfl : next = other := Except.ok.inj (compacted.symm.trans done)
    rcases Relation.ReflTransGen.cases_head rest with rfl | ⟨further, again, -⟩
    · exact fun level files same isAcross => (settled level files same isAcross).elim
    · obtain ⟨level, files, same, isAcross, -⟩ := again
      exact (settled level files same isAcross).elim

/-- Deletions at level 2 are all dropped, and the file of level 1 crosses no pivot once
the first one is lowered. -/
theorem not_selects_over_deletions :
    ¬ ∀ (default : Selection → Option (Except Halt Selection)) (low up : Slice)
      (selection : Selection), low ≠ [] ∧ up ≠ [] → Leveled selection.buffer.lsmt →
        Slotted.WellFormed selection.page → selection.page.isLeaf = false →
          Selects low up (compactRootBufferForFlush default low up) selection ∧
            Selects low up (compactNodeBufferForFlush default low up) selection := by
  intro always
  have leveled := twoLevels_leveled .kTypeValue .kTypeDeletion
  have selects := (always (fun _ => none) [8] [10]
    (twoLevelSelection .kTypeValue .kTypeDeletion innerPivotPage) ⟨by decide, by decide⟩ leveled
    innerPivotPage_wellFormed rfl).1
  have kept : Kept .root [8] [10]
      (twoLevelSelection .kTypeValue .kTypeDeletion innerPivotPage) :=
    ⟨⟨leveled, innerPivotPage_wellFormed, rfl⟩, fun _ => innerPivot_lowersWell⟩
  have keeps := (endsWell_iff_keepsCrossing kept).mp
    ((selects_retry_iff (fun _ => none) ⟨by decide, by decide⟩).mp selects)
  obtain ⟨next, compacted, emptied, found, passes⟩ := innerPivot_round
  have isAcross := keeps.later next
    (.single ⟨2, _, rfl, by decide +kernel, compacted, emptied⟩) 1 _ found
  rw [passes] at isAcross
  cases isAcross

end HotOnlyAdapt

end AhaTree
