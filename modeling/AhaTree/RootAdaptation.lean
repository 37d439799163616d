import AhaTree.HotSelection

/-!
# Moving the root LSMT into the tree

A hot scan schedules `AdaptLSMT`, which prepares the files of the bottom level
and hands them to the children of the root.  Files that cross pivots are compacted
by the pivots of the root page, but the first pivot is lowered before that, to the
first key of the first file in the list.  The list can be empty, its first file need
not have the smallest key, and the compaction can leave another level at the bottom.
-/

namespace AhaTree

open Lsmt
open Slotted (Page)

namespace DefaultAdapt

/-! ## Scheduling -/

/-- What a scan looks at before it schedules work on the root LSMT. -/
structure ReadState where
  memEmpty : Bool
  memColdOnly : Bool
  hasImm : Bool
  immColdOnly : Bool
  pushdownLsmtScheduled : Bool
  treeHeight : Nat

/-- `DefaultAdapt::HasTargetData`. -/
def hasTargetData (_ : Lsmt) : Bool := true

/-- `BplusTree::AddLSMTCompactionWork`, and whether `AdaptLSMT` is queued. -/
def addLSMTCompactionWork (state : ReadState) : Bool × ReadState :=
  if !state.memEmpty || state.hasImm || state.pushdownLsmtScheduled then (false, state)
  else (true, { state with pushdownLsmtScheduled := true })

/-- `DefaultAdapt::ScheduleLSMTAdapt`, with its assertion. -/
def scheduleLSMTAdapt (state : ReadState) : Option (Bool × ReadState) :=
  if 1 < state.treeHeight then some (addLSMTCompactionWork state) else none

/-- What `DoAddLSMTtoIter` does: whether the LSMT is added to the iterators, whether
`AdaptLSMT` is queued, and the state then. -/
structure AddedLSMT where
  toIter : Bool
  queued : Bool
  state : ReadState

/-- `BplusTreeReadOptState::DoAddLSMTtoIter`. -/
def doAddLSMTtoIter (lsmt : Lsmt) (hasHotspot isHot : Bool) (state : ReadState) :
    Option AddedLSMT :=
  let toIter := !(isHot && !hasHotspot || (getBottomLevel lsmt.files).isNone)
  if !state.memEmpty && isHot && !state.memColdOnly then some ⟨toIter, false, state⟩
  else if state.hasImm && isHot && !state.immColdOnly then some ⟨toIter, false, state⟩
  else if isHot && hasTargetData lsmt then
    (scheduleLSMTAdapt state).map fun (queued, state) => ⟨toIter, queued, state⟩
  else some ⟨toIter, false, state⟩

/-! ## The work -/

/-- What ends the program. -/
inductive Crash where
  | lsmt (halt : Halt)
  | outOfRange
  | filesAcrossPivots
  | lastPivot
  deriving DecidableEq, Repr

/-- The files that are to be flushed, with their level, the root page and the LSMT. -/
structure Prepared where
  page : Page
  lsmt : Lsmt
  levelOfFiles : Option Nat
  files : List FileMetaData

/-- `GetAllBottomLevelFiles`. -/
def allBottomLevelFiles (page : Page) (lsmt : Lsmt) : Prepared where
  page := page
  lsmt := lsmt
  levelOfFiles := getBottomLevel lsmt.files
  files := getBottomLevelFiles lsmt.files

/-- `DefaultAdapt::CompactRootBufferForFlush`. -/
def compactRootBufferForFlush (config : LsmtConfig) (page : Page) (lsmt : Lsmt) :
    Except Crash Prepared :=
  let prepared := allBottomLevelFiles page lsmt
  if prepared.files.isEmpty || HotOnlyAdapt.across page.items prepared.files then
    match prepared.files with
    -- files->at(0) of an empty list
    | [] => .error .outOfRange
    | first :: _ =>
        let page := page.mayUpdateMinPivot first.start
        match Checked.compactBottomLevel config (some page.keys) lsmt with
        | .error halt => .error (.lsmt halt)
        | .ok after => .ok (allBottomLevelFiles page { after with obsoleteFiles := [] })
  else .ok prepared

/-- `BplusTree::FlushLSMTfilesToBol`, up to the files that each child of the root gets. -/
def flushLSMTfilesToBol (page : Page) (files : List FileMetaData) :
    Except Crash (List (PageId × List FileMetaData)) :=
  if HotOnlyAdapt.across page.items files then .error .filesAcrossPivots
  else
    match flushFilesToChildrenNoSplit page.items files with
    | none => .error .lastPivot
    | some flushed => .ok flushed

/-- `DefaultAdapt::AdaptLSMT`. -/
def adaptLSMT (config : LsmtConfig) (page : Page) (lsmt : Lsmt) :
    Except Crash (Prepared × List (PageId × List FileMetaData)) := do
  let prepared ← compactRootBufferForFlush config page lsmt
  if prepared.files.isEmpty then pure (prepared, [])
  else
    let flushed ← flushLSMTfilesToBol prepared.page prepared.files
    pure (prepared, flushed)

/-- Whenever a scan schedules it, `AdaptLSMT` gets through. -/
def AdaptsSafely (config : LsmtConfig) (page : Page) (lsmt : Lsmt) : Prop :=
  ∀ hasHotspot isHot state added, doAddLSMTtoIter lsmt hasHotspot isHot state = some added →
    added.queued = true → ∃ done, adaptLSMT config page lsmt = .ok done

/-! ## What decides -/

/-- What a compaction of the bottom level keeps: the newest entry of each key, if it is
a value. -/
def survivors (lsmt : Lsmt) (level : Nat) : List Entry :=
  (firstVersions none (mergedInput lsmt.tables (wholeLevel lsmt.files level))).filter
    fun entry => entry.key.type == .kTypeValue

/-- The compaction helps: what is left of the level does not reach below the first pivot
as it has been lowered, and if nothing is left, the files of the level above pass. -/
structure Recovers (page : Page) (lsmt : Lsmt) (level : Nat) (first : FileMetaData) :
    Prop where
  notBelow : ∀ smallest ∈ (page.mayUpdateMinPivot first.start).keys.head?,
    ∀ entry ∈ survivors lsmt level, smallest ≤ entry.userKey
  above : survivors lsmt level = [] →
    ¬ Caught (page.mayUpdateMinPivot first.start).items
      (getBottomLevelFiles (Function.update lsmt.files level []))

/-- The LSMT has a file, and the files of its bottom level pass the check, or their
compaction helps. -/
def Adaptable (page : Page) (lsmt : Lsmt) : Prop :=
  ∃ level first files, getBottomLevel lsmt.files = some level ∧
    lsmt.files level = first :: files ∧
      (Caught page.items (first :: files) → Recovers page lsmt level first)

/-- The start of the first file in the list can be put in the place of the first pivot. -/
def CanLower (page : Page) (lsmt : Lsmt) : Prop :=
  ∀ first ∈ (getBottomLevelFiles lsmt.files).head?, page.CanLower first.start

/-! ## The schedule does not look at the LSMT -/

theorem queued_iff {lsmt : Lsmt} {hasHotspot isHot : Bool} {state : ReadState} :
    (∃ added, doAddLSMTtoIter lsmt hasHotspot isHot state = some added ∧
      added.queued = true) ↔
      isHot = true ∧ state.memEmpty = true ∧ state.hasImm = false ∧
        state.pushdownLsmtScheduled = false ∧ 1 < state.treeHeight := by
  obtain ⟨memEmpty, memColdOnly, hasImm, immColdOnly, scheduled, treeHeight⟩ := state
  by_cases high : 1 < treeHeight
  · cases isHot <;> cases memEmpty <;> cases hasImm <;> cases scheduled <;>
      cases memColdOnly <;> cases immColdOnly <;>
      simp [doAddLSMTtoIter, scheduleLSMTAdapt, addLSMTCompactionWork, hasTargetData, high]
  · cases isHot <;> cases memEmpty <;> cases hasImm <;> cases memColdOnly <;>
      cases immColdOnly <;>
      simp [doAddLSMTtoIter, scheduleLSMTAdapt, hasTargetData, high]

theorem adaptsSafely_iff_adapts (config : LsmtConfig) (page : Page) (lsmt : Lsmt) :
    AdaptsSafely config page lsmt ↔ ∃ done, adaptLSMT config page lsmt = .ok done := by
  constructor
  · intro safely
    obtain ⟨added, isAdded, queued⟩ := (@queued_iff lsmt true true
      ⟨true, true, false, true, false, 2⟩).mpr ⟨rfl, rfl, rfl, rfl, Nat.one_lt_two⟩
    exact safely _ _ _ added isAdded queued
  · intro done hasHotspot isHot state added isAdded queued
    exact done

/-! ## The check and the flush -/

/-- Files that the check does not catch reach the children without the last assertion. -/
theorem flushLSMTfilesToBol_ok_iff {page : Page}
    (increasing : (pivots page.items).Pairwise (· < ·)) (files : List FileMetaData) :
    (∃ flushed, flushLSMTfilesToBol page files = .ok flushed) ↔ ¬ Caught page.items files := by
  rw [flushLSMTfilesToBol, ← HotOnlyAdapt.across_iff increasing]
  by_cases isAcross : HotOnlyAdapt.across page.items files = true
  · rw [if_pos isAcross]
    simp [isAcross]
  · have notCaught : ¬ Caught page.items files := by
      rwa [← HotOnlyAdapt.across_iff increasing]
    have flushed := @flushFilesToChildrenNoSplit_eq page.items files (by
      intro pivot child file single isHead
      rw [← not_lt]
      intro below
      refine notCaught (.inr (.inl ⟨pivot, ?_, file, isHead, below⟩))
      simp [single])
    rw [if_neg isAcross, flushed]
    exact iff_of_true ⟨_, rfl⟩ isAcross

/-! ## What the compaction leaves -/

section Bottom

variable {lsmt : Lsmt} (inv : Leveled lsmt) {level : Nat}
  (isBottom : getBottomLevel lsmt.files = some level)

theorem mem_survivors {entry : Entry} : entry ∈ survivors lsmt level ↔
    entry ∈ firstVersions none (mergedInput lsmt.tables (wholeLevel lsmt.files level)) ∧
      entry.IsValue := by
  rw [survivors, List.mem_filter, beq_iff_eq, Entry.IsValue]

theorem holdsLive_iff_survivors :
    holdsLive none (mergedInput lsmt.tables (wholeLevel lsmt.files level)) = true ↔
      survivors lsmt level ≠ [] := by
  rw [holdsLive_iff]
  constructor
  · rintro ⟨entry, isFirst, isValue⟩ nothing
    have member := mem_survivors.mpr ⟨isFirst, isValue⟩
    rw [nothing] at member
    cases member
  · intro something
    obtain ⟨entry, member⟩ := List.exists_mem_of_ne_nil _ something
    exact ⟨entry, mem_survivors.mp member⟩

include inv isBottom

theorem mem_outputs_iff_survivors (config : LsmtConfig) (guards : List Slice) {entry : Entry} :
    entry ∈ (bottomOutputs config guards lsmt level).flatten ↔ entry ∈ survivors lsmt level :=
  (mem_bottomOutputs_iff inv isBottom config guards).trans mem_survivors.symm

/-- The first of the new files starts with the smallest key that is left. -/
theorem exists_start_below_iff (config : LsmtConfig) (guards : List Slice)
    {smallest : Slice} :
    (∃ file ∈ (outputFiles config lsmt.fileId
        (bottomOutputs config guards lsmt level)).head?, file.start < smallest) ↔
      ∃ entry ∈ survivors lsmt level, entry.userKey < smallest := by
  have fits : Fits lsmt.files (wholeLevel lsmt.files level) level := Checked.fits_whole level
  have strict : (bottomOutputs config guards lsmt level).flatten.Pairwise
      (fun front behind => front.userKey < behind.userKey) :=
    outputsOf_strict inv fits config guards
  have kept := fun entry : Entry => @mem_outputs_iff_survivors _ inv _ isBottom config guards entry
  simp only [← kept]
  cases outputs : bottomOutputs config guards lsmt level with
  | nil => simp [outputFiles]
  | cons output rest =>
      have filled : output ≠ [] :=
        outputsOf_filled config guards (outputs ▸ List.mem_cons_self)
      obtain ⟨file, isFile, files⟩ := outputFiles_cons config lsmt.fileId filled rest
      cases output with
      | nil => exact absurd rfl filled
      | cons first entries =>
          have starts : file.start = first.userKey := by
            cases isFile
            rfl
          have ahead : ∀ entry ∈ ((first :: entries) :: rest).flatten,
              first.userKey ≤ entry.userKey := by
            rw [outputs] at strict
            intro entry member
            rcases List.mem_cons.mp member with rfl | later
            · exact le_rfl
            · exact ((List.pairwise_cons.mp strict).1 entry later).le
          rw [files]
          constructor
          · rintro ⟨other, isOther, below⟩
            cases isOther
            exact ⟨first, by simp, starts ▸ below⟩
          · rintro ⟨entry, member, below⟩
            exact ⟨file, rfl, starts ▸ (ahead entry member).trans_lt below⟩

/-- New files are caught only below the first pivot. -/
theorem caught_outputs_iff (config : LsmtConfig) {items : IndexItems}
    (increasing : (pivots items).Pairwise (· < ·)) :
    Caught items (outputFiles config lsmt.fileId
        (bottomOutputs config (pivots items) lsmt level)) ↔
      ∃ smallest ∈ (pivots items).head?, ∃ entry ∈ survivors lsmt level,
        entry.userKey < smallest := by
  obtain ⟨inOrder, clear⟩ := @outputFiles_fit _ inv level config (pivots items) increasing
  simp only [← exists_start_below_iff inv isBottom config (pivots items)]
  rw [Caught, inOrder]
  constructor
  · rintro (outOfOrder | below | straddled)
    · cases outOfOrder
    · exact below
    · exact absurd straddled clear
  · exact fun below => .inr (.inl below)

/-- The files that are there after the compaction pass the check exactly if it helps. -/
theorem not_caught_compacted_iff (config : LsmtConfig) {page : Page} {first : FileMetaData}
    (lowered : Slotted.WellFormed (page.mayUpdateMinPivot first.start)) :
    ¬ Caught (page.mayUpdateMinPivot first.start).items
        (getBottomLevelFiles (lsmt.compact config (page.mayUpdateMinPivot first.start).keys
          (wholeLevel lsmt.files level) level).files) ↔
      Recovers page lsmt level first := by
  have increasing := HotOnlyAdapt.increasing_items lowered
  rw [bottomLevelFiles_eq inv isBottom, ← pivots_items]
  by_cases something : survivors lsmt level = []
  · have nothingLive : ¬ holdsLive none
        (mergedInput lsmt.tables (wholeLevel lsmt.files level)) = true :=
      fun live => holdsLive_iff_survivors.mp live something
    rw [if_neg nothingLive]
    refine ⟨fun passes => ⟨?_, fun _ => passes⟩, fun recovers => recovers.above something⟩
    intro smallest _ entry member
    rw [something] at member
    cases member
  · rw [if_pos (holdsLive_iff_survivors.mpr something),
      caught_outputs_iff inv isBottom config increasing]
    constructor
    · intro notBelow
      refine ⟨fun smallest isSmallest entry member => ?_, fun nothing => absurd nothing something⟩
      rw [← pivots_items] at isSmallest
      exact not_lt.mp fun below => notBelow ⟨smallest, isSmallest, entry, member, below⟩
    · rintro recovers ⟨smallest, isSmallest, entry, member, below⟩
      rw [pivots_items] at isSmallest
      exact absurd below (recovers.notBelow smallest isSmallest entry member).not_gt

end Bottom

/-- Above level 0 the first file has the smallest key, so that only deletions matter. -/
theorem Recovers.of_sorted {page : Page} (wellFormed : Slotted.WellFormed page)
    (isIndex : page.isLeaf = false) (nonempty : 0 < page.itemNum) {lsmt : Lsmt}
    (inv : Leveled lsmt) (canLower : CanLower page lsmt) {level : Nat}
    (isBottom : getBottomLevel lsmt.files = some level) (sorted : 0 < level)
    {first : FileMetaData} {files : List FileMetaData}
    (isFirst : lsmt.files level = first :: files) (left : survivors lsmt level ≠ []) :
    Recovers page lsmt level first where
  notBelow smallest isSmallest entry member := by
    have fits : Fits lsmt.files (wholeLevel lsmt.files level) level := Checked.fits_whole level
    have isInput := (firstVersions_sublist none _).subset (mem_survivors.mp member).1
    obtain ⟨file, isRead, stored⟩ := (mem_mergedInput inv fits).mp isInput
    rw [Compaction.reads, wholeLevel, List.append_nil] at isRead
    have apart := inv.apart level sorted
    have ahead : first.start ≤ file.start := by
      rw [isFirst] at isRead apart
      rcases List.mem_cons.mp isRead with rfl | later
      · exact le_rfl
      · exact first.start_le_limit.trans ((List.pairwise_cons.mp apart).1 file later).le
    have isHead : first ∈ (getBottomLevelFiles lsmt.files).head? := by
      rw [getBottomLevelFiles, isBottom, Option.map_some, Option.getD_some, isFirst]
      rfl
    obtain ⟨lowest, isKeys, lowered, -⟩ := mayUpdateMinPivot_keys wellFormed isIndex nonempty
      (canLower first isHead)
    rw [isKeys] at isSmallest
    obtain rfl : lowest = smallest := Option.some.inj isSmallest
    exact lowered.trans (ahead.trans ((inv.described level file isRead).start_le stored))
  above nothing := absurd nothing left

/-! ## The whole run -/

theorem not_caught_nil (items : IndexItems) : ¬ Caught items [] := by
  simp [Caught, filesInOrder, Straddled]

/-- With the files prepared, the run gets through exactly if the check lets them. -/
theorem adapts_iff_of_prepared {config : LsmtConfig} {page : Page} {lsmt : Lsmt}
    {prepared : Prepared}
    (isPrepared : compactRootBufferForFlush config page lsmt = .ok prepared)
    (increasing : (pivots prepared.page.items).Pairwise (· < ·)) :
    (∃ done, adaptLSMT config page lsmt = .ok done) ↔
      ¬ Caught prepared.page.items prepared.files := by
  have isRun : adaptLSMT config page lsmt =
      if prepared.files.isEmpty then .ok (prepared, [])
      else (flushLSMTfilesToBol prepared.page prepared.files).map fun flushed =>
        (prepared, flushed) := by
    rw [adaptLSMT, isPrepared]
    rfl
  rw [isRun]
  cases isFiles : prepared.files with
  | nil => exact iff_of_true ⟨_, rfl⟩ (not_caught_nil _)
  | cons first files =>
      rw [← flushLSMTfilesToBol_ok_iff increasing, List.isEmpty_cons, if_neg Bool.false_ne_true]
      cases flushLSMTfilesToBol prepared.page (first :: files) with
      | error crash => simp [Except.map]
      | ok flushed => simp [Except.map]

section Run

variable (config : LsmtConfig) {page : Page} (wellFormed : Slotted.WellFormed page)
  (isIndex : page.isLeaf = false) {lsmt : Lsmt} (inv : Leveled lsmt)
  (canLower : CanLower page lsmt)

include wellFormed isIndex inv canLower

/-- The run with files that the check has caught. -/
theorem adapts_iff_recovers {level : Nat} {first : FileMetaData} {files : List FileMetaData}
    (isBottom : getBottomLevel lsmt.files = some level)
    (isFirst : lsmt.files level = first :: files)
    (caught : Caught page.items (first :: files)) :
    (∃ done, adaptLSMT config page lsmt = .ok done) ↔ Recovers page lsmt level first := by
  have isFiles : getBottomLevelFiles lsmt.files = first :: files := by
    rw [getBottomLevelFiles, isBottom, Option.map_some, Option.getD_some, isFirst]
  have lowered : Slotted.WellFormed (page.mayUpdateMinPivot first.start) :=
    (mayUpdateMinPivot_wellFormed wellFormed isIndex
      (canLower first (by rw [isFiles]; rfl))).1
  have isAcross :=
    (HotOnlyAdapt.across_iff (HotOnlyAdapt.increasing_items wellFormed) _).mpr caught
  have isPrepared : compactRootBufferForFlush config page lsmt =
      .ok (allBottomLevelFiles (page.mayUpdateMinPivot first.start)
        { lsmt.compact config (page.mayUpdateMinPivot first.start).keys
            (wholeLevel lsmt.files level) level with obsoleteFiles := [] }) := by
    rw [compactRootBufferForFlush]
    simp only [allBottomLevelFiles, isFiles, isAcross, Bool.or_true, if_true,
      compactBottomLevel_eq inv isBottom]
  rw [adapts_iff_of_prepared isPrepared (HotOnlyAdapt.increasing_items lowered),
    ← not_caught_compacted_iff inv isBottom config lowered]
  rfl

/-- The run gets through exactly if there is a file, and the files pass the check or
their compaction helps. -/
theorem adapts_iff_adaptable :
    (∃ done, adaptLSMT config page lsmt = .ok done) ↔ Adaptable page lsmt := by
  cases isBottom : getBottomLevel lsmt.files with
  | none =>
      have noFile : getBottomLevelFiles lsmt.files = [] := by
        rw [getBottomLevelFiles, isBottom]
        rfl
      have outOfRange : adaptLSMT config page lsmt = .error .outOfRange := by
        rw [adaptLSMT, compactRootBufferForFlush]
        simp only [allBottomLevelFiles, noFile]
        rfl
      rw [outOfRange]
      refine iff_of_false ?_ ?_
      · rintro ⟨_, isDone⟩
        cases isDone
      · rintro ⟨level, first, files, isSome, -⟩
        rw [isBottom] at isSome
        cases isSome
  | some level =>
      obtain ⟨-, filled, -⟩ := getBottomLevel_eq_some isBottom
      obtain ⟨first, files, isFirst⟩ := List.exists_cons_of_ne_nil filled
      have adaptable : Adaptable page lsmt ↔
          (Caught page.items (first :: files) → Recovers page lsmt level first) := by
        constructor
        · rintro ⟨other, otherFirst, otherFiles, isSome, isOther, helps⟩
          rw [isBottom] at isSome
          cases isSome
          rw [isFirst] at isOther
          cases isOther
          exact helps
        · exact fun helps => ⟨level, first, files, isBottom, isFirst, helps⟩
      rw [adaptable]
      by_cases caught : Caught page.items (first :: files)
      · rw [adapts_iff_recovers config wellFormed isIndex inv canLower isBottom isFirst caught]
        exact ⟨fun recovers _ => recovers, fun helps => helps caught⟩
      · have isFiles : getBottomLevelFiles lsmt.files = first :: files := by
          rw [getBottomLevelFiles, isBottom, Option.map_some, Option.getD_some, isFirst]
        have notAcross : HotOnlyAdapt.across page.items (first :: files) = false := by
          rw [← Bool.not_eq_true,
            HotOnlyAdapt.across_iff (HotOnlyAdapt.increasing_items wellFormed)]
          exact caught
        have isPrepared : compactRootBufferForFlush config page lsmt =
            .ok (allBottomLevelFiles page lsmt) := by
          rw [compactRootBufferForFlush]
          simp [allBottomLevelFiles, isFiles, notAcross]
        refine iff_of_true ((adapts_iff_of_prepared isPrepared
          (HotOnlyAdapt.increasing_items wellFormed)).mpr ?_) fun isCaught => absurd isCaught caught
        simpa only [allBottomLevelFiles, isFiles] using caught

/-- Moving the root LSMT into the tree is safe, whenever it is scheduled, exactly if there
is a file, and the files pass the check or their compaction helps. -/
theorem adaptsSafely_iff : AdaptsSafely config page lsmt ↔ Adaptable page lsmt :=
  (adaptsSafely_iff_adapts config page lsmt).trans
    (adapts_iff_adaptable config wellFormed isIndex inv canLower)

end Run

/-- Values at the bottom of sorted levels, with a pivot inside their file. -/
theorem adaptsSafely_twoLevels : AdaptsSafely (RootLsmt.smallTables 3) Slotted.twoPivotPage
    (twoLevels .kTypeValue .kTypeValue) := by
  have leveled := twoLevels_leveled .kTypeValue .kTypeValue
  have canLower : CanLower Slotted.twoPivotPage (twoLevels .kTypeValue .kTypeValue) := by
    intro file isFile
    cases isFile
    exact twoPivotPage_canLower (by decide)
  refine (adaptsSafely_iff (RootLsmt.smallTables 3) Slotted.twoPivotPage_wellFormed rfl leveled
    canLower).mpr ⟨2, twoFile .kTypeValue 1 1, [], rfl, rfl, fun _ => ?_⟩
  exact Recovers.of_sorted Slotted.twoPivotPage_wellFormed rfl (by decide) leveled canLower rfl
    Nat.two_pos rfl (by decide)

/-! Two files at level 0, the later key in front. -/

def unsortedLevel : Lsmt :=
  { Lsmt.empty with
    files := fun level =>
      if level = 0 then [Checked.onlyFile 2 8, Checked.onlyFile 1 3] else []
    tables := fun number =>
      if number = 2 then [Checked.onlyEntry 2 8]
      else if number = 1 then [Checked.onlyEntry 1 3] else []
    fileId := 2 }

def crashOf (lsmt : Lsmt) : Option Crash :=
  match adaptLSMT (RootLsmt.smallTables 3) Slotted.twoPivotPage lsmt with
  | .error crash => some crash
  | .ok _ => none

/-- A hot scan of a tree without memtables schedules the work on an LSMT with no file, and
the work reads the first file.  Unsorted files of level 0 reach below the first pivot,
which was taken from the first of them, and deletions make way for files that nobody has
compacted. -/
theorem empty_lsmt_out_of_range :
    (∃ added, doAddLSMTtoIter Lsmt.empty false true ⟨true, true, false, true, false, 2⟩ =
      some added ∧ added.queued = true) ∧
    crashOf Lsmt.empty = some .outOfRange ∧
    crashOf unsortedLevel = some .filesAcrossPivots ∧
    crashOf (twoLevels .kTypeValue .kTypeDeletion) = some .filesAcrossPivots :=
  ⟨⟨_, rfl, rfl⟩, by decide +kernel, by decide +kernel, by decide +kernel⟩

end DefaultAdapt

end AhaTree
