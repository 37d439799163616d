import AhaTree.LevelInvariant
import AhaTree.Lib.Run

/-!
# The order of the levels along every run

Each operation of an LSMT keeps its levels in order and passes the assertion of
`MaybeAddFile`, as long as the files it is given are new and described
correctly.
-/

namespace AhaTree

open Lsmt

/-! ## What is promised -/

/-- The level invariant: below level 0 the files are sorted by their smallest
keys and share no user key, and every file number stands in one place. -/
structure LevelInvariant (lsmt : Lsmt) : Prop where
  sorted : ∀ level, 1 ≤ level → (lsmt.files level).Pairwise (fun front behind =>
    (front.smallest.compare behind.smallest).isLT = true)
  disjoint : ∀ level, 1 ≤ level → (lsmt.files level).Pairwise (fun left right =>
    ∀ key, left.Covers key → ¬ right.Covers key)
  once : ∀ level other file twin, file ∈ lsmt.files level → twin ∈ lsmt.files other →
    file.number = twin.number → level = other
  nodup : ∀ level, ((lsmt.files level).map FileMetaData.number).Nodup

theorem Leveled.levelInvariant {lsmt : Lsmt} (inv : Leveled lsmt) : LevelInvariant lsmt where
  sorted level positive := by
    refine (inv.apart level positive).imp ?_
    intro front behind apart
    rw [Ordering.isLT_iff_eq_lt, InternalKey.compare_eq_lt]
    exact .inl (front.start_le_limit.trans_lt apart)
  disjoint level positive := by
    refine (inv.apart level positive).imp ?_
    intro left right apart key inLeft inRight
    exact lt_irrefl _ (inLeft.2.trans_lt (apart.trans_le inRight.1))
  once level other file twin member isTwin same :=
    (inv.once level other file twin member isTwin same).1
  nodup level := by
    refine (inv.nodup level).map_on ?_
    intro file member twin isTwin same
    exact (inv.once level level file twin member isTwin same).2

/-- A new file: its number is in no level and has been given, and it describes
its table. -/
structure Fresh (lsmt : Lsmt) (file : FileMetaData) : Prop where
  unused : ∀ level, ∀ other ∈ lsmt.files level, file.number ≠ other.number
  known : file.number ≤ lsmt.fileId
  describes : Describes file (lsmt.tables file.number)

namespace Checked

/-- What the callers of the operations provide: tables under new numbers, new
files, `DoCompact` for the standalone LSMT and `CompactLevel` for the others. -/
def Allowed (config : BufferConfig) (lsmt : Lsmt) : Act → Prop
  | .buildTable number _ => ∀ level, ∀ file ∈ lsmt.files level, file.number ≠ number
  | .addFile _ file => Fresh lsmt file
  | .addTopFile _ file => Fresh lsmt file
  | .appendFiles metas =>
      (∀ file ∈ metas, Fresh lsmt file) ∧ (metas.map FileMetaData.number).Nodup
  | .addFiles _ metas => config.status ≠ .kStandalone ∧
      (∀ file ∈ metas, Fresh lsmt file) ∧ (metas.map FileMetaData.number).Nodup
  | .compactLevel _ _ => config.status ≠ .kStandalone
  | .doCompact _ _ => config.status = .kStandalone
  | _ => True

/-! ## One operation -/

/-- The levels are in order afterwards, or the process has ended for another
reason than a file out of order. -/
def Safe : Except Halt Lsmt → Prop
  | .ok after => Leveled after
  | .error halt => halt ≠ .unordered

section Operations

variable {lsmt : Lsmt} (inv : Leveled lsmt)

include inv

theorem safe_compact {compaction : Compaction} {target : Nat}
    (fits : Fits lsmt.files compaction target) (config : LsmtConfig) (guards : List Slice) :
    Safe (compact config guards compaction target lsmt) := by
  rw [compact_eq inv fits]
  exact Leveled.compact inv fits config guards

omit inv in
theorem single_of_isTrivialMove {config : LsmtConfig} {compaction : Compaction}
    (trivial : isTrivialMove config compaction = true) :
    ∃ file, compaction.inputs = [file] ∧ compaction.nextInputs = [] := by
  rw [isTrivialMove, Bool.and_eq_true, Bool.and_eq_true, beq_iff_eq,
    List.isEmpty_iff] at trivial
  obtain ⟨file, single⟩ := List.length_eq_one_iff.mp trivial.1.1
  exact ⟨file, single, trivial.1.2⟩

theorem safe_trivialMove {config : LsmtConfig} {compaction : Compaction}
    (fits : Fits lsmt.files compaction (compaction.level + 1))
    (trivial : isTrivialMove config compaction = true) :
    Safe (trivialMove compaction lsmt) := by
  obtain ⟨file, single, alone⟩ := single_of_isTrivialMove trivial
  rw [trivialMove_eq inv fits single alone]
  exact Leveled.trivialMove inv fits single alone

theorem safe_compactTo {compaction : Compaction}
    (fits : Fits lsmt.files compaction (compaction.level + 1)) (config : BufferConfig)
    (guards : List Slice) : Safe (compactTo config guards compaction lsmt) := by
  rw [compactTo]
  split
  · rename_i trivial
    rw [isTrivialMoveWithin, Bool.and_eq_true] at trivial
    exact safe_trivialMove inv fits trivial.2
  · exact safe_compact inv fits config.toLsmtConfig guards

/-- The compaction that starts with a file of a level fits the next one. -/
theorem fits_setupOtherInputs (config : LsmtConfig) {level : Nat} {file : FileMetaData}
    (member : file ∈ lsmt.files level) :
    Fits lsmt.files (setupOtherInputs config lsmt level (lsmt.overlapTop level file)).1
      (level + 1) := by
  have chosen : Chosen lsmt.files
      (setupOtherInputs config lsmt level (lsmt.overlapTop level file)).1.level
      (setupOtherInputs config lsmt level (lsmt.overlapTop level file)).1.inputs
      (setupOtherInputs config lsmt level (lsmt.overlapTop level file)).1.nextInputs :=
    setupOtherInputs_overlapTop inv.inOrder config member
  exact chosen.fits inv.inOrder

omit inv in
/-- `CompactLevel`, level after level. -/
theorem safe_compactLevels (config : BufferConfig) (guards : List Slice) (below : Nat)
    {level : Nat} {lsmt : Lsmt} (inv : Leveled lsmt) :
    Safe ((compactLevels config guards below level lsmt).map Prod.snd) := by
  induction below generalizing level lsmt with
  | zero =>
      rw [compactLevels]
      split
      · exact inv
      · exact Halt.noConfusion
  | succ below ih =>
      rw [compactLevels]
      split
      · exact inv
      · split
        · exact Halt.noConfusion
        · rename_i file isFirst
          have fits := fits_setupOtherInputs inv config.toLsmtConfig (firstBehind_mem isFirst)
          have set : Leveled (setupOtherInputs config.toLsmtConfig lsmt level
              (lsmt.overlapTop level file)).2 := inv.of_same rfl rfl rfl
          have done := safe_compactTo set fits config guards
          simp only
          split
          · rename_i halt failed
            rw [failed] at done
            exact done
          · rename_i after isDone
            rw [isDone] at done
            split
            · exact ih done
            · exact done

omit inv in
/-- What holds of every round of `CompactLevel`, and of nothing else than a change
of the compaction pointer, holds of the whole. -/
theorem related_of_compactLevels (good : Lsmt → Prop) {related : Lsmt → Lsmt → Prop}
    {config : BufferConfig} {guards : List Slice}
    (leveled : ∀ lsmt, good lsmt → Leveled lsmt)
    (refl : ∀ lsmt, related lsmt lsmt)
    (trans : ∀ first middle last, related first middle → related middle last →
      related first last)
    (pointed : ∀ lsmt pointers, good lsmt → good { lsmt with compactPointer := pointers } ∧
      related lsmt { lsmt with compactPointer := pointers })
    (round : ∀ lsmt compaction after, good lsmt →
      Fits lsmt.files compaction (compaction.level + 1) →
      compactTo config guards compaction lsmt = .ok after → good after ∧ related lsmt after)
    {below level : Nat} {lsmt after : Lsmt} {state : OpState} (start : good lsmt)
    (done : compactLevels config guards below level lsmt = .ok (state, after)) :
    good after ∧ related lsmt after := by
  induction below generalizing level lsmt with
  | zero =>
      rw [compactLevels] at done
      split at done
      · cases done
        exact ⟨start, refl _⟩
      · cases done
  | succ below ih =>
      rw [compactLevels] at done
      split at done
      · cases done
        exact ⟨start, refl _⟩
      · split at done
        · cases done
        · rename_i file isFirst
          have fits := fits_setupOtherInputs (leveled lsmt start) config.toLsmtConfig
            (firstBehind_mem isFirst)
          obtain ⟨set, moved⟩ := pointed lsmt (setupOtherInputs config.toLsmtConfig lsmt level
            (lsmt.overlapTop level file)).2.compactPointer start
          simp only at done
          split at done
          · cases done
          · rename_i middle isDone
            obtain ⟨kept, first⟩ := round _ _ middle set fits isDone
            have sofar := trans _ _ _ moved first
            split at done
            · obtain ⟨last, later⟩ := ih kept done
              exact ⟨last, trans _ _ _ sofar later⟩
            · cases done
              exact ⟨kept, sofar⟩

theorem safe_settle (config : BufferConfig) (guards : List Slice) (level : Nat) :
    Safe ((settle config guards level lsmt).map Prod.snd) := by
  rw [settle]
  split
  · exact safe_compactLevels config guards _ inv
  · exact inv

/-- A new file at level 0 or at a level that it keeps clear of. -/
theorem safe_placeFile {file : FileMetaData} (fresh : Fresh lsmt file) {level : Nat}
    (clear : 0 < level → ∀ other ∈ lsmt.files level, Apart file other ∨ Apart other file) :
    Safe (placeFile level file lsmt) := by
  have placedAt : ∀ after : Lsmt, after.tables = lsmt.tables → after.fileId = lsmt.fileId →
      (∀ other, other ≠ level → after.files other = lsmt.files other) →
      (after.files level).Perm ([file] ++ lsmt.files level) →
      (0 < level → (after.files level).Pairwise Apart) → Leveled after := by
    intro after tables fileId others placed apart
    refine inv.install lsmt.files level [file] (fun _ => List.Sublist.refl _) others placed
      apart (List.nodup_singleton _) ?_ ?_ ?_ ?_ (by rw [fileId])
    · intro moved isMoved place other member
      rw [List.mem_singleton.mp isMoved]
      exact fresh.unused place other member
    · intro moved isMoved
      rw [List.mem_singleton.mp isMoved, tables]
      exact fresh.describes
    · intro place other _
      rw [tables]
    · intro moved isMoved
      rw [List.mem_singleton.mp isMoved, fileId]
      exact fresh.known
  simp only [placeFile]
  split
  · rename_i positive
    have sorted : (placeFiles [] [file] (lsmt.files level)).Pairwise Apart := by
      refine placeFiles_apart (List.pairwise_singleton _ _) (inv.apart level positive) ?_
      intro moved isMoved other member _
      rw [List.mem_singleton.mp isMoved]
      exact clear positive other member
    rw [applyFileChanges_eq (fun _ => sorted)]
    refine placedAt _ rfl rfl (fun other different => Function.update_of_ne different _ _) ?_ ?_
    · simp only [Lsmt.applyFileChanges, Function.update_self]
      refine (placeFiles_perm _ _ _).trans (List.Perm.of_eq ?_)
      simp [insertFile]
    · intro _
      simp only [Lsmt.applyFileChanges, Function.update_self]
      exact sorted
  · rename_i top
    refine placedAt _ rfl rfl (fun other different => Function.update_of_ne different _ _) ?_
      (fun positive => absurd positive top)
    simp only [Function.update_self]
    exact List.perm_append_comm

theorem safe_addFile (config : BufferConfig) (guards : List Slice) {file : FileMetaData}
    (fresh : Fresh lsmt file) {level : Nat}
    (clear : 0 < level → ∀ other ∈ lsmt.files level, Apart file other ∨ Apart other file) :
    Safe ((addFile config guards level file lsmt).map Prod.snd) := by
  have placed := safe_placeFile inv fresh clear
  rw [addFile]
  split
  · rename_i halt failed
    rw [failed] at placed
    exact placed
  · rename_i after isPlaced
    rw [isPlaced] at placed
    split
    · exact Leveled.of_same placed rfl rfl rfl
    · exact safe_settle placed config guards level

/-- The level that `PickLevelForMemTableOutput` chooses is clear of the file. -/
theorem clear_of_picked (config : LsmtConfig) (file : FileMetaData)
    (positive : 0 < pickLevelForMemTableOutput config lsmt.files file.start file.limit)
    {other : FileMetaData} (member : other ∈ lsmt.files
      (pickLevelForMemTableOutput config lsmt.files file.start file.limit)) :
    Apart file other ∨ Apart other file := by
  rcases pickLevelForMemTableOutput_clear config lsmt.files file.start file.limit with
    top | clear
  · omega
  · have bounded : ∀ other ∈ lsmt.files
        (pickLevelForMemTableOutput config lsmt.files file.start file.limit),
        other.largest.sequence < kMaxSequenceNumber :=
      fun other inside => (inv.described _ other inside).limit_bounded
    exact (clear_of_overlapInLevel positive (inv.apart _ positive) bounded clear
      member).symm

theorem leveled_pushFiles {metas : List FileMetaData}
    (fresh : ∀ file ∈ metas, Fresh lsmt file)
    (distinct : (metas.map FileMetaData.number).Nodup) : Leveled (pushFiles metas lsmt) := by
  refine inv.install lsmt.files 0 metas (fun _ => List.Sublist.refl _)
    (fun other different => Function.update_of_ne different _ _) ?_ (by simp) distinct
    (fun file isMeta => (fresh file isMeta).unused)
    (fun file isMeta => (fresh file isMeta).describes) (fun _ _ _ => rfl)
    (fun file isMeta => (fresh file isMeta).known) le_rfl
  simp only [pushFiles, Function.update_self]
  exact List.perm_append_comm

theorem leveled_buildTable {number : Nat}
    (unused : ∀ level, ∀ file ∈ lsmt.files level, file.number ≠ number)
    (entries : List Entry) : Leveled (buildTable number entries lsmt) where
  apart := inv.apart
  once := inv.once
  nodup := inv.nodup
  numbered level file member := (inv.numbered level file member).trans (le_max_left _ _)
  described level file member := by
    simp only [buildTable]
    rw [Function.update_of_ne (unused level file member)]
    exact inv.described level file member

theorem leveled_recordReadSample (key : InternalKey) :
    Leveled (lsmt.recordReadSample key).2 := by
  rw [recordReadSample]
  split
  · rw [updateStats]
    split
    · exact inv.of_same rfl rfl rfl
    · exact inv.of_same rfl rfl rfl
  · exact inv

/-- The compaction that `SetCompactionInputs` sets up fits. -/
theorem fits_of_setCompactionInputs {config : LsmtConfig} {level : Nat} {after : Lsmt}
    {compaction : Compaction}
    (set : lsmt.setCompactionInputs config level = .ok (.inr compaction, after)) :
    Fits lsmt.files compaction (compaction.level + 1) := by
  rw [setCompactionInputs] at set
  split at set
  · split at set
    · cases set
    · split at set
      · cases set
      · rename_i file isFirst
        cases set
        exact fits_setupOtherInputs inv config (firstBehind_mem isFirst)
  · split at set
    · cases set
    · rename_i seekLevel seek
      simp only at set
      split at set
      · cases set
      · rename_i file found
        split at set
        · cases set
        · cases set
          have taken : Leveled { lsmt with fileToCompactLevel := none } :=
            inv.of_same rfl rfl rfl
          exact fits_setupOtherInputs taken config (List.mem_of_find?_eq_some found)

theorem safe_doCompact (config : LsmtConfig) (isLeaf : Bool) (guards : List Slice) :
    Safe ((doCompact config isLeaf guards lsmt).map Prod.snd) := by
  rw [doCompact]
  split
  · exact Halt.noConfusion
  · split
    · exact inv.of_same rfl rfl rfl
    · split
      · exact Halt.noConfusion
      · rename_i left after set
        have same := (setCompactionInputs_cases set).1
        exact inv.of_same same.files same.tables same.fileId
      · rename_i compaction after set
        have same := (setCompactionInputs_cases set).1
        have fits := fits_of_setCompactionInputs inv set
        have kept : Leveled { after with compactLevel := some compaction.level } :=
          inv.of_same same.files same.tables same.fileId
        rw [← same.files] at fits
        simp only
        split
        · exact kept
        · have done : Safe (if isTrivialMove config compaction then
              trivialMove compaction { after with compactLevel := some compaction.level }
              else compact config guards compaction (compaction.level + 1)
                { after with compactLevel := some compaction.level }) := by
            split
            · rename_i trivial
              exact safe_trivialMove kept fits trivial
            · exact safe_compact kept fits config guards
          split
          · rename_i halt failed
            rw [failed] at done
            exact done
          · rename_i final isDone
            rw [isDone] at done
            exact Leveled.of_same done rfl rfl rfl

omit inv in
/-- A compaction of all files of a level fits that level. -/
theorem fits_whole (level : Nat) :
    Fits lsmt.files ⟨level, lsmt.files level, [], []⟩ level where
  inputs := List.Subset.refl _
  sublist _ := List.Sublist.refl _
  nextSublist := List.nil_sublist _
  destined := .inl ⟨rfl, rfl⟩
  aside _ _ isRest unread := absurd (List.mem_append_left _ isRest) unread

theorem safe_compactBottomLevel (config : LsmtConfig) (page : Option (List Slice)) :
    Safe (compactBottomLevel config page lsmt) := by
  rw [compactBottomLevel]
  split
  · exact inv
  · rename_i level _
    split
    · exact inv
    · exact safe_compact inv (fits_whole level) config _

omit inv in
theorem takeInRange_eq_filter {low up : Slice} {files : List FileMetaData}
    (sorted : files.Pairwise Apart) : takeInRange low up files = files.filter (meets low up) := by
  induction files with
  | nil => rfl
  | cons file files ih =>
      obtain ⟨ahead, rest⟩ := List.pairwise_cons.mp sorted
      rw [takeInRange, List.filter_cons]
      by_cases below : (Slice.compare file.limit low).isLT = true
      · have misses : ¬ meets low up file = true := by
          rw [Ordering.isLT_iff_eq_lt, Slice.compare_eq_lt] at below
          simp [meets, not_le.mpr below]
        rw [if_pos below, if_neg misses, ih rest]
      · rw [if_neg below]
        by_cases above : (Slice.compare file.start up).isGT = true
        · rw [Ordering.isGT_iff_eq_gt, Slice.compare_eq_gt] at above
          have misses : ∀ other ∈ file :: files, ¬ meets low up other = true := by
            intro other member
            have order : file.start ≤ other.start := by
              rcases List.mem_cons.mp member with rfl | later
              · exact le_rfl
              · exact file.start_le_limit.trans (ahead other later).le
            simp [meets, not_le.mpr (above.trans_le order)]
          rw [if_pos (by simpa [Ordering.isGT_iff_eq_gt] using above),
            if_neg (misses file List.mem_cons_self), List.filter_eq_nil_iff.mpr]
          intro other later
          exact misses other (List.mem_cons_of_mem _ later)
        · have hits : meets low up file = true := by
            rw [Ordering.isLT_iff_eq_lt, Slice.compare_eq_lt, not_lt] at below
            rw [Ordering.isGT_iff_eq_gt, Slice.compare_eq_gt, not_lt] at above
            simp [meets, below, above]
          rw [if_neg above, if_pos hits, ih rest]

/-- `GetLevelFilesInRange` finds the files that meet the range. -/
theorem getLevelFilesInRange_eq {level : Nat} (positive : 0 < level) (low up : Slice) :
    getLevelFilesInRange lsmt.files low up level =
      (lsmt.files level).filter (meets low up) := by
  have sorted := inv.apart level positive
  rw [getLevelFilesInRange, takeInRange_eq_filter (sorted.sublist (List.drop_sublist _ _)),
    drop_findFile sorted, List.filter_filter]
  refine List.filter_congr ?_
  intro file member
  rw [seekKey_isLT low (inv.described level file member).limit_bounded]
  rw [Bool.eq_iff_iff]
  simp only [meets, Bool.and_eq_true, decide_eq_true_eq, Bool.not_eq_true',
    decide_eq_false_iff_not, not_lt]
  exact ⟨And.left, fun hits => ⟨hits, hits.1⟩⟩

/-- What `GetFilesInRange` returns are the files of one level that meet the
range. -/
theorem filesInRange_cases {low up : Slice} {count level : Nat}
    {files : List FileMetaData}
    (found : filesInRange lsmt.files low up count = some (level, files)) :
    files ⊆ lsmt.files level ∧
      (0 < level → files = (lsmt.files level).filter (meets low up)) := by
  induction count with
  | zero => cases found
  | succ count ih =>
      have spec : (if count = 0 then getLevel0FilesInRange lsmt.files low up
            else getLevelFilesInRange lsmt.files low up count) ⊆ lsmt.files count ∧
          (0 < count → (if count = 0 then getLevel0FilesInRange lsmt.files low up
            else getLevelFilesInRange lsmt.files low up count) =
              (lsmt.files count).filter (meets low up)) := by
        by_cases top : count = 0
        · subst top
          exact ⟨List.filter_sublist.subset, by simp⟩
        · rw [if_neg top, getLevelFilesInRange_eq inv (Nat.pos_of_ne_zero top)]
          exact ⟨List.filter_sublist.subset, fun _ => rfl⟩
      simp only [filesInRange] at found
      generalize (if count = 0 then getLevel0FilesInRange lsmt.files low up
        else getLevelFilesInRange lsmt.files low up count) = chosen at found spec
      split at found
      · exact ih found
      · cases found
        exact spec

theorem fits_filesInRange {low up : Slice} {level : Nat} {files : List FileMetaData}
    (found : getFilesInRange lsmt.files low up = some (level, files)) :
    Fits lsmt.files ⟨level, files, [], []⟩ level := by
  obtain ⟨subset, filtered⟩ := filesInRange_cases inv found
  refine ⟨subset, ?_, List.nil_sublist _, .inl ⟨rfl, rfl⟩, ?_⟩
  · intro positive
    rw [filtered positive]
    exact List.filter_sublist
  · intro positive rest isRest unread
    simp only [Compaction.reads, List.append_nil, filtered positive] at unread ⊢
    have misses : meets low up rest = false := by
      by_contra hits
      exact unread (List.mem_filter.mpr ⟨isRest, by simpa using hits⟩)
    have outside : rest.limit < low ∨ up < rest.start := by
      by_contra neither
      rw [not_or, not_lt, not_lt] at neither
      simp [meets, neither.1, neither.2] at misses
    have either : ∀ read ∈ (lsmt.files level).filter (meets low up),
        (rest.limit < low → Apart rest read) ∧ (up < rest.start → Apart read rest) := by
      intro read isRead
      obtain ⟨inside, hits⟩ := List.mem_filter.mp isRead
      exact aside_of_meets (inv.apart level positive) isRest misses inside hits
    exact outside.imp (fun below read isRead => (either read isRead).1 below)
      (fun above read isRead => (either read isRead).2 above)

omit inv in
theorem finalizeRetrieval_sublist (lsmt : Lsmt) (level : Nat) (files : List FileMetaData)
    (place : Nat) :
    ((lsmt.finalizeRetrieval level files).files place).Sublist (lsmt.files place) := by
  rw [finalizeRetrieval]
  split
  · exact List.Sublist.refl _
  · by_cases same : place = level
    · subst same
      simp only [Function.update_self]
      exact List.filter_sublist
    · simp only [Function.update_of_ne same]
      exact List.Sublist.refl _

theorem leveled_finalizeRetrieval (level : Nat) (files : List FileMetaData) :
    Leveled (lsmt.finalizeRetrieval level files) := by
  refine inv.of_sublist (finalizeRetrieval_sublist lsmt level files) ?_ ?_
  all_goals
    rw [finalizeRetrieval]
    split <;> rfl

theorem leveled_clearBottomLevelFiles : Leveled lsmt.clearBottomLevelFiles := by
  rw [clearBottomLevelFiles]
  split
  · exact inv
  · rename_i level _
    refine inv.of_sublist ?_ rfl rfl
    intro place
    by_cases same : place = level
    · subst same
      simp only [Function.update_self]
      exact List.nil_sublist _
    · simp only [Function.update_of_ne same]
      exact List.Sublist.refl _

/-- Every operation keeps the levels in order. -/
theorem safe_exec (config : BufferConfig) {act : Act} (allowed : Allowed config lsmt act) :
    Safe (exec config lsmt act) := by
  cases act with
  | buildTable number entries => exact leveled_buildTable inv allowed entries
  | addFile page file =>
      exact safe_addFile inv config _ allowed
        (fun positive _ member => clear_of_picked inv config.toLsmtConfig file positive member)
  | addTopFile page file => exact safe_addFile inv config _ allowed (by simp)
  | appendFiles metas => exact leveled_pushFiles inv allowed.1 allowed.2
  | addFiles page metas =>
      exact safe_settle (leveled_pushFiles inv allowed.2.1 allowed.2.2) config _ 0
  | compactLevel page level => exact safe_compactLevels config _ _ inv
  | recordReadSample key => exact leveled_recordReadSample inv key
  | doCompact isLeaf guards => exact safe_doCompact inv config.toLsmtConfig isLeaf guards
  | compactBottomLevel page => exact safe_compactBottomLevel inv config.toLsmtConfig page
  | compactFilesInRange page low up =>
      rw [exec]
      split
      · exact inv
      · rename_i level files found
        exact safe_compact inv (fits_filesInRange inv found) config.toLsmtConfig _
  | finalizeRetrieval level files => exact leveled_finalizeRetrieval inv level files
  | finalizeRetrievalAndDelete level files =>
      exact (leveled_finalizeRetrieval inv level files).of_same rfl rfl rfl
  | clear => exact inv.of_sublist (fun _ => List.nil_sublist _) rfl rfl
  | clearAll => exact inv.of_sublist (fun _ => List.nil_sublist _) rfl rfl
  | clearBottomLevelFiles => exact leveled_clearBottomLevelFiles inv

end Operations

/-! ## Every run -/

theorem leveled_step {config : BufferConfig} {lsmt after : Lsmt} {act : Act}
    (inv : Leveled lsmt) (allowed : Allowed config lsmt act)
    (stepped : step config lsmt act = some after) : Leveled after := by
  have safe := safe_exec inv config allowed
  rw [step] at stepped
  cases done : exec config lsmt act with
  | error halt => simp [done, Except.toOption] at stepped
  | ok result =>
      rw [done] at safe stepped
      cases stepped
      exact safe

/-- In every state that the operations reach the level invariant holds, and no
operation meets a file out of order. -/
theorem levelInvariant_of_reaches {config : BufferConfig} {lsmt : Lsmt}
    (reaches : Lib.Reaches (step config) (Allowed config) Lsmt.empty lsmt) :
    LevelInvariant lsmt ∧ ∀ act, Allowed config lsmt act →
      exec config lsmt act ≠ .error .unordered := by
  have inv : Leveled lsmt := reaches.invariant Leveled Leveled.empty
    (fun _ _ _ kept allowed stepped => leveled_step kept allowed stepped)
  refine ⟨inv.levelInvariant, ?_⟩
  intro act allowed failed
  have safe := safe_exec inv config allowed
  rw [failed] at safe
  exact safe rfl

/-! A buffer gets four files of one entry, two of them for one user key.  Level 0
is compacted twice, the second time by a trivial move, and then all of level 1
within its level. -/

def onlyEntry (number : Nat) (key : Byte) : Entry :=
  ⟨⟨[key], number, .kTypeValue⟩, []⟩

def onlyFile (number : Nat) (key : Byte) : FileMetaData :=
  .ofEntries (RootLsmt.smallTables 3) number (onlyEntry number key) (onlyEntry number key)
    [onlyEntry number key]

def smallBuffer : BufferConfig where
  toLsmtConfig := RootLsmt.smallTables 3
  status := .kBuffer
  leafLimit := 4

/-- The tables are on disk, and no level has a file. -/
def builtTables : Lsmt :=
  buildTable 4 [onlyEntry 4 99] (buildTable 3 [onlyEntry 3 97]
    (buildTable 2 [onlyEntry 2 98] (buildTable 1 [onlyEntry 1 97] Lsmt.empty)))

def topFiles : List FileMetaData :=
  [onlyFile 1 97, onlyFile 2 98, onlyFile 3 97, onlyFile 4 99]

def threeCompactions : List Act :=
  [.compactLevel none 0, .compactLevel none 0, .compactFilesInRange (some [[97], [98]]) [97] [99]]

theorem onlyFile_describes (number : Nat) (key : Byte)
    (bounded : number < kMaxSequenceNumber) :
    Describes (onlyFile number key) [onlyEntry number key] := by
  refine ⟨⟨_, rfl, rfl⟩, ⟨_, rfl, ?_⟩, List.pairwise_singleton _ _, ?_⟩
  · simp [onlyFile, FileMetaData.ofEntries]
  · intro entry member
    rw [List.mem_singleton.mp member]
    exact bounded

theorem fresh_topFiles {file : FileMetaData} (member : file ∈ topFiles) :
    Fresh builtTables file := by
  refine ⟨fun level other inside => absurd inside List.not_mem_nil, ?_, ?_⟩
  · revert file
    decide
  · simp only [topFiles, List.mem_cons, List.not_mem_nil, or_false] at member
    rcases member with rfl | rfl | rfl | rfl
    all_goals exact onlyFile_describes _ _ (by decide)

theorem levelInvariant_of_three_compactions :
    ∃ lsmt, Lib.Reaches (step smallBuffer) (Allowed smallBuffer) Lsmt.empty lsmt ∧
      (lsmt.files 1).map FileMetaData.number = [8, 10] ∧ LevelInvariant lsmt ∧
      ∀ act, Allowed smallBuffer lsmt act → exec smallBuffer lsmt act ≠ .error .unordered := by
  have none : ∀ lsmt : Lsmt, lsmt.files = (fun _ => []) → ∀ number level,
      ∀ file ∈ lsmt.files level, file.number ≠ number := by
    intro lsmt empty number level file member
    rw [empty] at member
    cases member
  have built : Lib.Reaches (step smallBuffer) (Allowed smallBuffer) Lsmt.empty
      builtTables := by
    refine .next (.buildTable 4 [onlyEntry 4 99]) (.next (.buildTable 3 [onlyEntry 3 97])
      (.next (.buildTable 2 [onlyEntry 2 98]) (.next (.buildTable 1 [onlyEntry 1 97]) .start
        (none _ rfl 1) rfl) (none _ rfl 2) rfl) (none _ rfl 3) rfl) (none _ rfl 4) rfl
  have allowed : Allowed smallBuffer builtTables (.appendFiles topFiles) :=
    ⟨fun _ member => fresh_topFiles member, by decide⟩
  have pushed := Lib.Reaches.next (.appendFiles topFiles) built allowed rfl
  have ran : ((Lib.run (step smallBuffer) (fun _ act => threeCompactions.contains act)
      (appendFiles smallBuffer topFiles builtTables).2 threeCompactions).map
        (fun lsmt => (lsmt.files 1).map FileMetaData.number)) = some [8, 10] := by
    decide +kernel
  obtain ⟨lsmt, isRun, numbers⟩ := Option.map_eq_some_iff.mp ran
  have reaches := pushed.run_from (fun lsmt act isOne => by
    simp only [threeCompactions, List.contains_eq_mem, decide_eq_true_eq, List.mem_cons,
      List.not_mem_nil, or_false] at isOne
    rcases isOne with rfl | rfl | rfl
    · exact LsmtStatus.noConfusion
    · exact LsmtStatus.noConfusion
    · trivial) isRun
  exact ⟨lsmt, reaches, numbers, levelInvariant_of_reaches reaches⟩

end Checked

end AhaTree
