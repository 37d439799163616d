import AhaTree.CheckedLsmt
import AhaTree.CompactionInputs

/-!
# The levels of an LSMT stay in order

Whatever is done to an LSMT, its levels below level 0 stay sorted and disjoint,
no file number stands in two places, and `MaybeAddFile` never meets a file out
of order.
-/

namespace AhaTree

open Lsmt

/-! ## The invariant -/

/-- Levels below level 0 are in order, numbers are unique and have been given, and
every file describes its table. -/
structure Leveled (lsmt : Lsmt) : Prop where
  apart : ∀ level, 0 < level → (lsmt.files level).Pairwise Apart
  once : ∀ level other file twin, file ∈ lsmt.files level → twin ∈ lsmt.files other →
    file.number = twin.number → level = other ∧ file = twin
  nodup : ∀ level, (lsmt.files level).Nodup
  numbered : Numbered lsmt
  described : ∀ level, ∀ file ∈ lsmt.files level,
    Describes file (lsmt.tables file.number)

namespace Leveled

variable {lsmt after : Lsmt}

theorem empty : Leveled Lsmt.empty where
  apart _ _ := List.Pairwise.nil
  once _ _ _ _ member := by cases member
  nodup _ := List.nodup_nil
  numbered _ _ member := by cases member
  described _ _ member := by cases member

theorem inOrder (inv : Leveled lsmt) : InOrder lsmt.files where
  apart := inv.apart
  upright level file member := (inv.described level file member).not_gt

/-- Files may leave at any time. -/
theorem of_sublist (inv : Leveled lsmt)
    (sublist : ∀ level, (after.files level).Sublist (lsmt.files level))
    (tables : after.tables = lsmt.tables) (fileId : after.fileId = lsmt.fileId) :
    Leveled after where
  apart level positive := (inv.apart level positive).sublist (sublist level)
  once level other file twin member isTwin same :=
    inv.once level other file twin ((sublist level).subset member)
      ((sublist other).subset isTwin) same
  nodup level := (inv.nodup level).sublist (sublist level)
  numbered level file member := by
    rw [fileId]
    exact inv.numbered level file ((sublist level).subset member)
  described level file member := by
    rw [tables]
    exact inv.described level file ((sublist level).subset member)

theorem of_same (inv : Leveled lsmt) (files : after.files = lsmt.files)
    (tables : after.tables = lsmt.tables) (fileId : after.fileId = lsmt.fileId) :
    Leveled after :=
  inv.of_sublist (fun level => by rw [files]) tables fileId

/-- Some files stay, and new ones come into one level: the numbers of these are
found nowhere else. -/
theorem install (inv : Leveled lsmt) (kept : Levels) (target : Nat)
    (added : List FileMetaData)
    (sublist : ∀ level, (kept level).Sublist (lsmt.files level))
    (others : ∀ level, level ≠ target → after.files level = kept level)
    (placed : (after.files target).Perm (added ++ kept target))
    (apart : 0 < target → (after.files target).Pairwise Apart)
    (distinct : (added.map FileMetaData.number).Nodup)
    (fresh : ∀ file ∈ added, ∀ level, ∀ other ∈ kept level, file.number ≠ other.number)
    (describes : ∀ file ∈ added, Describes file (after.tables file.number))
    (tables : ∀ level, ∀ file ∈ kept level,
      after.tables file.number = lsmt.tables file.number)
    (known : ∀ file ∈ added, file.number ≤ after.fileId)
    (grows : lsmt.fileId ≤ after.fileId) : Leveled after := by
  have cases : ∀ level, ∀ file ∈ after.files level,
      (level = target ∧ file ∈ added) ∨ file ∈ kept level := by
    intro level file member
    by_cases same : level = target
    · subst same
      rcases List.mem_append.mp (placed.subset member) with new | old
      · exact .inl ⟨rfl, new⟩
      · exact .inr old
    · rw [others level same] at member
      exact .inr member
  refine ⟨?_, ?_, ?_, ?_, ?_⟩
  · intro level positive
    by_cases same : level = target
    · subst same
      exact apart positive
    · rw [others level same]
      exact (inv.apart level positive).sublist (sublist level)
  · intro level other file twin member isTwin same
    rcases cases level file member with ⟨rfl, new⟩ | old
    · rcases cases other twin isTwin with ⟨rfl, twinNew⟩ | twinOld
      · exact ⟨rfl, List.inj_on_of_nodup_map distinct new twinNew same⟩
      · exact absurd same (fresh file new other twin twinOld)
    · rcases cases other twin isTwin with ⟨rfl, twinNew⟩ | twinOld
      · exact absurd same.symm (fresh twin twinNew level file old)
      · exact inv.once level other file twin ((sublist level).subset old)
          ((sublist other).subset twinOld) same
  · intro level
    by_cases same : level = target
    · subst same
      rw [placed.nodup_iff, List.nodup_append]
      refine ⟨distinct.of_map, (inv.nodup level).sublist (sublist level), ?_⟩
      intro file new other old equal
      exact fresh file new level other old (congrArg FileMetaData.number equal)
    · rw [others level same]
      exact (inv.nodup level).sublist (sublist level)
  · intro level file member
    rcases cases level file member with ⟨-, new⟩ | old
    · exact known file new
    · exact (inv.numbered level file ((sublist level).subset old)).trans grows
  · intro level file member
    rcases cases level file member with ⟨-, new⟩ | old
    · exact describes file new
    · rw [tables level file old]
      exact inv.described level file ((sublist level).subset old)

end Leveled

/-! ## The assertion -/

theorem placeFiles_eq_filter (deleted : List Nat) (added base : List FileMetaData) :
    placeFiles deleted added base =
      (handedFiles added base).filter (fun file => !deleted.contains file.number) := by
  induction added generalizing base with
  | nil => rfl
  | cons first added ih =>
      rw [placeFiles, handedFiles, ih, ← List.filter_append]

/-- Files that come in order pass the assertion. -/
theorem foldlM_maybeAddFile {level : Nat} {deleted : List Nat}
    {files handed : List FileMetaData}
    (sorted : 0 < level → (files ++ handed.filter (fun file =>
      !deleted.contains file.number)).Pairwise Apart) :
    handed.foldlM (maybeAddFile level deleted) files =
      .ok (files ++ handed.filter (fun file => !deleted.contains file.number)) := by
  induction handed generalizing files with
  | nil => simp [pure, Except.pure]
  | cons file handed ih =>
      cases gone : deleted.contains file.number with
      | true =>
          have skipped : maybeAddFile level deleted files file = .ok files := by
            rw [maybeAddFile, gone]
            rfl
          have filtered : (file :: handed).filter (fun file =>
              !deleted.contains file.number) = handed.filter (fun file =>
              !deleted.contains file.number) := by
            rw [List.filter_cons, gone]
            rfl
          rw [filtered] at sorted
          rw [List.foldlM_cons, skipped, filtered]
          exact ih sorted
      | false =>
          have filtered : files ++ (file :: handed).filter (fun file =>
              !deleted.contains file.number) = (files ++ [file]) ++ handed.filter (fun file =>
              !deleted.contains file.number) := by
            rw [List.filter_cons, gone]
            simp
          rw [filtered] at sorted
          have added : maybeAddFile level deleted files file = .ok (files ++ [file]) := by
            rw [maybeAddFile, gone]
            cases last : files.getLast? with
            | none => rfl
            | some front =>
                have passes : 0 < level → (front.largest.compare file.smallest).isLT = true := by
                  intro positive
                  exact compare_lt_of_apart ((List.pairwise_append.mp (List.pairwise_append.mp
                    (sorted positive)).1).2.2 front (List.mem_of_getLast? last) file
                    (List.mem_singleton_self _))
                simp only [Bool.false_eq_true, if_false]
                rw [if_neg]
                rw [Bool.and_eq_true, decide_eq_true_eq, not_and]
                intro positive
                simp [passes positive]
          rw [List.foldlM_cons, added, filtered]
          exact ih sorted

namespace Checked

theorem applyFileChanges_eq {level : Nat} {added : List FileMetaData} {deleted : List Nat}
    {lsmt : Lsmt} (sorted : 0 < level →
      (placeFiles deleted (added.foldr insertFile []) (lsmt.files level)).Pairwise Apart) :
    applyFileChanges level added deleted lsmt =
      .ok (lsmt.applyFileChanges level added deleted) := by
  rw [placeFiles_eq_filter] at sorted
  rw [applyFileChanges, foldlM_maybeAddFile (by simpa using sorted), Lsmt.applyFileChanges,
    placeFiles_eq_filter]
  rfl

end Checked

/-! ## The merged input -/

section Input

variable {tables : Nat → List Entry} {files : List FileMetaData}

/-- Tables of files that follow one another form one sorted stream. -/
theorem flatMap_sorted (sorted : files.Pairwise Apart)
    (described : ∀ file ∈ files, Describes file (tables file.number)) :
    (files.flatMap (fun file => tables file.number)).Pairwise
      (fun front behind => behind.before front = false) := by
  induction files with
  | nil => exact List.Pairwise.nil
  | cons file files ih =>
      obtain ⟨ahead, rest⟩ := List.pairwise_cons.mp sorted
      rw [List.flatMap_cons]
      refine List.pairwise_append.mpr
        ⟨(described file List.mem_cons_self).sorted,
          ih rest (fun other later => described other (List.mem_cons_of_mem _ later)), ?_⟩
      intro front isFront behind isBehind
      obtain ⟨other, later, inside⟩ := List.mem_flatMap.mp isBehind
      have left := (described file List.mem_cons_self).le_limit isFront
      have right := (described other (List.mem_cons_of_mem _ later)).start_le inside
      rw [Entry.not_before_iff]
      exact .inl ((left.trans_lt (ahead other later)).trans_le right)

/-- The files that a compaction reads. -/
def Compaction.reads (compaction : Compaction) : List FileMetaData :=
  compaction.inputs ++ compaction.nextInputs

theorem mem_flatten_inputStreams (compaction : Compaction) (entry : Entry) :
    entry ∈ (inputStreams tables compaction).flatten ↔
      ∃ file ∈ compaction.reads, entry ∈ tables file.number := by
  have split : entry ∈ (inputStreams tables compaction).flatten ↔
      (∃ file ∈ compaction.inputs, entry ∈ tables file.number) ∨
        ∃ file ∈ compaction.nextInputs, entry ∈ tables file.number := by
    simp only [inputStreams]
    split <;> simp [List.mem_flatMap]
  rw [split, Compaction.reads]
  constructor
  · rintro (⟨file, member, inside⟩ | ⟨file, member, inside⟩)
    · exact ⟨file, List.mem_append_left _ member, inside⟩
    · exact ⟨file, List.mem_append_right _ member, inside⟩
  · rintro ⟨file, member, inside⟩
    rcases List.mem_append.mp member with isInput | isNext
    · exact .inl ⟨file, isInput, inside⟩
    · exact .inr ⟨file, isNext, inside⟩

end Input

/-! ## Compactions that fit their level -/

/-- The inputs of a compaction fit the levels: they are read in order, and every
other file of the target level lies on one side of all of them. -/
structure Fits (levels : Levels) (compaction : Compaction) (target : Nat) : Prop where
  inputs : compaction.inputs ⊆ levels compaction.level
  sublist : 0 < compaction.level →
    compaction.inputs.Sublist (levels compaction.level)
  nextSublist : compaction.nextInputs.Sublist (levels (compaction.level + 1))
  destined : (target = compaction.level ∧ compaction.nextInputs = []) ∨
    target = compaction.level + 1
  aside : 0 < target → ∀ rest ∈ levels target, rest ∉ compaction.reads →
    (∀ read ∈ compaction.reads, Apart rest read) ∨
      ∀ read ∈ compaction.reads, Apart read rest

/-- A file that does not meet a range, but others of its level do, lies on one
side of the range and of these. -/
theorem aside_of_meets {files : List FileMetaData} (sorted : files.Pairwise Apart)
    {low up : Slice} {rest read : FileMetaData} (isRest : rest ∈ files)
    (misses : meets low up rest = false) (isRead : read ∈ files)
    (hits : meets low up read = true) :
    (rest.limit < low → Apart rest read) ∧ (up < rest.start → Apart read rest) := by
  simp only [meets, decide_eq_true_eq, decide_eq_false_iff_not] at misses hits
  have different : rest ≠ read := by
    rintro rfl
    exact misses hits
  have either := (apart_or_eq sorted isRest isRead).resolve_left different
  constructor
  · intro below
    refine either.resolve_right (fun back => ?_)
    exact absurd (hits.1.trans_lt (back.trans_le rest.start_le_limit)) (not_lt.mpr below.le)
  · intro above
    refine either.resolve_left (fun back => ?_)
    exact absurd ((above.trans_le rest.start_le_limit).trans back) (not_lt.mpr hits.2)

/-- What `SetupOtherInputs` chooses fits the next level. -/
theorem Chosen.fits {levels : Levels} (inOrder : InOrder levels) {compaction : Compaction}
    (chosen : Chosen levels compaction.level compaction.inputs compaction.nextInputs) :
    Fits levels compaction (compaction.level + 1) := by
  obtain ⟨low, up, around, isNext⟩ := chosen.next
  have sublist : compaction.nextInputs.Sublist (levels (compaction.level + 1)) := by
    rw [isNext]
    exact List.filter_sublist
  refine ⟨chosen.subset, chosen.sublist, sublist, .inr rfl, ?_⟩
  intro positive rest isRest unread
  have misses : meets low up rest = false := by
    by_contra hits
    refine unread (List.mem_append_right _ ?_)
    rw [isNext]
    exact List.mem_filter.mpr ⟨isRest, by simpa using hits⟩
  have nextAside : ∀ read ∈ compaction.nextInputs,
      (rest.limit < low → Apart rest read) ∧ (up < rest.start → Apart read rest) := by
    intro read isRead
    rw [isNext] at isRead
    obtain ⟨inside, hits⟩ := List.mem_filter.mp isRead
    exact aside_of_meets (inOrder.apart _ positive) isRest misses inside hits
  have outside : rest.limit < low ∨ up < rest.start := by
    by_contra neither
    rw [not_or, not_lt, not_lt] at neither
    simp [meets, neither.1, neither.2] at misses
  rcases outside with below | above
  · refine .inl (fun read isRead => ?_)
    rcases List.mem_append.mp isRead with isInput | next
    · exact below.trans_le (around read isInput).1
    · exact (nextAside read next).1 below
  · refine .inr (fun read isRead => ?_)
    rcases List.mem_append.mp isRead with isInput | next
    · exact (around read isInput).2.trans_lt above
    · exact (nextAside read next).2 above

/-! ## What a compaction writes and leaves -/

/-- The contents of the outputs of a compaction. -/
def Lsmt.outputsOf (config : LsmtConfig) (guards : List Slice) (compaction : Compaction)
    (lsmt : Lsmt) : List (List Entry) :=
  doCompactionWorkImpl config guards compaction lsmt.files
    (mergedInput lsmt.tables compaction)

section Compact

variable {lsmt : Lsmt} {compaction : Compaction} {target : Nat} (inv : Leveled lsmt)
  (fits : Fits lsmt.files compaction target)

include inv fits

omit inv in
theorem mem_level_of_read {file : FileMetaData} (member : file ∈ compaction.reads) :
    ∃ level, file ∈ lsmt.files level := by
  rcases List.mem_append.mp member with isInput | isNext
  · exact ⟨_, fits.inputs isInput⟩
  · exact ⟨_, fits.nextSublist.subset isNext⟩

theorem described_of_read {file : FileMetaData} (member : file ∈ compaction.reads) :
    Describes file (lsmt.tables file.number) := by
  obtain ⟨level, inside⟩ := mem_level_of_read fits member
  exact inv.described level file inside

/-- The streams of the inputs are sorted. -/
theorem inputStreams_sorted {stream : List Entry}
    (member : stream ∈ inputStreams lsmt.tables compaction) :
    stream.Pairwise (fun front behind => behind.before front = false) := by
  have next : (compaction.nextInputs.flatMap (fun file =>
      lsmt.tables file.number)).Pairwise
        (fun front behind => behind.before front = false) := by
    refine flatMap_sorted ((inv.apart _ (Nat.succ_pos _)).sublist fits.nextSublist) ?_
    intro file isNext
    exact described_of_read inv fits (List.mem_append_right _ isNext)
  simp only [inputStreams] at member
  rcases List.mem_append.mp member with ofInputs | ofNext
  · split at ofInputs
    · obtain ⟨file, isInput, rfl⟩ := List.mem_map.mp ofInputs
      exact (described_of_read inv fits (List.mem_append_left _ isInput)).sorted
    · rename_i deeper
      rw [List.mem_singleton.mp ofInputs]
      have positive := Nat.pos_of_ne_zero deeper
      refine flatMap_sorted ((inv.apart _ positive).sublist (fits.sublist positive)) ?_
      intro file isInput
      exact described_of_read inv fits (List.mem_append_left _ isInput)
  · rw [List.mem_singleton.mp ofNext]
    exact next

/-- The merged input holds the entries of all inputs, in order. -/
theorem mergedInput_spec :
    (mergedInput lsmt.tables compaction).Perm (inputStreams lsmt.tables compaction).flatten ∧
      (mergedInput lsmt.tables compaction).Pairwise
        (fun front behind => behind.before front = false) :=
  Entry.before_strictOrder.merge_spec _ (fun _ member => inputStreams_sorted inv fits member)

theorem mem_mergedInput {entry : Entry} : entry ∈ mergedInput lsmt.tables compaction ↔
    ∃ file ∈ compaction.reads, entry ∈ lsmt.tables file.number := by
  rw [(mergedInput_spec inv fits).1.mem_iff, mem_flatten_inputStreams]

theorem mergedInput_bounded {entry : Entry}
    (member : entry ∈ mergedInput lsmt.tables compaction) :
    entry.sequence < kMaxSequenceNumber := by
  obtain ⟨file, isRead, inside⟩ := (mem_mergedInput inv fits).mp member
  exact (described_of_read inv fits isRead).bounded entry inside

variable (config : LsmtConfig) (guards : List Slice)

theorem outputsOf_strict :
    (lsmt.outputsOf config guards compaction).flatten.Pairwise
      (fun front behind => front.userKey < behind.userKey) :=
  doCompactionWorkImpl_strict config guards compaction lsmt.files
    (fun _ member => mergedInput_bounded inv fits member)
    (ascending_of_not_before (mergedInput_spec inv fits).2)

/-- An entry of an output comes from a file that was read. -/
theorem exists_read_of_mem_output {output : List Entry} {entry : Entry}
    (isOutput : output ∈ lsmt.outputsOf config guards compaction)
    (member : entry ∈ output) :
    ∃ file ∈ compaction.reads, entry ∈ lsmt.tables file.number :=
  (mem_mergedInput inv fits).mp (mem_input_of_mem_output config guards compaction lsmt.files
    (fun _ inside => mergedInput_bounded inv fits inside) isOutput member)

theorem outputsOf_bounded {entry : Entry}
    (member : entry ∈ (lsmt.outputsOf config guards compaction).flatten) :
    entry.sequence < kMaxSequenceNumber := by
  obtain ⟨output, isOutput, inside⟩ := List.mem_flatten.mp member
  obtain ⟨file, isRead, stored⟩ :=
    exists_read_of_mem_output inv fits config guards isOutput inside
  exact (described_of_read inv fits isRead).bounded entry stored

omit inv fits in
theorem outputsOf_filled {output : List Entry}
    (isOutput : output ∈ lsmt.outputsOf config guards compaction) : output ≠ [] :=
  doCompactionWorkImpl_ne_nil config guards compaction lsmt.files isOutput

/-- The files of the outputs follow one another. -/
theorem addedFiles_apart :
    (outputFiles config lsmt.fileId (lsmt.outputsOf config guards compaction)).Pairwise
      Apart :=
  outputFiles_apart (fun _ isOutput => outputsOf_filled config guards isOutput)
    (outputsOf_strict inv fits config guards)
    (fun _ member => outputsOf_bounded inv fits config guards member)

/-- A file of the outputs describes what its number leads to on disk. -/
theorem addedFiles_described {file : FileMetaData} (isAdded : file ∈
    outputFiles config lsmt.fileId (lsmt.outputsOf config guards compaction)) :
    ∃ output ∈ lsmt.outputsOf config guards compaction, Describes file output ∧
      (lsmt.writeOutputs config (lsmt.outputsOf config guards compaction)).tables
        file.number = output := by
  obtain ⟨place, output, found, isNumber, describes⟩ :=
    mem_outputFiles (fun _ isOutput => outputsOf_filled config guards isOutput)
      (outputsOf_strict inv fits config guards)
      (fun _ member => outputsOf_bounded inv fits config guards member) isAdded
  refine ⟨output, List.mem_of_getElem? found, describes, ?_⟩
  rw [isNumber]
  exact writeOutputs_new config found

/-- A file of the outputs keeps within the files that were read. -/
theorem addedFiles_within {file : FileMetaData} (isAdded : file ∈
    outputFiles config lsmt.fileId (lsmt.outputsOf config guards compaction)) :
    (∃ read ∈ compaction.reads, read.start ≤ file.start) ∧
      ∃ read ∈ compaction.reads, file.limit ≤ read.limit := by
  obtain ⟨output, isOutput, describes, -⟩ :=
    addedFiles_described inv fits config guards isAdded
  obtain ⟨first, isFirst, starts⟩ := describes.first
  obtain ⟨last, isLast, ends⟩ := describes.last
  obtain ⟨front, frontRead, frontStored⟩ :=
    exists_read_of_mem_output inv fits config guards isOutput (List.mem_of_head? isFirst)
  obtain ⟨behind, behindRead, behindStored⟩ :=
    exists_read_of_mem_output inv fits config guards isOutput (List.mem_of_getLast? isLast)
  refine ⟨⟨front, frontRead, ?_⟩, behind, behindRead, ?_⟩
  · have isStart : file.start = first.userKey := congrArg InternalKey.userKey starts
    rw [isStart]
    exact (described_of_read inv fits frontRead).start_le frontStored
  · have isLimit : file.limit = last.userKey := congrArg InternalKey.userKey ends
    rw [isLimit]
    exact (described_of_read inv fits behindRead).le_limit behindStored

omit inv fits in
/-- Output files have numbers that no file had. -/
theorem addedFiles_fresh (numbered : Numbered lsmt) {file other : FileMetaData} {level : Nat}
    (isAdded : file ∈ outputFiles config lsmt.fileId (lsmt.outputsOf config guards compaction))
    (member : other ∈ lsmt.files level) : file.number ≠ other.number := by
  have above := (outputFiles_number isAdded).1
  have below := numbered level other member
  omega

omit inv in
/-- The numbers that are deleted in the target level. -/
theorem deleted_of_target {other : FileMetaData}
    (stays : other.number ∉ (if target = compaction.level then compaction.inputs
      else compaction.nextInputs).map FileMetaData.number) :
    target = compaction.level ∧ other ∉ compaction.reads ∨
      target = compaction.level + 1 ∧ other ∉ compaction.nextInputs := by
  have gone : ∀ files : List FileMetaData, other ∈ files →
      other.number ∈ files.map FileMetaData.number :=
    fun files member => List.mem_map_of_mem member
  rcases fits.destined with ⟨same, none⟩ | next
  · rw [if_pos same] at stays
    refine .inl ⟨same, ?_⟩
    rw [Compaction.reads, none, List.append_nil]
    exact fun member => stays (gone _ member)
  · rw [if_neg (by omega)] at stays
    exact .inr ⟨next, fun member => stays (gone _ member)⟩

/-- The files that stay in the target level keep clear of the outputs. -/
theorem addedFiles_clear (positive : 0 < target) {file other : FileMetaData}
    (isAdded : file ∈ outputFiles config lsmt.fileId (lsmt.outputsOf config guards compaction))
    (member : other ∈ lsmt.files target)
    (stays : other.number ∉ (if target = compaction.level then compaction.inputs
      else compaction.nextInputs).map FileMetaData.number) :
    Apart file other ∨ Apart other file := by
  have unread : other ∉ compaction.reads := by
    rcases deleted_of_target fits stays with ⟨-, unread⟩ | ⟨next, notNext⟩
    · exact unread
    · intro isRead
      rcases List.mem_append.mp isRead with isInput | isNext
      · have twice := (inv.once _ _ other other (fits.inputs isInput) member rfl).1
        omega
      · exact notNext isNext
  obtain ⟨⟨front, frontRead, starts⟩, behind, behindRead, ends⟩ :=
    addedFiles_within inv fits config guards isAdded
  rcases fits.aside positive other member unread with below | above
  · exact .inr ((below front frontRead).trans_le starts)
  · exact .inl (ends.trans_lt (above behind behindRead))

/-- The target level after the compaction is in order. -/
theorem placedFiles_apart (positive : 0 < target) :
    (placeFiles ((if target = compaction.level then compaction.inputs
        else compaction.nextInputs).map FileMetaData.number)
      ((outputFiles config lsmt.fileId (lsmt.outputsOf config guards compaction)).foldr
        insertFile []) (lsmt.files target)).Pairwise Apart := by
  rw [foldr_insertFile_of_apart (addedFiles_apart inv fits config guards)]
  refine placeFiles_apart (addedFiles_apart inv fits config guards)
    (inv.apart target positive) ?_
  intro file isAdded other member stays
  exact addedFiles_clear inv fits config guards positive isAdded member stays

/-- The assertion holds in a compaction whose inputs fit. -/
theorem Checked.compact_eq :
    Checked.compact config guards compaction target lsmt =
      .ok (lsmt.compact config guards compaction target) := by
  have placed := placedFiles_apart inv fits config guards
  simp only [Checked.compact, Checked.installCompactionResults, Lsmt.compact,
    Lsmt.installCompactionResults]
  by_cases same : target = compaction.level
  · simp only [if_pos same] at placed ⊢
    exact Checked.applyFileChanges_eq placed
  · simp only [if_neg same] at placed ⊢
    rw [Checked.applyFileChanges_eq]
    · refine Checked.applyFileChanges_eq ?_
      intro positive
      have untouched : ((Lsmt.noteOutputs compaction (outputFiles config lsmt.fileId
          (lsmt.outputsOf config guards compaction)) (lsmt.writeOutputs config
            (lsmt.outputsOf config guards compaction))).applyFileChanges compaction.level []
              (compaction.inputs.map FileMetaData.number)).files target =
          lsmt.files target := by
        rw [applyFileChanges_nil, Function.update_of_ne same]
        rfl
      exact untouched.symm ▸ placed positive
    · intro positive
      exact (inv.apart _ positive).filter _

omit inv in
/-- The levels that a compaction does not write to lose their inputs. -/
theorem compact_files_of_ne {level : Nat} (other : level ≠ target) :
    (lsmt.compact config guards compaction target).files level =
      unreadLevels lsmt.files (some compaction) level := by
  simp only [Lsmt.compact, Lsmt.installCompactionResults, unreadLevels]
  rcases fits.destined with ⟨same, none⟩ | next
  · rw [if_pos same, if_neg (same ▸ other)]
    simp only [Lsmt.applyFileChanges, Function.update_of_ne other, none, ite_self,
      List.map_nil]
    simp [writeOutputs]
  · have different : ¬ target = compaction.level := by omega
    rw [if_neg different]
    simp only [Lsmt.applyFileChanges, Function.update_of_ne other]
    by_cases same : level = compaction.level
    · subst same
      rw [Function.update_self, if_pos rfl]
      rfl
    · rw [Function.update_of_ne same, if_neg same, if_neg (next ▸ other)]
      simp [writeOutputs]

omit inv fits in
/-- The level that a compaction writes to. -/
theorem compact_files_target :
    (lsmt.compact config guards compaction target).files target =
      placeFiles ((if target = compaction.level then compaction.inputs
          else compaction.nextInputs).map FileMetaData.number)
        ((outputFiles config lsmt.fileId (lsmt.outputsOf config guards compaction)).foldr
          insertFile []) (lsmt.files target) := by
  simp only [Lsmt.compact, Lsmt.installCompactionResults]
  by_cases same : target = compaction.level
  · simp only [if_pos same, Lsmt.applyFileChanges, Function.update_self]
    rfl
  · simp only [if_neg same, Lsmt.applyFileChanges, Function.update_self,
      Function.update_of_ne same]
    rfl

/-- The target level holds the outputs and the files that were not read. -/
theorem compact_files_perm :
    ((lsmt.compact config guards compaction target).files target).Perm
      (outputFiles config lsmt.fileId (lsmt.outputsOf config guards compaction) ++
        unreadLevels lsmt.files (some compaction) target) := by
  have isTarget : unreadLevels lsmt.files (some compaction) target =
      (lsmt.files target).filter (fun file =>
        !((if target = compaction.level then compaction.inputs
          else compaction.nextInputs).map FileMetaData.number).contains file.number) := by
    simp only [unreadLevels]
    rcases fits.destined with ⟨same, -⟩ | next
    · rw [if_pos same, if_pos same]
    · have different : ¬ target = compaction.level := by omega
      rw [if_neg different, if_pos next, if_neg different]
  have fresh : (outputFiles config lsmt.fileId (lsmt.outputsOf config guards compaction)).filter
      (fun file => !((if target = compaction.level then compaction.inputs
        else compaction.nextInputs).map FileMetaData.number).contains file.number) =
      outputFiles config lsmt.fileId (lsmt.outputsOf config guards compaction) := by
    rw [List.filter_eq_self]
    intro file isAdded
    simp only [List.contains_eq_mem, Bool.not_eq_true', decide_eq_false_iff_not]
    intro isDeleted
    obtain ⟨other, isInput, same⟩ := List.mem_map.mp isDeleted
    have isRead : other ∈ compaction.reads := by
      split at isInput
      · exact List.mem_append_left _ isInput
      · exact List.mem_append_right _ isInput
    obtain ⟨level, inside⟩ := mem_level_of_read fits isRead
    exact addedFiles_fresh config guards inv.numbered isAdded inside same.symm
  rw [compact_files_target, isTarget, foldr_insertFile_of_apart
    (addedFiles_apart inv fits config guards)]
  refine (placeFiles_perm _ _ _).trans ?_
  rw [List.filter_append, fresh]

theorem Leveled.compact : Leveled (lsmt.compact config guards compaction target) := by
  have sublist : ∀ level, (unreadLevels lsmt.files (some compaction) level).Sublist
      (lsmt.files level) := fun level => List.filter_sublist
  have tables : (lsmt.compact config guards compaction target).tables =
      (lsmt.writeOutputs config (lsmt.outputsOf config guards compaction)).tables := by
    simp only [Lsmt.compact, Lsmt.installCompactionResults]
    split <;> rfl
  have fileId := compact_fileId config guards compaction target lsmt
  refine inv.install (unreadLevels lsmt.files (some compaction)) target _ sublist
    (fun level other => compact_files_of_ne fits config guards other)
    (compact_files_perm inv fits config guards) ?_
    (outputFiles_nodup config lsmt.fileId _) ?_ ?_ ?_ ?_ ?_
  · intro positive
    rw [compact_files_target]
    exact placedFiles_apart inv fits config guards positive
  · intro file isAdded level other stays
    exact addedFiles_fresh config guards inv.numbered isAdded ((sublist level).subset stays)
  · intro file isAdded
    obtain ⟨output, -, describes, same⟩ := addedFiles_described inv fits config guards isAdded
    rw [tables, same]
    exact describes
  · intro level file stays
    have below := inv.numbered level file ((sublist level).subset stays)
    rw [tables]
    exact writeOutputs_old config _ below
  · intro file isAdded
    rw [fileId]
    exact (outputFiles_number isAdded).2
  · rw [fileId]
    exact config.le_numberAfter _ _

end Compact

/-! ## Trivial moves -/

section TrivialMove

variable {lsmt : Lsmt} {compaction : Compaction} {file : FileMetaData}
  (inv : Leveled lsmt) (fits : Fits lsmt.files compaction (compaction.level + 1))
  (single : compaction.inputs = [file]) (alone : compaction.nextInputs = [])

include inv fits single alone

/-- The moved file keeps clear of the files of the next level. -/
theorem movedFile_clear {other : FileMetaData}
    (member : other ∈ lsmt.files (compaction.level + 1)) :
    Apart file other ∨ Apart other file := by
  have reads : compaction.reads = [file] := by
    rw [Compaction.reads, single, alone, List.append_nil]
  have isInput : file ∈ lsmt.files compaction.level := by
    refine fits.inputs ?_
    rw [single]
    exact List.mem_singleton_self _
  have unread : other ∉ compaction.reads := by
    rw [reads, List.mem_singleton]
    rintro rfl
    have twice := (inv.once _ _ other other isInput member rfl).1
    omega
  rcases fits.aside (Nat.succ_pos _) other member unread with below | above
  · exact .inr (below file (by rw [reads]; exact List.mem_singleton_self _))
  · exact .inl (above file (by rw [reads]; exact List.mem_singleton_self _))

theorem movedFiles_apart :
    (placeFiles [] [file] (lsmt.files (compaction.level + 1))).Pairwise Apart := by
  refine placeFiles_apart (List.pairwise_singleton _ _)
    (inv.apart _ (Nat.succ_pos _)) ?_
  intro moved isMoved other member _
  rw [List.mem_singleton.mp isMoved]
  exact movedFile_clear inv fits single alone member

theorem Checked.trivialMove_eq :
    Checked.trivialMove compaction lsmt = .ok (lsmt.trivialMove compaction) := by
  have taken : compaction.inputs.take 1 = [file] := by
    rw [single]
    rfl
  rw [Checked.trivialMove, Lsmt.trivialMove, taken, Checked.applyFileChanges_eq]
  · refine Checked.applyFileChanges_eq ?_
    intro positive
    have untouched : (lsmt.applyFileChanges (compaction.level + 1) [file] []).files
        compaction.level = lsmt.files compaction.level :=
      Function.update_of_ne (Nat.succ_ne_self _).symm _ _
    rw [untouched]
    exact (inv.apart _ positive).filter _
  · intro _
    exact movedFiles_apart inv fits single alone

theorem Leveled.trivialMove : Leveled (lsmt.trivialMove compaction) := by
  have taken : compaction.inputs.take 1 = [file] := by
    rw [single]
    rfl
  have isInput : file ∈ lsmt.files compaction.level := by
    refine fits.inputs ?_
    rw [single]
    exact List.mem_singleton_self _
  have elsewhere : ∀ level, level ≠ compaction.level →
      (lsmt.files level).filter (fun other =>
        !([file].map FileMetaData.number).contains other.number) = lsmt.files level := by
    intro level different
    rw [List.filter_eq_self]
    intro other member
    simp only [List.map_cons, List.map_nil, List.contains_eq_mem, List.mem_singleton,
      Bool.not_eq_true', decide_eq_false_iff_not]
    intro same
    exact different (inv.once _ _ other file member isInput same).1
  have placed : (lsmt.trivialMove compaction).files (compaction.level + 1) =
      placeFiles [] [file] (lsmt.files (compaction.level + 1)) := by
    rw [Lsmt.trivialMove, taken, applyFileChanges_nil,
      Function.update_of_ne (Nat.succ_ne_self _)]
    simp only [Lsmt.applyFileChanges, Function.update_self]
    rfl
  -- what stays are the levels without the moved file
  refine inv.install (fun level => (lsmt.files level).filter (fun other =>
      !([file].map FileMetaData.number).contains other.number)) (compaction.level + 1) [file]
    (fun level => List.filter_sublist) ?_ ?_ ?_ (List.nodup_singleton _) ?_ ?_ ?_ ?_ le_rfl
  · intro level other
    rw [Lsmt.trivialMove, taken, applyFileChanges_nil]
    by_cases same : level = compaction.level
    · subst same
      rw [Function.update_self]
      simp only [Lsmt.applyFileChanges, Function.update_of_ne other]
    · rw [Function.update_of_ne same]
      simp only [Lsmt.applyFileChanges, Function.update_of_ne other]
      exact (elsewhere level same).symm
  · rw [placed, elsewhere _ (Nat.succ_ne_self _)]
    refine (placeFiles_perm _ _ _).trans (List.Perm.of_eq ?_)
    simp
  · intro _
    rw [placed]
    exact movedFiles_apart inv fits single alone
  · intro moved isMoved level other stays same
    rw [List.mem_singleton.mp isMoved] at same
    simpa [same] using (List.mem_filter.mp stays).2
  · intro moved isMoved
    rw [List.mem_singleton.mp isMoved]
    exact inv.described _ file isInput
  · intro level other stays
    rfl
  · intro moved isMoved
    rw [List.mem_singleton.mp isMoved]
    exact inv.numbered _ file isInput

end TrivialMove

end AhaTree
