import AhaTree.LevelOrder

/-!
# The inputs of a compaction

Where the levels are in order, `SetupOtherInputs` takes all files of the next
level that meet the range of its inputs, no boundary file is ever found, and the
inputs keep the order of their level.  `PickLevelForMemTableOutput` returns a
level that no file of the range is in.
-/

namespace AhaTree

/-! ## Comparisons of internal keys -/

theorem InternalKey.userKey_le_of_isLT {left right : InternalKey}
    (less : (left.compare right).isLT = true) : left.userKey ≤ right.userKey := by
  rw [Ordering.isLT_iff_eq_lt, compare_eq_lt] at less
  rcases less with below | ⟨same, -⟩
  · exact below.le
  · exact same.le

theorem InternalKey.userKey_le_of_not_isLT {left right : InternalKey}
    (stays : (left.compare right).isLT = false) : right.userKey ≤ left.userKey := by
  rw [← not_lt]
  intro less
  have isLess : left.compare right = .lt := compare_eq_lt.mpr (.inl less)
  rw [isLess] at stays
  cases stays

theorem InternalKey.userKey_le_of_isGT {left right : InternalKey}
    (more : (left.compare right).isGT = true) : right.userKey ≤ left.userKey := by
  refine InternalKey.userKey_le_of_not_isLT ?_
  cases result : left.compare right with
  | lt => simp [result] at more
  | eq => rfl
  | gt => rfl

theorem InternalKey.userKey_le_of_not_isGT {left right : InternalKey}
    (stays : (left.compare right).isGT = false) : left.userKey ≤ right.userKey := by
  rcases Slice.compare_spec left.userKey right.userKey with
    ⟨-, less⟩ | ⟨-, same⟩ | ⟨result, -⟩
  · exact less.le
  · exact same.le
  · simp [InternalKey.compare, result] at stays

/-! ## Ranges -/

/-- One round of `GetRange`. -/
def widenRange (range : InternalKey × InternalKey) (file : FileMetaData) :
    InternalKey × InternalKey :=
  (if (file.smallest.compare range.1).isLT then file.smallest else range.1,
    if (file.largest.compare range.2).isGT then file.largest else range.2)

theorem getRange_cons (first : FileMetaData) (files : List FileMetaData) :
    getRange (first :: files) =
      files.foldl widenRange (first.smallest, first.largest) := rfl

theorem widenRange_lower (range : InternalKey × InternalKey) (file : FileMetaData) :
    (widenRange range file).1.userKey ≤ range.1.userKey ∧
      (widenRange range file).1.userKey ≤ file.start := by
  simp only [widenRange]
  split
  · rename_i less
    exact ⟨InternalKey.userKey_le_of_isLT less, le_rfl⟩
  · rename_i stays
    exact ⟨le_rfl, InternalKey.userKey_le_of_not_isLT (Bool.not_eq_true _ ▸ stays)⟩

theorem widenRange_upper (range : InternalKey × InternalKey) (file : FileMetaData) :
    range.2.userKey ≤ (widenRange range file).2.userKey ∧
      file.limit ≤ (widenRange range file).2.userKey := by
  simp only [widenRange]
  split
  · rename_i more
    exact ⟨InternalKey.userKey_le_of_isGT more, le_rfl⟩
  · rename_i stays
    exact ⟨le_rfl, InternalKey.userKey_le_of_not_isGT (Bool.not_eq_true _ ▸ stays)⟩

theorem foldl_widenRange (range : InternalKey × InternalKey) (files : List FileMetaData) :
    (files.foldl widenRange range).1.userKey ≤ range.1.userKey ∧
      range.2.userKey ≤ (files.foldl widenRange range).2.userKey ∧
      ∀ file ∈ files, (files.foldl widenRange range).1.userKey ≤ file.start ∧
        file.limit ≤ (files.foldl widenRange range).2.userKey := by
  induction files generalizing range with
  | nil => exact ⟨le_rfl, le_rfl, by simp⟩
  | cons first files ih =>
      obtain ⟨lower, upper, inside⟩ := ih (widenRange range first)
      have lowerFirst := widenRange_lower range first
      have upperFirst := widenRange_upper range first
      rw [List.foldl_cons]
      refine ⟨lower.trans lowerFirst.1, upperFirst.1.trans upper, ?_⟩
      intro file member
      rcases List.mem_cons.mp member with rfl | later
      · exact ⟨lower.trans lowerFirst.2, upperFirst.2.trans upper⟩
      · exact inside file later

/-- `GetRange` covers its files. -/
theorem getRange_covers {files : List FileMetaData} {file : FileMetaData}
    (member : file ∈ files) : (getRange files).1.userKey ≤ file.start ∧
      file.limit ≤ (getRange files).2.userKey := by
  cases files with
  | nil => cases member
  | cons first files =>
      obtain ⟨lower, upper, inside⟩ := foldl_widenRange (first.smallest, first.largest) files
      rw [getRange_cons]
      rcases List.mem_cons.mp member with rfl | later
      · exact ⟨lower, upper⟩
      · exact inside file later

theorem foldl_widenRange_attained (range : InternalKey × InternalKey)
    (files : List FileMetaData) : (files.foldl widenRange range).2 = range.2 ∨
      ∃ file ∈ files, (files.foldl widenRange range).2 = file.largest := by
  induction files generalizing range with
  | nil => exact .inl rfl
  | cons first files ih =>
      rw [List.foldl_cons]
      rcases ih (widenRange range first) with same | ⟨file, member, same⟩
      · rw [same]
        simp only [widenRange]
        split
        · exact .inr ⟨first, List.mem_cons_self, rfl⟩
        · exact .inl rfl
      · exact .inr ⟨file, List.mem_cons_of_mem _ member, same⟩

/-- The upper end of the range is the largest key of some file. -/
theorem getRange_attained {files : List FileMetaData} (filled : files ≠ []) :
    ∃ file ∈ files, (getRange files).2 = file.largest := by
  obtain ⟨first, rest, rfl⟩ := List.exists_cons_of_ne_nil filled
  rw [getRange_cons]
  rcases foldl_widenRange_attained (first.smallest, first.largest) rest with
    same | ⟨file, member, same⟩
  · exact ⟨first, List.mem_cons_self, same⟩
  · exact ⟨file, List.mem_cons_of_mem _ member, same⟩

/-! ## Files that meet a range -/

/-- The range of the file and the given one have a user key in common. -/
def meets (low up : Slice) (file : FileMetaData) : Bool :=
  decide (low ≤ file.limit ∧ file.start ≤ up)

theorem overlapPass_of_deeper (low up : Slice) (files : List FileMetaData) :
    overlapPass false low up files = .done (files.filter (meets low up)) := by
  induction files with
  | nil => rfl
  | cons file files ih =>
      rw [overlapPass, List.filter_cons]
      by_cases below : (Slice.compare file.limit low).isLT = true
      · have misses : ¬ meets low up file = true := by
          rw [Ordering.isLT_iff_eq_lt, Slice.compare_eq_lt] at below
          simp [meets, not_le.mpr below]
        rw [if_pos below, if_neg misses, ih]
      · by_cases above : (Slice.compare file.start up).isGT = true
        · have misses : ¬ meets low up file = true := by
            rw [Ordering.isGT_iff_eq_gt, Slice.compare_eq_gt] at above
            simp [meets, not_le.mpr above]
          rw [if_neg below, if_pos above, if_neg misses, ih]
        · have hits : meets low up file = true := by
            rw [Ordering.isLT_iff_eq_lt, Slice.compare_eq_lt, not_lt] at below
            rw [Ordering.isGT_iff_eq_gt, Slice.compare_eq_gt, not_lt] at above
            simp [meets, below, above]
          simp only [if_neg below, if_neg above, Bool.false_and, hits, if_true, ih]
          rfl

/-- Below level 0 `GetOverlappingInputs` takes the files that meet the range. -/
theorem getOverlappingInputs_eq_filter (levels : Levels) {level : Nat}
    (positive : 0 < level) (low up : InternalKey) :
    getOverlappingInputs levels level low up =
      (levels level).filter (meets low.userKey up.userKey) := by
  have deeper : (level == 0) = false := by
    rw [beq_eq_false_iff_ne]
    omega
  rw [getOverlappingInputs, deeper, overlapPasses, overlapPass_of_deeper]

/-! ## Boundary files -/

theorem nearerBoundary_eq_none {largest : InternalKey} {file : FileMetaData}
    (inside : ¬ ((file.smallest.compare largest).isGT = true ∧ file.start = largest.userKey)) :
    nearerBoundary largest none file = none := by
  rw [nearerBoundary, if_neg]
  rwa [Bool.and_eq_true, beq_iff_eq]

theorem findSmallestBoundaryFile_eq_none {levelFiles : List FileMetaData}
    {largest : InternalKey} (inside : ∀ file ∈ levelFiles,
      ¬ ((file.smallest.compare largest).isGT = true ∧ file.start = largest.userKey)) :
    findSmallestBoundaryFile levelFiles largest = none := by
  rw [findSmallestBoundaryFile]
  induction levelFiles with
  | nil => rfl
  | cons file files ih =>
      rw [List.foldl_cons, nearerBoundary_eq_none (inside file List.mem_cons_self)]
      exact ih (fun other later => inside other (List.mem_cons_of_mem _ later))

/-- In a level that is in order no file starts with the user key that another
one ends with. -/
theorem addBoundaryInputs_eq_self {levelFiles files : List FileMetaData}
    (sorted : levelFiles.Pairwise Apart)
    (upright : ∀ file ∈ levelFiles, (file.smallest.compare file.largest).isGT = false)
    (subset : files ⊆ levelFiles) : addBoundaryInputs levelFiles files = files := by
  cases files with
  | nil => rfl
  | cons first rest =>
      obtain ⟨last, isLast, same⟩ := getRange_attained (List.cons_ne_nil first rest)
      have none : findSmallestBoundaryFile levelFiles (getRange (first :: rest)).2 = none := by
        refine findSmallestBoundaryFile_eq_none ?_
        rintro file member ⟨behind, touches⟩
        rw [same] at behind touches
        have touch : file.start = last.limit := touches
        rcases apart_or_eq sorted member (subset isLast) with rfl | before | after
        · rw [upright file member] at behind
          cases behind
        · exact absurd (before.trans_le last.start_le_limit)
            (not_lt.mpr (touch ▸ file.start_le_limit))
        · exact absurd after (not_lt.mpr touch.le)
      rw [addBoundaryInputs]
      cases levelFiles.length with
      | zero => rfl
      | succ fuel => rw [addBoundaryLoop, none]

/-! ## `SetupOtherInputs` -/

/-- The levels below level 0 are in order, and the ends of their files too. -/
structure InOrder (levels : Levels) : Prop where
  apart : ∀ level, 0 < level → (levels level).Pairwise Apart
  upright : ∀ level, ∀ file ∈ levels level,
    (file.smallest.compare file.largest).isGT = false

/-- The inputs of a compaction to the next level: from one level, in its order
below level 0, and all files of the next level that meet a range around them. -/
structure Chosen (levels : Levels) (level : Nat) (inputs nextInputs : List FileMetaData) :
    Prop where
  subset : inputs ⊆ levels level
  sublist : 0 < level → inputs.Sublist (levels level)
  next : ∃ low up, (∀ file ∈ inputs, low ≤ file.start ∧ file.limit ≤ up) ∧
    nextInputs = (levels (level + 1)).filter (meets low up)

namespace Lsmt

/-- The files of the next level for a choice of inputs. -/
theorem nextInputs_eq {levels : Levels} (inOrder : InOrder levels) (level : Nat)
    (inputs : List FileMetaData) :
    addBoundaryInputs (levels (level + 1)) (getOverlappingInputs levels (level + 1)
        (getRange inputs).1 (getRange inputs).2) =
      (levels (level + 1)).filter
        (meets (getRange inputs).1.userKey (getRange inputs).2.userKey) := by
  rw [getOverlappingInputs_eq_filter levels (Nat.succ_pos level)]
  exact addBoundaryInputs_eq_self (inOrder.apart _ (Nat.succ_pos level))
    (inOrder.upright _) List.filter_sublist.subset

theorem addBoundaryInputs_sublist {levels : Levels} (inOrder : InOrder levels) {level : Nat}
    (positive : 0 < level) {files : List FileMetaData}
    (sublist : files.Sublist (levels level)) :
    (addBoundaryInputs (levels level) files).Sublist (levels level) := by
  rw [addBoundaryInputs_eq_self (inOrder.apart level positive) (inOrder.upright level)
    sublist.subset]
  exact sublist

/-- The inputs stay as they are, or all files of the level come in that meet the
range. -/
theorem expandInputs_cases (config : LsmtConfig) (levels : Levels) (level : Nat)
    (inputs nextInputs : List FileMetaData) :
    expandInputs config levels level inputs nextInputs = (inputs, nextInputs) ∨
      ∃ low up,
        let expanded := addBoundaryInputs (levels level)
          (getOverlappingInputs levels level low up)
        expandInputs config levels level inputs nextInputs =
          (expanded, addBoundaryInputs (levels (level + 1)) (getOverlappingInputs levels
            (level + 1) (getRange expanded).1 (getRange expanded).2)) := by
  simp only [expandInputs]
  split
  · exact .inl rfl
  · split
    · split
      · exact .inr ⟨_, _, rfl⟩
      · exact .inl rfl
    · exact .inl rfl

/-- Inputs of one level with the files that `SetupOtherInputs` adds to them. -/
theorem chosen_of_sublist {levels : Levels} (inOrder : InOrder levels) {level : Nat}
    {files : List FileMetaData} (subset : files ⊆ levels level)
    (sublist : 0 < level → files.Sublist (levels level)) :
    Chosen levels level (addBoundaryInputs (levels level) files)
      (addBoundaryInputs (levels (level + 1)) (getOverlappingInputs levels (level + 1)
        (getRange (addBoundaryInputs (levels level) files)).1
        (getRange (addBoundaryInputs (levels level) files)).2)) := by
  refine ⟨addBoundaryInputs_subset subset, ?_, _, _, ?_, nextInputs_eq inOrder level _⟩
  · intro positive
    exact addBoundaryInputs_sublist inOrder positive (sublist positive)
  · intro file member
    exact getRange_covers member

theorem setupOtherInputs_chosen {lsmt : Lsmt} (inOrder : InOrder lsmt.files)
    (config : LsmtConfig) (level : Nat) {chosen : List FileMetaData}
    (subset : chosen ⊆ lsmt.files level)
    (sublist : 0 < level → chosen.Sublist (lsmt.files level)) :
    Chosen lsmt.files level (setupOtherInputs config lsmt level chosen).1.inputs
      (setupOtherInputs config lsmt level chosen).1.nextInputs := by
  simp only [setupOtherInputs]
  rcases expandInputs_cases config lsmt.files level (addBoundaryInputs (lsmt.files level) chosen)
    (addBoundaryInputs (lsmt.files (level + 1)) (getOverlappingInputs lsmt.files (level + 1)
      (getRange (addBoundaryInputs (lsmt.files level) chosen)).1
      (getRange (addBoundaryInputs (lsmt.files level) chosen)).2)) with same | ⟨low, up, same⟩
  · rw [same]
    exact chosen_of_sublist inOrder subset sublist
  · rw [same]
    refine chosen_of_sublist inOrder (getOverlappingInputs_subset _ _ _ _) ?_
    intro positive
    rw [getOverlappingInputs_eq_filter lsmt.files positive]
    exact List.filter_sublist

theorem overlapTop_sublist {lsmt : Lsmt} {level : Nat} {file : FileMetaData}
    (member : file ∈ lsmt.files level) (positive : 0 < level) :
    (lsmt.overlapTop level file).Sublist (lsmt.files level) := by
  rw [overlapTop, if_neg (Nat.pos_iff_ne_zero.mp positive)]
  exact List.singleton_sublist.mpr member

/-- The compaction that starts with a file of a level. -/
theorem setupOtherInputs_overlapTop {lsmt : Lsmt} (inOrder : InOrder lsmt.files)
    (config : LsmtConfig) {level : Nat} {file : FileMetaData}
    (member : file ∈ lsmt.files level) :
    Chosen lsmt.files level
      (setupOtherInputs config lsmt level (lsmt.overlapTop level file)).1.inputs
      (setupOtherInputs config lsmt level (lsmt.overlapTop level file)).1.nextInputs :=
  setupOtherInputs_chosen inOrder config level (overlapTop_subset member)
    (overlapTop_sublist member)

end Lsmt

/-! ## Searching a level -/

/-- One probe of `FindFile`. -/
def probeFile (files : List FileMetaData) (key : InternalKey) (index : Nat) : Ordering :=
  match files[index]? with
  | some file => if (file.largest.compare key).isLT then .gt else .lt
  | none => .lt

theorem findFile_eq (files : List FileMetaData) (key : InternalKey) :
    findFile files key =
      match Lib.bisect (probeFile files key) files.length 0 files.length with
      | .hit index => index
      | .gap index => index := rfl

theorem probeFile_eq_gt {files : List FileMetaData} {key : InternalKey} {index : Nat} :
    probeFile files key index = .gt ↔
      ∃ file, files[index]? = some file ∧ (file.largest.compare key).isLT = true := by
  rw [probeFile]
  cases files[index]? with
  | none => simp
  | some file => simp

theorem probeFile_ne_eq (files : List FileMetaData) (key : InternalKey) (index : Nat) :
    probeFile files key index ≠ .eq := by
  rw [probeFile]
  cases files[index]? with
  | none => simp
  | some file =>
      simp only
      split <;> simp

/-- What the last probes of `FindFile` have seen. -/
theorem findFile_spec (files : List FileMetaData) (key : InternalKey) :
    findFile files key ≤ files.length ∧
      (findFile files key = 0 ∨ probeFile files key (findFile files key - 1) = .gt) ∧
      (findFile files key = files.length ∨
        probeFile files key (findFile files key) ≠ .gt) := by
  have spec := Lib.bisect_spec (probeFile files key) (Nat.zero_le files.length)
    (Nat.sub_le files.length 0)
  rw [findFile_eq]
  cases outcome : Lib.bisect (probeFile files key) files.length 0 files.length with
  | hit index =>
      rw [outcome] at spec
      exact absurd spec.2.2 (probeFile_ne_eq files key index)
  | gap index =>
      rw [outcome] at spec
      obtain ⟨-, inside, before, behind⟩ := spec
      refine ⟨inside, before, behind.imp_right ?_⟩
      intro less more
      rw [less] at more
      cases more

/-- A file that ends before a key has only such files in front of it. -/
theorem isLT_of_apart {front behind : FileMetaData} {key : InternalKey}
    (apart : Apart front behind) (less : (behind.largest.compare key).isLT = true) :
    (front.largest.compare key).isLT = true := by
  have order : front.limit < behind.limit := apart.trans_le behind.start_le_limit
  have below : behind.limit ≤ key.userKey := InternalKey.userKey_le_of_isLT less
  rw [Ordering.isLT_iff_eq_lt, InternalKey.compare_eq_lt]
  exact .inl (order.trans_le below)

theorem isLT_of_mem_take {files : List FileMetaData} (sorted : files.Pairwise Apart)
    (key : InternalKey) {file : FileMetaData}
    (member : file ∈ files.take (findFile files key)) :
    (file.largest.compare key).isLT = true := by
  obtain ⟨-, before, -⟩ := findFile_spec files key
  obtain ⟨place, bound, same⟩ := List.mem_take_iff_getElem.mp member
  rcases before with none | passed
  · omega
  · obtain ⟨last, isLast, small⟩ := probeFile_eq_gt.mp passed
    obtain ⟨lastBound, sameLast⟩ := List.getElem?_eq_some_iff.mp isLast
    rcases Nat.lt_or_ge place (findFile files key - 1) with earlier | here
    · have apart := List.pairwise_iff_getElem.mp sorted place (findFile files key - 1)
        (by omega) lastBound earlier
      rw [same, sameLast] at apart
      exact isLT_of_apart apart small
    · have isSame : place = findFile files key - 1 := by omega
      subst isSame
      rw [← same, sameLast]
      exact small

theorem not_isLT_of_mem_drop {files : List FileMetaData} (sorted : files.Pairwise Apart)
    (key : InternalKey) {file : FileMetaData}
    (member : file ∈ files.drop (findFile files key)) :
    (file.largest.compare key).isLT = false := by
  obtain ⟨-, -, behind⟩ := findFile_spec files key
  rcases behind with whole | stopped
  · rw [whole, List.drop_length] at member
    cases member
  · cases found : files[findFile files key]? with
    | none =>
        rw [List.drop_eq_nil_of_le (List.getElem?_eq_none_iff.mp found)] at member
        cases member
    | some first =>
        obtain ⟨bound, isFirst⟩ := List.getElem?_eq_some_iff.mp found
        have large : (first.largest.compare key).isLT = false := by
          by_contra small
          exact stopped (probeFile_eq_gt.mpr ⟨first, found, by simpa using small⟩)
        have order := sorted.sublist (List.drop_sublist (findFile files key) files)
        rw [List.drop_eq_getElem_cons bound, isFirst] at member order
        rcases List.mem_cons.mp member with rfl | later
        · exact large
        · by_contra small
          rw [isLT_of_apart ((List.pairwise_cons.mp order).1 file later)
            (by simpa using small)] at large
          cases large

/-- `FindFile` splits a level in order at the first file that does not end before
the key. -/
theorem drop_findFile {files : List FileMetaData} (sorted : files.Pairwise Apart)
    (key : InternalKey) :
    files.drop (findFile files key) =
      files.filter (fun file => !(file.largest.compare key).isLT) := by
  have whole := List.take_append_drop (findFile files key) files
  have front : (files.take (findFile files key)).filter
      (fun file => !(file.largest.compare key).isLT) = [] := by
    rw [List.filter_eq_nil_iff]
    intro file member
    simp [isLT_of_mem_take sorted key member]
  have behind : (files.drop (findFile files key)).filter
      (fun file => !(file.largest.compare key).isLT) =
        files.drop (findFile files key) := by
    rw [List.filter_eq_self]
    intro file member
    simp [not_isLT_of_mem_drop sorted key member]
  calc files.drop (findFile files key)
      = (files.take (findFile files key) ++ files.drop (findFile files key)).filter
          (fun file => !(file.largest.compare key).isLT) := by
        rw [List.filter_append, front, behind, List.nil_append]
    _ = files.filter (fun file => !(file.largest.compare key).isLT) := by
        rw [whole]

/-- Behind the seek key of a user key lie the files that do not end before it. -/
theorem seekKey_isLT {file : FileMetaData} (low : Slice)
    (bounded : file.largest.sequence < kMaxSequenceNumber) :
    (file.largest.compare ⟨low, kMaxSequenceNumber, kValueTypeForSeek⟩).isLT =
      decide (file.limit < low) := by
  have packed : file.largest.pack <
      (⟨low, kMaxSequenceNumber, kValueTypeForSeek⟩ : InternalKey).pack :=
    InternalKey.pack_lt_of_sequence_lt bounded
  rw [Bool.eq_iff_iff, Ordering.isLT_iff_eq_lt, InternalKey.compare_eq_lt,
    decide_eq_true_eq]
  constructor
  · rintro (less | ⟨-, behind⟩)
    · exact less
    · exact absurd behind (not_lt.mpr packed.le)
  · exact .inl

/-- A range that `OverlapInLevel` finds clear meets no file of the level. -/
theorem clear_of_overlapInLevel {levels : Levels} {level : Nat} (positive : 0 < level)
    (sorted : (levels level).Pairwise Apart)
    (bounded : ∀ file ∈ levels level, file.largest.sequence < kMaxSequenceNumber)
    {smallest largest : Slice}
    (clear : overlapInLevel levels level smallest largest = false) {file : FileMetaData}
    (member : file ∈ levels level) : file.limit < smallest ∨ largest < file.start := by
  rw [overlapInLevel, if_neg (Nat.pos_iff_ne_zero.mp positive)] at clear
  have split := drop_findFile sorted ⟨smallest, kMaxSequenceNumber, kValueTypeForSeek⟩
  by_cases before : file.limit < smallest
  · exact .inl before
  · have behind : file ∈ (levels level).drop (findFile (levels level)
        ⟨smallest, kMaxSequenceNumber, kValueTypeForSeek⟩) := by
      rw [split, List.mem_filter]
      exact ⟨member, by rw [seekKey_isLT smallest (bounded file member)]; simp [before]⟩
    generalize findFile (levels level) ⟨smallest, kMaxSequenceNumber, kValueTypeForSeek⟩ =
      index at clear behind
    cases found : (levels level)[index]? with
    | none =>
        rw [List.drop_eq_nil_of_le (List.getElem?_eq_none_iff.mp found)] at behind
        cases behind
    | some first =>
        rw [found] at clear
        obtain ⟨bound, isFirst⟩ := List.getElem?_eq_some_iff.mp found
        have above : largest < first.start := by
          simpa [Ordering.isLT_iff_eq_lt] using clear
        have order := sorted.sublist (List.drop_sublist index (levels level))
        rw [List.drop_eq_getElem_cons bound, isFirst] at order behind
        rcases List.mem_cons.mp behind with rfl | later
        · exact .inr above
        · have apart := (List.pairwise_cons.mp order).1 file later
          exact .inr (above.trans (first.start_le_limit.trans_lt apart))

/-! ## `PickLevelForMemTableOutput` -/

theorem pickDeeper_clear (config : LsmtConfig) (levels : Levels) (smallest largest : Slice)
    (fuel level : Nat) :
    let picked := pickDeeper config levels smallest largest fuel level
    picked = level ∨ overlapInLevel levels picked smallest largest = false := by
  induction fuel generalizing level with
  | zero => exact .inl rfl
  | succ fuel ih =>
      simp only [pickDeeper]
      split
      · exact .inl rfl
      · rename_i clear
        split
        · exact .inl rfl
        · rcases ih (level + 1) with same | deeper
          · rw [same]
            exact .inr (by simpa using clear)
          · exact .inr deeper

/-- The picked level is level 0 or clear of the range. -/
theorem pickLevelForMemTableOutput_clear (config : LsmtConfig) (levels : Levels)
    (smallest largest : Slice) :
    let picked := pickLevelForMemTableOutput config levels smallest largest
    picked = 0 ∨ overlapInLevel levels picked smallest largest = false := by
  simp only [pickLevelForMemTableOutput]
  split
  · exact .inl (ite_self 0)
  · split
    · exact .inl rfl
    · exact pickDeeper_clear config levels smallest largest _ 0

end AhaTree
