import AhaTree.GuardedOutputs
import AhaTree.LeafAdaptation
import AhaTree.LevelRuns

/-!
# The flush after a compaction by pivots

`InstallLSMTfilesToBol` compacts the bottom level by the pivots of the root page
when its files do not match them, lowers the first pivot, and flushes what the
bottom level is then.  That is another level when the compaction has left
nothing, and nobody has looked at its files.
-/

namespace AhaTree

open Lsmt

/-! ## The code -/

namespace Slotted.Page

/-- The pivots and children of an index page. -/
def items (page : Page) : IndexItems :=
  (List.range page.itemNum).map fun offset =>
    (page.readPivotAtOffset offset, (page.readChildAtOffset offset).toNat)

/-- `PageUpdateMinPivot` can do what is asked of it, if it is asked: the key has the size
of the first pivot, or the page has no other pivot and has room. -/
def CanLower (page : Page) (key : Slice) : Prop :=
  0 < page.itemNum → key < (page.decodeEntry 0).1 →
    key.length = (page.decodeEntry 0).1.length ∨ (page.itemNum = 1 ∧ KeyFits page key)

end Slotted.Page

open Slotted (Page)

/-- The part of `InstallLSMTfilesToBol` between a failed check and the flush: the
root page and the LSMT then. -/
def compactByPivots (config : LsmtConfig) (page : Page) (lsmt : Lsmt) :
    Except Halt (Page × Lsmt) :=
  match Checked.compactBottomLevel config (some page.keys) lsmt with
  | .error halt => .error halt
  | .ok after =>
      match getBottomLevelFiles after.files with
      | [] => .ok (page, after)
      | first :: _ => .ok (page.mayUpdateMinPivot first.start, after)

/-- The check of `FlushLSMTfilesToBol` lets the files of the bottom level
through. -/
def FlushPasses (config : LsmtConfig) (page : Page) (lsmt : Lsmt) : Prop :=
  ∃ updated after, compactByPivots config page lsmt = .ok (updated, after) ∧
    ∃ answer, fileAcrossPivots updated.items (getBottomLevelFiles after.files) = some answer ∧
      answer.across = false

/-! ## What decides -/

/-- All of a level as the inputs of a compaction. -/
def wholeLevel (levels : Levels) (level : Nat) : Compaction := ⟨level, levels level, [], []⟩

/-- What `CompactBottomLevel` leaves of the bottom level fits the pivots: a newest
entry there is a value, or the files of the level above are in order, and none
has a pivot behind the first one inside. -/
def NextFits (page : Page) (lsmt : Lsmt) : Prop :=
  ∀ level ∈ getBottomLevel lsmt.files,
    holdsLive none (mergedInput lsmt.tables (wholeLevel lsmt.files level)) = true ∨
      filesInOrder [] (getBottomLevelFiles (Function.update lsmt.files level [])) = true ∧
        ¬ Straddled page.keys.tail
          (getBottomLevelFiles (Function.update lsmt.files level []))

/-- The key that the flush starts with: the first one in the bottom level whose newest
entry there is a value, or else the start of the files above that level. -/
def firstFlushed (lsmt : Lsmt) : Option Slice :=
  (getBottomLevel lsmt.files).bind fun level =>
    match (firstVersions none (mergedInput lsmt.tables (wholeLevel lsmt.files level))).find?
        (fun entry => decide entry.IsValue) with
    | some entry => some entry.userKey
    | none =>
        (getBottomLevelFiles (Function.update lsmt.files level [])).head?.map FileMetaData.start

/-- The key that the flush starts with can be put in the place of the first pivot. -/
def LowersWell (page : Page) (lsmt : Lsmt) : Prop :=
  ∀ key ∈ firstFlushed lsmt, page.CanLower key

/-! ## Files in order -/

theorem Slice.strcmp_ne_lt {left right : Slice} (order : left ≤ right) :
    Slice.strcmp right left ≠ .lt := by
  induction left generalizing right with
  | nil =>
      cases right with
      | nil => simp [Slice.strcmp]
      | cons first rest =>
          rw [Slice.strcmp]
          split <;> simp
  | cons head tail ih =>
      cases right with
      | nil => exact absurd order (not_le.mpr (List.nil_lt_cons head tail))
      | cons first rest =>
          rw [Slice.strcmp]
          rcases lt_or_eq_of_le order with less | same
          · rcases List.cons_lt_cons_iff.mp less with smaller | ⟨rfl, later⟩
            · rw [if_neg smaller.ne', compare_gt_iff_gt.mpr smaller]
              simp
            · rw [if_pos rfl]
              split
              · simp
              · exact ih later.le
          · obtain ⟨rfl, rfl⟩ := List.cons.inj same
            rw [if_pos rfl]
            split
            · simp
            · exact ih le_rfl

theorem filesInOrder_of_apart {files : List FileMetaData} (apart : files.Pairwise Apart)
    {previous : Slice} (behind : ∀ first ∈ files.head?, previous ≤ first.start) :
    filesInOrder previous files = true := by
  induction files generalizing previous with
  | nil => rfl
  | cons file files ih =>
      obtain ⟨ahead, rest⟩ := List.pairwise_cons.mp apart
      have passes : ¬ (Slice.strcmp file.start previous).isLT = true := by
        rw [Ordering.isLT_iff_eq_lt]
        exact Slice.strcmp_ne_lt (behind file rfl)
      rw [filesInOrder, Bool.eq_false_iff.mpr passes, Bool.and_false, if_neg Bool.false_ne_true]
      exact ih rest (fun next isNext => (ahead next (List.mem_of_head? isNext)).le)

/-! ## The bottom level afterwards -/

theorem getBottomLevel_update {levels : Levels} {bottom : Nat} {files : List FileMetaData}
    (isBottom : getBottomLevel levels = some bottom) (filled : files ≠ []) :
    getBottomLevel (Function.update levels bottom files) = some bottom := by
  obtain ⟨inside, -, deeper⟩ := getBottomLevel_eq_some isBottom
  cases found : getBottomLevel (Function.update levels bottom files) with
  | none =>
      have empty := (getBottomLevel_eq_none_iff _).mp found bottom inside
      rw [Function.update_self] at empty
      exact absurd empty filled
  | some other =>
      obtain ⟨otherInside, otherFilled, otherDeeper⟩ := getBottomLevel_eq_some found
      have same : other = bottom := by
        rcases Nat.lt_trichotomy other bottom with below | same | above
        · have empty := otherDeeper bottom inside below
          rw [Function.update_self] at empty
          exact absurd empty filled
        · exact same
        · rw [Function.update_of_ne (Nat.ne_of_gt above)] at otherFilled
          exact absurd (deeper other otherInside above) otherFilled
      rw [same]

/-- Where everything is deleted the added files remain. -/
theorem placeFiles_of_all {deleted : List Nat} {added base : List FileMetaData}
    (gone : ∀ file ∈ base, file.number ∈ deleted)
    (stay : ∀ file ∈ added, file.number ∉ deleted) :
    placeFiles deleted added base = added := by
  induction added generalizing base with
  | nil =>
      rw [placeFiles, List.filter_eq_nil_iff]
      intro file member
      simp [gone file member]
  | cons first added ih =>
      obtain ⟨firstStays, others⟩ := List.forall_mem_cons.mp stay
      have front : (base.takeWhile (fun file =>
          (file.largest.compare first.smallest).isLT)).filter
            (fun file => !deleted.contains file.number) = [] := by
        rw [List.filter_eq_nil_iff]
        intro file member
        simp [gone file ((List.takeWhile_sublist _).subset member)]
      have back := @ih (base.dropWhile (fun file =>
          (file.largest.compare first.smallest).isLT))
        (fun file member => gone file ((List.dropWhile_sublist _).subset member)) others
      rw [placeFiles, back, List.filter_append, front]
      simp [firstStays]

/-- The first file starts with the first entry of all outputs. -/
theorem outputFiles_start (config : LsmtConfig) (number : Nat) {outputs : List (List Entry)}
    (filled : ∀ output ∈ outputs, output ≠ []) :
    (outputFiles config number outputs).head?.map FileMetaData.start =
      outputs.flatten.head?.map Entry.userKey := by
  cases outputs with
  | nil => rfl
  | cons entries outputs =>
      cases entries with
      | nil => exact absurd rfl (filled [] List.mem_cons_self)
      | cons first rest => rfl

section Compacted

variable {lsmt : Lsmt} {level : Nat} (config : LsmtConfig) (guards : List Slice)

/-- The contents of the files that `CompactBottomLevel` writes. -/
abbrev bottomOutputs (config : LsmtConfig) (guards : List Slice) (lsmt : Lsmt) (level : Nat) :
    List (List Entry) :=
  lsmt.outputsOf config guards (wholeLevel lsmt.files level)

/-- The outputs take the place of the whole level. -/
theorem compact_whole_files (inv : Leveled lsmt) :
    (lsmt.compact config guards (wholeLevel lsmt.files level) level).files =
      Function.update lsmt.files level
        (outputFiles config lsmt.fileId (bottomOutputs config guards lsmt level)) := by
  have fits : Fits lsmt.files (wholeLevel lsmt.files level) level := Checked.fits_whole level
  funext place
  by_cases same : place = level
  · subst same
    have isLevel : place = (wholeLevel lsmt.files place).level := rfl
    rw [Function.update_self, compact_files_target, if_pos isLevel,
      foldr_insertFile_of_apart (addedFiles_apart inv fits config guards)]
    refine placeFiles_of_all ?_ ?_
    · exact fun file member => List.mem_map_of_mem member
    · intro file isAdded isDeleted
      obtain ⟨other, isInput, equal⟩ := List.mem_map.mp isDeleted
      exact addedFiles_fresh config guards inv.numbered isAdded isInput equal.symm
  · rw [Function.update_of_ne same, compact_files_of_ne fits config guards same]
    have other : ¬ place = (wholeLevel lsmt.files level).level := same
    have untouched : (if place = (wholeLevel lsmt.files level).level + 1 then
        (wholeLevel lsmt.files level).nextInputs else []) = [] := ite_self []
    simp only [unreadLevels]
    rw [if_neg other, untouched]
    simp

end Compacted

/-! ## What is left of the bottom level -/

theorem holdsLive_iff (current : Option Slice) (entries : List Entry) :
    holdsLive current entries = true ↔
      ∃ entry ∈ firstVersions current entries, entry.IsValue := by
  induction entries generalizing current with
  | nil => simp [holdsLive, firstVersions]
  | cons first entries ih =>
      rw [holdsLive, firstVersions, Bool.or_eq_true, ih]
      by_cases hidden : current = some first.userKey
      · rw [if_pos hidden, hidden]
        simp
      · rw [if_neg hidden, Bool.and_eq_true, bne_iff_ne, beq_iff_eq, and_iff_right hidden]
        simp [Entry.IsValue]

section Bottom

variable {lsmt : Lsmt} (inv : Leveled lsmt) {level : Nat}
  (isBottom : getBottomLevel lsmt.files = some level) (config : LsmtConfig)
  (guards : List Slice)

include inv isBottom

/-- The compaction of the bottom level by pivots that the page has then. -/
theorem compactBottomLevel_eq :
    Checked.compactBottomLevel config (some guards) lsmt =
      .ok (lsmt.compact config guards (wholeLevel lsmt.files level) level) := by
  have fits : Fits lsmt.files (wholeLevel lsmt.files level) level := Checked.fits_whole level
  rw [Checked.compactBottomLevel, isBottom]
  simp only [Option.isNone_some, Bool.and_false, Bool.false_eq_true, if_false,
    Option.getD_some]
  exact Checked.compact_eq inv fits config guards

omit inv in
/-- Nothing is deeper than the bottom level. -/
theorem uncovered_of_bottom (entry : Entry) :
    ¬ CoveredDeeper lsmt.files level entry.userKey := by
  rintro ⟨deeper, isDeeper, file, member, -⟩
  rw [Work.deeperLevels, List.mem_range'_1] at isDeeper
  have empty := (getBottomLevel_eq_some isBottom).2.2 deeper (by omega) (by omega)
  rw [empty] at member
  cases member

/-- Only values survive, in their order. -/
theorem bottomOutputs_flatten :
    (bottomOutputs config guards lsmt level).flatten =
      (firstVersions none (mergedInput lsmt.tables (wholeLevel lsmt.files level))).filter
        (fun entry => entry.IsValue) := by
  have fits : Fits lsmt.files (wholeLevel lsmt.files level) level := Checked.fits_whole level
  have deepSorted : ∀ deeper ∈ Work.deeperLevels level,
      (lsmt.files deeper).Pairwise Apart := by
    intro deeper member
    rw [Work.deeperLevels, List.mem_range'_1] at member
    exact inv.apart deeper (by omega)
  have joined := doCompactionWorkImpl_flatten_eq_survivors config
    (wholeLevel lsmt.files level) deepSorted
    (fun _ isInput => mergedInput_bounded inv fits isInput)
    (ascending_of_not_before (mergedInput_spec inv fits).2) guards
  rw [bottomOutputs, outputsOf, joined, survivors]
  apply List.filter_congr
  intro entry _
  exact decide_eq_decide.mpr (or_iff_left (uncovered_of_bottom isBottom entry))

theorem mem_bottomOutputs_iff {entry : Entry} :
    entry ∈ (bottomOutputs config guards lsmt level).flatten ↔
      entry ∈ firstVersions none (mergedInput lsmt.tables (wholeLevel lsmt.files level)) ∧
        entry.IsValue := by
  rw [bottomOutputs_flatten inv isBottom config guards, List.mem_filter, decide_eq_true_eq]

theorem bottomOutputs_ne_nil_iff : bottomOutputs config guards lsmt level ≠ [] ↔
    holdsLive none (mergedInput lsmt.tables (wholeLevel lsmt.files level)) = true := by
  rw [holdsLive_iff]
  constructor
  · intro written
    obtain ⟨output, isOutput⟩ := List.exists_mem_of_ne_nil _ written
    obtain ⟨entry, member⟩ := List.exists_mem_of_ne_nil _
      (outputsOf_filled config guards isOutput)
    exact ⟨entry, (mem_bottomOutputs_iff inv isBottom config guards).mp
      (List.mem_flatten.mpr ⟨output, isOutput, member⟩)⟩
  · rintro ⟨entry, survives⟩ nothing
    have member := (mem_bottomOutputs_iff inv isBottom config guards).mpr survives
    rw [nothing] at member
    cases member

/-- The files that are flushed. -/
theorem bottomLevelFiles_eq :
    getBottomLevelFiles
        (lsmt.compact config guards (wholeLevel lsmt.files level) level).files =
      if holdsLive none (mergedInput lsmt.tables (wholeLevel lsmt.files level)) = true then
        outputFiles config lsmt.fileId (bottomOutputs config guards lsmt level)
      else getBottomLevelFiles (Function.update lsmt.files level []) := by
  rw [compact_whole_files config guards inv]
  by_cases live : holdsLive none (mergedInput lsmt.tables (wholeLevel lsmt.files level)) = true
  · obtain ⟨output, isOutput⟩ := List.exists_mem_of_ne_nil _
      ((bottomOutputs_ne_nil_iff inv isBottom config guards).mpr live)
    have written : outputFiles config lsmt.fileId (bottomOutputs config guards lsmt level) ≠ [] :=
      outputFiles_ne_nil config _ ⟨output, isOutput, outputsOf_filled config guards isOutput⟩
    rw [if_pos live, getBottomLevelFiles, getBottomLevel_update isBottom written,
      Option.map_some, Option.getD_some, Function.update_self]
  · have nothing : bottomOutputs config guards lsmt level = [] := by
      by_contra written
      exact live ((bottomOutputs_ne_nil_iff inv isBottom config guards).mp written)
    rw [if_neg live, nothing]
    rfl

/-- The flush starts with the file that starts with this key. -/
theorem start_of_flushed :
    (getBottomLevelFiles (lsmt.compact config guards
        (wholeLevel lsmt.files level) level).files).head?.map FileMetaData.start =
      firstFlushed lsmt := by
  have newest : holdsLive none (mergedInput lsmt.tables (wholeLevel lsmt.files level)) = true ↔
      (firstVersions none (mergedInput lsmt.tables (wholeLevel lsmt.files level))).find?
        (fun entry => decide entry.IsValue) ≠ none := by
    rw [holdsLive_iff, Option.ne_none_iff_isSome, List.find?_isSome]
    simp
  rw [bottomLevelFiles_eq inv isBottom config guards, firstFlushed, isBottom, Option.bind_some]
  cases found : (firstVersions none (mergedInput lsmt.tables (wholeLevel lsmt.files level))).find?
      (fun entry => decide entry.IsValue) with
  | none =>
      rw [if_neg (fun live => newest.mp live found)]
  | some entry =>
      rw [if_pos (newest.mpr (by rw [found]; exact Option.some_ne_none entry)),
        outputFiles_start config lsmt.fileId
          (fun _ isOutput => outputsOf_filled config guards isOutput),
        bottomOutputs_flatten inv isBottom config guards, List.head?_filter, found]
      rfl

omit isBottom in
/-- Files of the outputs are in order, and no pivot behind the first one is inside one
of them. -/
theorem outputFiles_fit (ascending : guards.Pairwise (· < ·)) :
    filesInOrder [] (outputFiles config lsmt.fileId
        (bottomOutputs config guards lsmt level)) = true ∧
      ¬ Straddled guards.tail (outputFiles config lsmt.fileId
        (bottomOutputs config guards lsmt level)) := by
  have fits : Fits lsmt.files (wholeLevel lsmt.files level) level := Checked.fits_whole level
  refine ⟨filesInOrder_of_apart (addedFiles_apart inv fits config guards)
    (fun first _ => not_lt.mp (List.not_lt_nil _)), ?_⟩
  rintro ⟨before, file, behind, pivot, split, isPivot, starts, ends, -⟩
  have member : file ∈ outputFiles config lsmt.fileId
      (bottomOutputs config guards lsmt level) := by
    rw [split]
    exact List.mem_append_right _ List.mem_cons_self
  obtain ⟨output, isOutput, describes, -⟩ := addedFiles_described inv fits config guards member
  obtain ⟨first, isFirst, isStart⟩ := describes.first
  obtain ⟨last, isLast, isLimit⟩ := describes.last
  have within := doCompactionWorkImpl_within config ascending (wholeLevel lsmt.files level)
    lsmt.files (ascending_of_not_before (mergedInput_spec inv fits).2) isOutput
  have sameStart : file.start = first.userKey := congrArg InternalKey.userKey isStart
  have sameLimit : file.limit = last.userKey := congrArg InternalKey.userKey isLimit
  have firstBelow : first.userKey < pivot := sameStart ▸ starts
  have lastAbove : pivot < last.userKey := sameLimit ▸ ends
  exact absurd (within pivot isPivot first (List.mem_of_head? isFirst) last
    (List.mem_of_getLast? isLast) firstBelow) lastAbove.asymm

end Bottom

/-! ## The page afterwards -/

section Page

variable {page : Page}

theorem pivots_items (page : Page) : pivots page.items = page.keys := by
  rw [pivots, Page.items, List.map_map]
  apply List.ext_getElem
  · simp [Page.keys]
  · intro offset isOffset isKey
    rw [List.length_map, List.length_range] at isOffset
    rw [List.getElem_map, List.getElem_range]
    simp only [Function.comp_apply, Page.keys, List.getElem_map, Page.entries_getElem]
    rw [Page.readPivotAtOffset, if_neg (not_le.mpr isOffset)]

variable (wellFormed : Slotted.WellFormed page) (isIndex : page.isLeaf = false)
  (nonempty : 0 < page.itemNum)

include wellFormed in
theorem keys_increasing : page.keys.Pairwise (· < ·) :=
  List.pairwise_map.mpr wellFormed.ascending

include nonempty in
theorem keys_eq_cons : page.keys = (page.decodeEntry 0).1 :: page.keys.tail := by
  rw [Page.keys, Slotted.entries_eq_cons nonempty]
  rfl

/-- Only a key below the first pivot changes the page. -/
theorem lowered_iff (key : Slice) :
    (0 < page.itemNum ∧ (Slice.compare key (page.readPivotAtOffset 0)).isLT = true) ↔
      0 < page.itemNum ∧ key < (page.decodeEntry 0).1 := by
  refine and_congr_right fun nonempty => ?_
  have isFirst : page.readPivotAtOffset 0 = (page.decodeEntry 0).1 :=
    if_neg (Nat.not_le.mpr nonempty)
  rw [isFirst, Ordering.isLT_iff_eq_lt, Slice.compare_eq_lt]

theorem mayUpdateMinPivot_of_not_below {key : Slice}
    (notBelow : ¬ (0 < page.itemNum ∧ key < (page.decodeEntry 0).1)) :
    page.mayUpdateMinPivot key = page :=
  if_neg (mt (lowered_iff key).mp notBelow)

include wellFormed isIndex

theorem mayUpdateMinPivot_of_below {key : Slice} (lowers : page.CanLower key)
    (nonempty : 0 < page.itemNum) (smaller : key < (page.decodeEntry 0).1) :
    Slotted.MinPivotUpdated page (page.mayUpdateMinPivot key) key := by
  rw [Page.mayUpdateMinPivot, if_pos ((lowered_iff key).mpr ⟨nonempty, smaller⟩)]
  by_cases sameSize : key.length = (page.decodeEntry 0).1.length
  · exact Slotted.minPivotUpdated_of_eq wellFormed nonempty smaller sameSize
  · obtain ⟨single, fits⟩ := (lowers nonempty smaller).resolve_left sameSize
    exact Slotted.minPivotUpdated_of_single wellFormed isIndex fits sameSize single

/-- The page stays an index page in order. -/
theorem mayUpdateMinPivot_wellFormed {key : Slice} (lowers : page.CanLower key) :
    Slotted.WellFormed (page.mayUpdateMinPivot key) ∧
      (page.mayUpdateMinPivot key).isLeaf = false := by
  by_cases below : 0 < page.itemNum ∧ key < (page.decodeEntry 0).1
  · have updated := mayUpdateMinPivot_of_below wellFormed isIndex lowers below.1 below.2
    exact ⟨updated.wellFormed, updated.isLeaf.trans isIndex⟩
  · rw [mayUpdateMinPivot_of_not_below below]
    exact ⟨wellFormed, isIndex⟩

include nonempty

/-- The pivots after `MayUpdateMinPivot`. -/
theorem mayUpdateMinPivot_keys {key : Slice} (lowers : page.CanLower key) :
    ∃ smallest, (page.mayUpdateMinPivot key).keys = smallest :: page.keys.tail ∧
      smallest ≤ key ∧ smallest ≤ (page.decodeEntry 0).1 := by
  by_cases smaller : key < (page.decodeEntry 0).1
  · have updated := mayUpdateMinPivot_of_below wellFormed isIndex lowers nonempty smaller
    refine ⟨key, ?_, le_rfl, smaller.le⟩
    rw [Page.keys, updated.entries, List.map_cons, Page.keys, List.map_tail]
  · rw [mayUpdateMinPivot_of_not_below fun below => smaller below.2]
    exact ⟨_, keys_eq_cons nonempty, not_lt.mp smaller, le_rfl⟩

omit isIndex in
/-- What the check answers when the first pivot is not above the files. -/
theorem passes_iff {updated : Page} {smallest : Slice} {files : List FileMetaData}
    (isUpdated : updated.keys = smallest :: page.keys.tail)
    (notAbove : smallest ≤ (page.decodeEntry 0).1)
    (starts : ∀ first ∈ files.head?, smallest ≤ first.start) :
    (∃ answer, fileAcrossPivots updated.items files = some answer ∧ answer.across = false) ↔
      filesInOrder [] files = true ∧ ¬ Straddled page.keys.tail files := by
  have increasing : (pivots updated.items).Pairwise (· < ·) := by
    have ascending := keys_increasing wellFormed
    rw [keys_eq_cons nonempty] at ascending
    obtain ⟨above, others⟩ := List.pairwise_cons.mp ascending
    rw [pivots_items, isUpdated]
    exact List.pairwise_cons.mpr
      ⟨fun pivot member => notAbove.trans_lt (above pivot member), others⟩
  obtain ⟨answer, answered, across⟩ := fileAcrossPivots_spec increasing files
  have caught : Caught updated.items files ↔
      filesInOrder [] files = false ∨ Straddled page.keys.tail files := by
    rw [Caught, pivots_items, isUpdated, List.tail_cons]
    refine or_congr_right (or_iff_right ?_)
    rintro ⟨pivot, isPivot, first, isFirst, below⟩
    cases isPivot
    exact absurd below (not_lt.mpr (starts first isFirst))
  have passes : answer.across = false ↔ ¬ Caught updated.items files := by
    rw [← across, Bool.not_eq_true]
  constructor
  · rintro ⟨same, isSame, notAcross⟩
    obtain rfl := Option.some.inj (answered.symm.trans isSame)
    have free := passes.mp notAcross
    rw [caught, not_or, Bool.not_eq_false] at free
    exact free
  · rintro ⟨inOrder, clear⟩
    refine ⟨answer, answered, passes.mpr ?_⟩
    rw [caught, not_or, Bool.not_eq_false]
    exact ⟨inOrder, clear⟩

end Page

/-! ## The flush -/

section Flush

variable (config : LsmtConfig) {page : Page} (wellFormed : Slotted.WellFormed page)
  (isIndex : page.isLeaf = false) (nonempty : 0 < page.itemNum) {lsmt : Lsmt}
  (inv : Leveled lsmt) (lowers : LowersWell page lsmt)

include wellFormed isIndex nonempty inv lowers

theorem flushPasses_iff_of_bottom {level : Nat}
    (isBottom : getBottomLevel lsmt.files = some level) :
    FlushPasses config page lsmt ↔
      filesInOrder [] (getBottomLevelFiles (lsmt.compact config page.keys
          (wholeLevel lsmt.files level) level).files) = true ∧
        ¬ Straddled page.keys.tail (getBottomLevelFiles (lsmt.compact config page.keys
          (wholeLevel lsmt.files level) level).files) := by
  have compacted := compactBottomLevel_eq inv isBottom config page.keys
  have flushed := start_of_flushed inv isBottom config page.keys
  have unique : ∀ updated after, compactByPivots config page lsmt = .ok (updated, after) →
      after = lsmt.compact config page.keys (wholeLevel lsmt.files level) level ∧
        ∃ smallest, updated.keys = smallest :: page.keys.tail ∧
          smallest ≤ (page.decodeEntry 0).1 ∧
            ∀ first ∈ (getBottomLevelFiles after.files).head?, smallest ≤ first.start := by
    intro updated after done
    rw [compactByPivots, compacted] at done
    simp only at done
    cases files : getBottomLevelFiles (lsmt.compact config page.keys
        (wholeLevel lsmt.files level) level).files with
    | nil =>
        rw [files] at done
        cases done
        exact ⟨rfl, _, keys_eq_cons nonempty, le_rfl, by simp [files]⟩
    | cons first rest =>
        rw [files] at done flushed
        cases done
        obtain ⟨smallest, isUpdated, below, notAbove⟩ := mayUpdateMinPivot_keys wellFormed isIndex
          nonempty (lowers first.start flushed.symm)
        refine ⟨rfl, smallest, isUpdated, notAbove, ?_⟩
        intro other isOther
        rw [files] at isOther
        cases isOther
        exact below
  obtain ⟨updated, after, done⟩ : ∃ updated after,
      compactByPivots config page lsmt = .ok (updated, after) := by
    rw [compactByPivots, compacted]
    simp only
    split
    · exact ⟨_, _, rfl⟩
    · exact ⟨_, _, rfl⟩
  obtain ⟨rfl, smallest, isUpdated, notAbove, starts⟩ := unique updated after done
  rw [← passes_iff wellFormed nonempty isUpdated notAbove starts]
  constructor
  · rintro ⟨other, done', same, answered⟩
    rw [done] at same
    cases same
    exact answered
  · exact fun answered => ⟨updated, _, done, answered⟩

/-- After a compaction of the bottom level by the pivots, the flush passes exactly when
a value is left there, or the level above happens to fit. -/
theorem flushPasses_iff : FlushPasses config page lsmt ↔ NextFits page lsmt := by
  cases isBottom : getBottomLevel lsmt.files with
  | none =>
      refine iff_of_true ⟨page, lsmt, ?_, ⟨false, 0⟩, ?_, rfl⟩ ?_
      · simp [compactByPivots, Checked.compactBottomLevel, isBottom, getBottomLevelFiles]
      · simp [getBottomLevelFiles, isBottom, fileAcrossPivots, filesInOrder, acrossLoop]
      · intro level member
        rw [isBottom] at member
        cases member
  | some level =>
      have ascending := keys_increasing wellFormed
      rw [flushPasses_iff_of_bottom config wellFormed isIndex nonempty inv lowers isBottom,
        bottomLevelFiles_eq inv isBottom config page.keys]
      simp only [NextFits, isBottom, Option.mem_some_iff, forall_eq']
      by_cases live : holdsLive none
          (mergedInput lsmt.tables (wholeLevel lsmt.files level)) = true
      · rw [if_pos live]
        exact iff_of_true (outputFiles_fit inv config page.keys ascending) (.inl live)
      · rw [if_neg live, or_iff_right live]

end Flush

/-! ## The promise of the guards -/

/-- Every compaction by the pivots of the page leaves files that fit these, and after
one of the bottom level the flush passes. -/
structure GuardsHold (config : LsmtConfig) (page : Page) (lsmt : Lsmt) : Prop where
  outputs : ∀ (compaction : Compaction) (levels : Levels) (input : List Entry),
    (∀ level, 0 < level → (levels level).Pairwise Apart) →
    (∀ entry ∈ input, entry.sequence < kMaxSequenceNumber) →
    input.Pairwise (fun front behind => behind.before front = false) →
      FitsPivots page.keys levels compaction.level input
        (doCompactionWorkImpl config page.keys compaction levels input)
  flush : FlushPasses config page lsmt

/-- When `PageUpdateMinPivot` can do what is asked of it, the guards hold what they promise,
except that a bottom level of deletions makes way
for a level that nobody has compacted. -/
theorem guardsHold_iff_nextFits (config : LsmtConfig) {page : Page}
    (wellFormed : Slotted.WellFormed page) (isIndex : page.isLeaf = false)
    (nonempty : 0 < page.itemNum) {lsmt : Lsmt} (inv : Leveled lsmt)
    (lowers : LowersWell page lsmt) : GuardsHold config page lsmt ↔ NextFits page lsmt := by
  rw [← flushPasses_iff config wellFormed isIndex nonempty inv lowers]
  refine ⟨GuardsHold.flush, fun passes => ⟨?_, passes⟩⟩
  intro compaction levels input apart bounded sorted
  have isCons := keys_eq_cons nonempty
  refine doCompactionWorkImpl_fitsPivots config compaction ?_ bounded
    (ascending_of_not_before sorted) (keys_increasing wellFormed) (by rw [isCons]; simp)
  intro deeper member
  rw [Work.deeperLevels, List.mem_range'_1] at member
  exact apart deeper (by omega)

/-! A memtable with two user keys has been flushed to level 2, and after it another one
with the same keys to level 1.  The root page has a pivot between the keys. -/

def twoEntries (type : ValueType) (sequence : Nat) : List Entry :=
  [⟨⟨[8], sequence, type⟩, []⟩, ⟨⟨[10], sequence + 1, type⟩, []⟩]

def twoFile (type : ValueType) (number sequence : Nat) : FileMetaData :=
  .ofEntries (RootLsmt.smallTables 3) number ⟨⟨[8], sequence, type⟩, []⟩
    ⟨⟨[10], sequence + 1, type⟩, []⟩ (twoEntries type sequence)

def twoLevels (upper lower : ValueType) : Lsmt :=
  { Lsmt.empty with
    files := fun level =>
      if level = 1 then [twoFile upper 2 3]
      else if level = 2 then [twoFile lower 1 1] else []
    tables := fun number =>
      if number = 2 then twoEntries upper 3
      else if number = 1 then twoEntries lower 1 else []
    fileId := 2 }

theorem twoFile_describes (type : ValueType) (number : Nat) {sequence : Nat}
    (bounded : sequence + 1 < kMaxSequenceNumber) :
    Describes (twoFile type number sequence) (twoEntries type sequence) := by
  refine ⟨⟨_, rfl, rfl⟩, ⟨_, rfl, rfl⟩, ?_, ?_⟩
  · refine List.pairwise_cons.mpr ⟨?_, List.pairwise_singleton _ _⟩
    intro entry member
    rw [List.mem_singleton.mp member]
    rfl
  · intro entry member
    rcases List.mem_cons.mp member with rfl | last
    · exact Nat.lt_of_succ_lt bounded
    · rw [List.mem_singleton.mp last]
      exact bounded

section TwoLevels

variable {upper lower : ValueType} {level : Nat} {file : FileMetaData}

theorem mem_twoLevels (member : file ∈ (twoLevels upper lower).files level) :
    (level = 1 ∧ file = twoFile upper 2 3) ∨ (level = 2 ∧ file = twoFile lower 1 1) := by
  simp only [twoLevels] at member
  split at member
  · exact .inl ⟨by assumption, List.mem_singleton.mp member⟩
  · split at member
    · exact .inr ⟨by assumption, List.mem_singleton.mp member⟩
    · cases member

theorem twoLevels_leveled (upper lower : ValueType) : Leveled (twoLevels upper lower) where
  apart level _ := by
    simp only [twoLevels]
    split
    · exact List.pairwise_singleton _ _
    · split
      · exact List.pairwise_singleton _ _
      · exact List.Pairwise.nil
  once level other file twin member isTwin same := by
    rcases mem_twoLevels member with ⟨rfl, rfl⟩ | ⟨rfl, rfl⟩
    · rcases mem_twoLevels isTwin with ⟨rfl, rfl⟩ | ⟨rfl, rfl⟩
      · exact ⟨rfl, rfl⟩
      · cases same
    · rcases mem_twoLevels isTwin with ⟨rfl, rfl⟩ | ⟨rfl, rfl⟩
      · cases same
      · exact ⟨rfl, rfl⟩
  nodup level := by
    simp only [twoLevels]
    split
    · exact List.nodup_singleton _
    · split
      · exact List.nodup_singleton _
      · exact List.nodup_nil
  numbered level file member := by
    rcases mem_twoLevels member with ⟨-, rfl⟩ | ⟨-, rfl⟩
    · exact Nat.le_refl 2
    · exact Nat.le_succ 1
  described level file member := by
    rcases mem_twoLevels member with ⟨-, rfl⟩ | ⟨-, rfl⟩
    · exact twoFile_describes upper 2 (by decide)
    · exact twoFile_describes lower 1 (by decide)

theorem firstFlushed_twoLevels (upper lower : ValueType) :
    firstFlushed (twoLevels upper lower) = some [8] := by
  cases upper with
  | kTypeDeletion =>
      cases lower with
      | kTypeDeletion => rfl
      | kTypeValue => rfl
  | kTypeValue =>
      cases lower with
      | kTypeDeletion => rfl
      | kTypeValue => rfl

/-- Nothing is asked of the page for a key that is not below its first pivot. -/
theorem twoPivotPage_canLower {key : Slice} (notBelow : ¬ key < [7]) :
    Slotted.twoPivotPage.CanLower key := by
  have first : (Slotted.twoPivotPage.decodeEntry 0).1 = [7] := by decide
  intro _ below
  exact absurd (first ▸ below) notBelow

theorem twoLevels_lowersWell (upper lower : ValueType) :
    LowersWell Slotted.twoPivotPage (twoLevels upper lower) := by
  intro key isFlushed
  rw [firstFlushed_twoLevels] at isFlushed
  cases isFlushed
  exact twoPivotPage_canLower (by decide)

end TwoLevels

/-- Values at level 2 are cut at the pivot. -/
theorem guardsHold_twoLevels :
    NextFits Slotted.twoPivotPage (twoLevels .kTypeValue .kTypeValue) ∧
      GuardsHold (RootLsmt.smallTables 3) Slotted.twoPivotPage
        (twoLevels .kTypeValue .kTypeValue) := by
  have fits : NextFits Slotted.twoPivotPage (twoLevels .kTypeValue .kTypeValue) := by
    have isBottom : getBottomLevel (twoLevels .kTypeValue .kTypeValue).files = some 2 := rfl
    intro level member
    rw [isBottom] at member
    cases member
    exact .inl rfl
  exact ⟨fits, (guardsHold_iff_nextFits (RootLsmt.smallTables 3)
    Slotted.twoPivotPage_wellFormed rfl (by decide) (twoLevels_leveled _ _)
    (twoLevels_lowersWell _ _)).mpr fits⟩

/-- Deletions at level 2 are all dropped, and the file of level 1 has the pivot
inside. -/
theorem not_guardsHold_over_deletions :
    ¬ ∀ (page : Page) (lsmt : Lsmt), Slotted.WellFormed page → page.isLeaf = false →
      0 < page.itemNum → Leveled lsmt → LowersWell page lsmt →
        GuardsHold (RootLsmt.smallTables 3) page lsmt := by
  intro always
  have holds := always Slotted.twoPivotPage (twoLevels .kTypeValue .kTypeDeletion)
    Slotted.twoPivotPage_wellFormed rfl (by decide) (twoLevels_leveled _ _)
    (twoLevels_lowersWell _ _)
  have fits := (flushPasses_iff (RootLsmt.smallTables 3) Slotted.twoPivotPage_wellFormed rfl
    (by decide) (twoLevels_leveled _ _) (twoLevels_lowersWell _ _)).mp holds.flush
  have isKeys : Slotted.twoPivotPage.keys.tail = [[9]] := by decide
  rcases fits 2 rfl with live | ⟨-, clear⟩
  · exact absurd live (by decide)
  · rw [isKeys] at clear
    exact clear ⟨[], twoFile .kTypeValue 2 3, [], [9], rfl, List.mem_cons_self, by decide,
      by decide, by simp⟩

end AhaTree
