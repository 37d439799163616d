import AhaTree.RootLsmt

/-!
# Compactions of the root LSMT

`DoCompact` trusts the decision that `Finalize` has left.  It holds good when no
file has left the chosen level since, no overflow has dropped it, and the work
leaves a file below level 0.
-/

namespace AhaTree

open Lsmt

/-! ## What the condition speaks of -/

/-- `Finalize` prefers the last level, and finds it full. -/
def LastLevelFull (levels : Levels) : Prop :=
  1 ≤ levelScore 6 (levels 6) ∧
    ∀ level < 6, levelScore level (levels level) < levelScore 6 (levels 6)

instance (levels : Levels) : Decidable (LastLevelFull levels) :=
  inferInstanceAs (Decidable (_ ∧ _))

/-- Some value does not directly follow an entry of its own user key. -/
def holdsLive : Option Slice → List Entry → Bool
  | _, [] => false
  | previous, entry :: entries =>
      (previous != some entry.userKey && entry.key.type == .kTypeValue) ||
        holdsLive (some entry.userKey) entries

/-- The levels without the files that a compaction reads. -/
def unreadLevels (levels : Levels) : Option Compaction → Levels
  | none => levels
  | some compaction => fun level => (levels level).filter (fun file =>
      !((if level = compaction.level then compaction.inputs
        else if level = compaction.level + 1 then compaction.nextInputs
        else []).map FileMetaData.number).contains file.number)

namespace RootLsmt

/-- The files that `DoCompact` does not read all lie in level 0, and nothing of
what it reads is live. -/
def Hollow (config : LsmtConfig) (root : RootLsmt) : Prop :=
  getBottomLevel (unreadLevels root.lsmt.files (root.nextCompaction config)) = some 0 ∧
    ∀ compaction ∈ root.nextCompaction config, isTrivialMove config compaction = false ∧
      holdsLive none (mergedInput root.lsmt.tables compaction) = false

instance (config : LsmtConfig) (root : RootLsmt) : Decidable (root.Hollow config) :=
  inferInstanceAs (Decidable (_ ∧ _))

def Act.compacts : Act → Bool
  | .backgroundCall _ => true
  | _ => false

/-- `DoCompact` starts only with a decision that still stands: the last
`Finalize` has seen a file and was not overruled by an overflow under a leaf
root; where the size decides, the chosen level has not been emptied since and is
not the last one; and the work is not hollow. -/
def DecisionStands (config : LsmtConfig) (root : RootLsmt) (act : Act) : Prop :=
  act.compacts = true →
    (∃ levels ∈ root.seen, getBottomLevel levels ≠ none) ∧
    (root.leafOverflows config = false → 1 ≤ root.lsmt.compactionScore →
      (∀ level ∈ root.lsmt.compactLevel, level ∉ root.emptied) ∧
        ∀ levels ∈ root.seen, ¬ LastLevelFull levels) ∧
    ¬ root.Hollow config

instance (config : LsmtConfig) (root : RootLsmt) (act : Act) :
    Decidable (root.DecisionStands config act) :=
  inferInstanceAs (Decidable (_ → _))

/-! ## What is promised -/

/-- `BackgroundCompaction` gets to `DoCompact`. -/
def runsDoCompact (root : RootLsmt) : Bool :=
  root.scheduled && !root.flushing && !root.hasImm && root.lsmt.needsCompaction

/-- The level that `SetCompactionInputs` takes its input from, when it is
called. -/
def inputLevel (config : LsmtConfig) (root : RootLsmt) : Option Nat :=
  if root.leafOverflows config then none
  else if 1 ≤ root.lsmt.compactionScore then root.lsmt.compactLevel
  else root.lsmt.fileToCompactLevel

/-- `DoCompact` compacts a level that is there, and the root LSMT has more than
level 0 afterwards. -/
structure CompactsPresent (config : LsmtConfig) (guards : List Slice)
    (root : RootLsmt) : Prop where
  decided : root.lsmt.compactLevel ≠ none
  returns : ∃ state after,
    root.lsmt.doCompact config root.isLeaf guards = .ok (state, after) ∧
      getBottomLevel after.files ≠ some 0 ∧
      ∀ level ∈ root.inputLevel config, level + 1 < kNumLevels ∧
        (root.lsmt.files level ≠ [] ∨ after.files = root.lsmt.files)

end RootLsmt

/-! ## Levels and scores -/

/-- A file below level 0 keeps the bottom there. -/
theorem getBottomLevel_ne_zero {levels : Levels} {level : Nat} (positive : 0 < level)
    (inside : level < kNumLevels) (filled : levels level ≠ []) :
    getBottomLevel levels ≠ some 0 := by
  intro isBottom
  exact filled ((getBottomLevel_eq_some isBottom).2.2 level inside positive)

theorem levelScore_nonneg (level : Nat) (files : List FileMetaData) :
    0 ≤ levelScore level files := by
  rw [levelScore]
  split
  · exact div_nonneg (Nat.cast_nonneg _) (Nat.cast_nonneg _)
  · exact div_nonneg (Nat.cast_nonneg _) (Nat.cast_nonneg _)

@[simp] theorem levelScore_nil (level : Nat) : levelScore level [] = 0 := by
  simp [levelScore, totalFileSize]

/-- `Finalize` chooses the first of the levels with the greatest score. -/
structure IsBest (levels : Levels) (count best : Nat) : Prop where
  inside : best < count
  greatest : ∀ level < count,
    levelScore level (levels level) ≤ levelScore best (levels best)
  first : ∀ level < best,
    levelScore level (levels level) < levelScore best (levels best)

theorem bestLevel_spec (levels : Levels) (count : Nat) :
    (count = 0 ∧ bestLevel levels count = (none, -1)) ∨
      ∃ best, IsBest levels count best ∧
        bestLevel levels count = (some best, levelScore best (levels best)) := by
  induction count with
  | zero => exact .inl ⟨rfl, rfl⟩
  | succ count ih =>
      refine .inr ?_
      rcases ih with ⟨rfl, same⟩ | ⟨best, isBest, same⟩
      · have above : -1 < levelScore 0 (levels 0) :=
          lt_of_lt_of_le (by norm_num) (levelScore_nonneg 0 (levels 0))
        refine ⟨0, ⟨Nat.zero_lt_one, ?_, fun level less => by omega⟩, ?_⟩
        · intro level less
          rw [Nat.lt_one_iff.mp less]
        · simp [bestLevel, above]
      · simp only [bestLevel, same]
        by_cases better : levelScore best (levels best) < levelScore count (levels count)
        · rw [if_pos better]
          refine ⟨count, ⟨Nat.lt_succ_self _, ?_, ?_⟩, rfl⟩
          · intro level less
            rcases Nat.lt_succ_iff_lt_or_eq.mp less with below | rfl
            · exact ((isBest.greatest level below).trans_lt better).le
            · exact le_rfl
          · intro level less
            exact (isBest.greatest level less).trans_lt better
        · rw [if_neg better]
          refine ⟨best, ⟨Nat.lt_succ_of_lt isBest.inside, ?_, isBest.first⟩, rfl⟩
          intro level less
          rcases Nat.lt_succ_iff_lt_or_eq.mp less with below | rfl
          · exact isBest.greatest level below
          · exact not_lt.mp better

/-- The outcome of `Finalize` on levels with a file, and on levels without. -/
theorem finalize_spec (lsmt : Lsmt) :
    (getBottomLevel lsmt.files = none ∧ lsmt.finalize.compactLevel = none ∧
        lsmt.finalize.compactionScore = -1) ∨
      ∃ best, IsBest lsmt.files (levelCount lsmt.files) best ∧
        lsmt.finalize.compactLevel = some best ∧
        lsmt.finalize.compactionScore = levelScore best (lsmt.files best) := by
  simp only [finalize]
  rcases bestLevel_spec lsmt.files (levelCount lsmt.files) with
    ⟨none, same⟩ | ⟨best, isBest, same⟩
  · rw [same]
    refine .inl ⟨?_, rfl, rfl⟩
    cases bottom : getBottomLevel lsmt.files with
    | none => rfl
    | some level => simp [levelCount, bottom] at none
  · rw [same]
    exact .inr ⟨best, isBest, rfl, rfl⟩

theorem levelCount_le (levels : Levels) : levelCount levels ≤ kNumLevels := by
  rw [levelCount]
  cases bottom : getBottomLevel levels with
  | none => exact Nat.zero_le _
  | some level => exact (getBottomLevel_eq_some bottom).1

/-! ## The files a compaction reads -/

theorem overlapPass_subset {restarts : Bool} {low up : Slice}
    {files inputs : List FileMetaData}
    (passed : overlapPass restarts low up files = .done inputs) : inputs ⊆ files := by
  induction files generalizing inputs with
  | nil =>
      cases passed
      exact List.Subset.refl _
  | cons file files ih =>
      rw [overlapPass] at passed
      split at passed
      · exact List.subset_cons_of_subset file (ih passed)
      · split at passed
        · exact List.subset_cons_of_subset file (ih passed)
        · split at passed
          · cases passed
          · split at passed
            · cases passed
            · split at passed
              · rename_i rest isRest
                cases passed
                exact List.cons_subset_cons file (ih isRest)
              · cases passed

theorem overlapPasses_subset {restarts : Bool} {files : List FileMetaData}
    (fuel : Nat) (low up : Slice) :
    overlapPasses restarts files fuel low up ⊆ files := by
  induction fuel generalizing low up with
  | zero => exact List.nil_subset _
  | succ fuel ih =>
      rw [overlapPasses]
      split
      · rename_i passed
        exact overlapPass_subset passed
      · exact ih _ _

theorem getOverlappingInputs_subset (levels : Levels) (level : Nat)
    (low up : InternalKey) : getOverlappingInputs levels level low up ⊆ levels level :=
  overlapPasses_subset _ _ _

theorem nearerBoundary_cases (largest : InternalKey) (found : Option FileMetaData)
    (file : FileMetaData) :
    nearerBoundary largest found file = some file ∨
      nearerBoundary largest found file = found := by
  unfold nearerBoundary
  split
  · split
    · exact .inl rfl
    · split
      · exact .inl rfl
      · exact .inr rfl
  · exact .inr rfl

theorem findSmallestBoundaryFile_mem {levelFiles : List FileMetaData}
    {largest : InternalKey} {file : FileMetaData}
    (found : findSmallestBoundaryFile levelFiles largest = some file) :
    file ∈ levelFiles := by
  have within : ∀ other ∈ findSmallestBoundaryFile levelFiles largest,
      other ∈ levelFiles := by
    refine List.foldlRecOn
      (motive := fun sofar => ∀ other ∈ sofar, other ∈ levelFiles)
      levelFiles (nearerBoundary largest) (by simp) ?_
    intro sofar known next member other isOther
    rcases nearerBoundary_cases largest sofar next with same | same
    · rw [same] at isOther
      cases isOther
      exact member
    · rw [same] at isOther
      exact known other isOther
  exact within file found

theorem addBoundaryLoop_subset {levelFiles : List FileMetaData} (fuel : Nat)
    (largest : InternalKey) {files : List FileMetaData} (subset : files ⊆ levelFiles) :
    addBoundaryLoop levelFiles fuel largest files ⊆ levelFiles := by
  induction fuel generalizing largest files with
  | zero => exact subset
  | succ fuel ih =>
      rw [addBoundaryLoop]
      split
      · exact subset
      · rename_i file found
        refine ih _ (List.append_subset.mpr ⟨subset, ?_⟩)
        exact List.cons_subset.mpr
          ⟨findSmallestBoundaryFile_mem found, List.nil_subset _⟩

theorem addBoundaryInputs_subset {levelFiles files : List FileMetaData}
    (subset : files ⊆ levelFiles) : addBoundaryInputs levelFiles files ⊆ levelFiles := by
  cases files with
  | nil => exact List.nil_subset _
  | cons file files => exact addBoundaryLoop_subset _ _ subset

namespace Lsmt

theorem expandInputs_subset (config : LsmtConfig) (levels : Levels) (level : Nat)
    {inputs nextInputs : List FileMetaData} (subset : inputs ⊆ levels level)
    (nextSubset : nextInputs ⊆ levels (level + 1)) :
    (expandInputs config levels level inputs nextInputs).1 ⊆ levels level ∧
      (expandInputs config levels level inputs nextInputs).2 ⊆ levels (level + 1) := by
  rw [expandInputs]
  split
  · exact ⟨subset, nextSubset⟩
  · simp only
    split
    · split
      · exact ⟨addBoundaryInputs_subset (getOverlappingInputs_subset _ _ _ _),
          addBoundaryInputs_subset (getOverlappingInputs_subset _ _ _ _)⟩
      · exact ⟨subset, nextSubset⟩
    · exact ⟨subset, nextSubset⟩

theorem setupOtherInputs_subset (config : LsmtConfig) (lsmt : Lsmt) (level : Nat)
    {chosen : List FileMetaData} (subset : chosen ⊆ lsmt.files level) :
    (setupOtherInputs config lsmt level chosen).1.inputs ⊆ lsmt.files level ∧
      (setupOtherInputs config lsmt level chosen).1.nextInputs ⊆
        lsmt.files (level + 1) :=
  expandInputs_subset config lsmt.files level (addBoundaryInputs_subset subset)
    (addBoundaryInputs_subset (getOverlappingInputs_subset _ _ _ _))

theorem firstBehind_mem {lsmt : Lsmt} {level : Nat} {file : FileMetaData}
    (isFirst : lsmt.firstBehind level = some file) : file ∈ lsmt.files level := by
  rw [firstBehind] at isFirst
  split at isFirst
  · rename_i found isFound
    cases isFirst
    exact List.mem_of_find?_eq_some isFound
  · exact List.mem_of_head? isFirst

theorem overlapTop_subset {lsmt : Lsmt} {level : Nat} {file : FileMetaData}
    (member : file ∈ lsmt.files level) : lsmt.overlapTop level file ⊆ lsmt.files level := by
  rw [overlapTop]
  split
  · rename_i isTop
    subst isTop
    exact getOverlappingInputs_subset _ _ _ _
  · exact List.cons_subset.mpr ⟨member, List.nil_subset _⟩

end Lsmt

/-! ## What a compaction writes -/

namespace Work

/-- Something is in an output, finished or open. -/
def Wrote (work : Work) : Prop :=
  (∃ output ∈ work.outputs, output ≠ []) ∨ ∃ entries ∈ work.builder, entries ≠ []

theorem Wrote.finish {work : Work} (wrote : work.Wrote) : work.finish.Wrote := by
  rw [Work.finish]
  split
  · exact wrote
  · rename_i entries isOpen
    rcases wrote with ⟨output, member, filled⟩ | ⟨other, isOther, filled⟩
    · exact .inl ⟨output, List.mem_append_left _ member, filled⟩
    · rw [isOpen] at isOther
      cases isOther
      exact .inl ⟨entries, List.mem_append_right _ (List.mem_singleton_self _), filled⟩

theorem finish_outputs {work : Work} (wrote : work.Wrote) :
    ∃ output ∈ work.finish.outputs, output ≠ [] := by
  rcases wrote.finish with finished | ⟨entries, isOpen, -⟩
  · exact finished
  · exfalso
    rw [Work.finish] at isOpen
    split at isOpen
    · rename_i closed
      rw [closed] at isOpen
      cases isOpen
    · cases isOpen

@[simp] theorem finish_currentUserKey (work : Work) :
    work.finish.currentUserKey = work.currentUserKey := by
  rw [finish]
  split <;> rfl

theorem stopBefore_currentUserKey (config : LsmtConfig) (key : InternalKey)
    (work : Work) : (work.stopBefore config key).currentUserKey = work.currentUserKey := by
  simp only [stopBefore]
  split
  · rw [finish_currentUserKey]
    rfl
  · rfl

theorem Wrote.stopBefore (config : LsmtConfig) (key : InternalKey) {work : Work}
    (wrote : work.Wrote) : (work.stopBefore config key).Wrote := by
  have looked : Wrote (work.shouldStopBefore config key).2 := wrote
  simp only [Work.stopBefore]
  split
  · exact looked.finish
  · exact looked

theorem drops_keeps (level : Nat) (entry : Entry) (work : Work) :
    (work.drops level entry).2.outputs = work.outputs ∧
      (work.drops level entry).2.builder = work.builder ∧
      (work.drops level entry).2.currentUserKey = some entry.userKey := by
  rw [drops]
  cases work.hides entry with
  | true => exact ⟨rfl, rfl, rfl⟩
  | false =>
      cases entry.key.type with
      | kTypeValue => exact ⟨rfl, rfl, rfl⟩
      | kTypeDeletion => exact ⟨rfl, rfl, rfl⟩

theorem passGuard_currentUserKey (guards : List Slice) (entry : Entry) (work : Work) :
    (work.passGuard guards entry).currentUserKey = work.currentUserKey := by
  rw [passGuard]
  split
  · rfl
  · split
    · simp only [finish]
      split <;> rfl
    · rfl

theorem add_currentUserKey (config : LsmtConfig) (guards : List Slice) (entry : Entry)
    (work : Work) :
    (work.add config guards entry).currentUserKey = work.currentUserKey := by
  simp only [add]
  split <;> rfl

theorem add_wrote (config : LsmtConfig) (guards : List Slice) (entry : Entry)
    (work : Work) : (work.add config guards entry).Wrote := by
  have added : Wrote { work with builder := some (work.builder.getD [] ++ [entry]) } :=
    .inr ⟨_, rfl, by simp⟩
  simp only [add]
  split
  · exact added.finish
  · exact added

theorem round_currentUserKey (config : LsmtConfig) (guards : List Slice) (level : Nat)
    (work : Work) (entry : Entry) :
    (work.round config guards level entry).currentUserKey = some entry.userKey := by
  have moved := (drops_keeps level entry (work.stopBefore config entry.key)).2.2
  simp only [round]
  split
  · exact moved
  · rw [add_currentUserKey, passGuard_currentUserKey]
    exact moved

theorem Wrote.round (config : LsmtConfig) (guards : List Slice) (level : Nat)
    {work : Work} (entry : Entry) (wrote : work.Wrote) :
    (work.round config guards level entry).Wrote := by
  obtain ⟨sameOutputs, sameBuilder, -⟩ :=
    drops_keeps level entry (work.stopBefore config entry.key)
  simp only [Work.round]
  split
  · rw [Wrote, sameOutputs, sameBuilder]
    exact wrote.stopBefore config entry.key
  · exact add_wrote config guards entry _

theorem Wrote.foldl (config : LsmtConfig) (guards : List Slice) (level : Nat)
    {work : Work} (entries : List Entry) (wrote : work.Wrote) :
    (entries.foldl (Work.round config guards level) work).Wrote := by
  induction entries generalizing work with
  | nil => exact wrote
  | cons entry entries ih => exact ih (wrote.round config guards level entry)

/-- A value that opens its user key is written. -/
theorem round_wrote (config : LsmtConfig) (guards : List Slice) (level : Nat)
    {work : Work} {entry : Entry} (opens : work.currentUserKey ≠ some entry.userKey)
    (isValue : entry.key.type = .kTypeValue) :
    (work.round config guards level entry).Wrote := by
  have shown : (work.stopBefore config entry.key).hides entry = false := by
    rw [hides, stopBefore_currentUserKey, beq_eq_false_iff_ne.mpr opens, Bool.false_and]
  have kept : ((work.stopBefore config entry.key).drops level entry).1 = false := by
    rw [drops, shown, isValue]
    rfl
  simp only [Work.round, kept]
  exact add_wrote config guards entry _

theorem foldl_wrote (config : LsmtConfig) (guards : List Slice) (level : Nat)
    (work : Work) (entries : List Entry)
    (live : holdsLive work.currentUserKey entries = true) :
    (entries.foldl (Work.round config guards level) work).Wrote := by
  induction entries generalizing work with
  | nil => cases live
  | cons entry entries ih =>
      rw [List.foldl_cons]
      rw [holdsLive, Bool.or_eq_true] at live
      rcases live with opens | later
      · rw [Bool.and_eq_true, bne_iff_ne, beq_iff_eq] at opens
        exact (round_wrote config guards level opens.1 opens.2).foldl _ _ _ _
      · exact ih _ (by rw [round_currentUserKey]; exact later)

end Work

/-- A live entry of the input is written to some output. -/
theorem doCompactionWorkImpl_of_live (config : LsmtConfig) (guards : List Slice)
    (compaction : Compaction) (levels : Levels) {input : List Entry}
    (live : holdsLive none input = true) :
    ∃ output ∈ doCompactionWorkImpl config guards compaction levels input,
      output ≠ [] :=
  Work.finish_outputs (Work.foldl_wrote config guards compaction.level _ input live)

namespace Lsmt

theorem outputFiles_ne_nil (config : LsmtConfig) (number : Nat)
    {outputs : List (List Entry)} (written : ∃ output ∈ outputs, output ≠ []) :
    outputFiles config number outputs ≠ [] := by
  obtain ⟨output, member, filled⟩ := written
  induction outputs generalizing number with
  | nil => cases member
  | cons first outputs ih =>
      rw [outputFiles]
      rcases List.mem_cons.mp member with rfl | later
      · cases output with
        | nil => exact absurd rfl filled
        | cons entry entries => simp [tableFile]
      · exact List.append_ne_nil_of_right_ne_nil _ (ih _ later)

theorem outputFiles_number {config : LsmtConfig} {number : Nat}
    {outputs : List (List Entry)} {file : FileMetaData}
    (member : file ∈ outputFiles config number outputs) :
    number < file.number ∧ file.number ≤ config.numberAfter number outputs.length := by
  induction outputs generalizing number with
  | nil => cases member
  | cons first outputs ih =>
      have next := config.lt_outputNumber number
      rcases List.mem_append.mp member with isFirst | later
      · cases first with
        | nil => cases isFirst
        | cons entry entries =>
            have same := List.mem_singleton.mp isFirst
            have isNumber : file.number = config.outputNumber number := by
              rw [same]
              rfl
            rw [isNumber]
            exact ⟨next, config.le_numberAfter _ outputs.length⟩
      · obtain ⟨above, below⟩ := ih later
        exact ⟨next.trans above, below⟩

end Lsmt

/-! ## Installing -/

theorem insertFile_subset (file : FileMetaData) (files : List FileMetaData) :
    insertFile file files ⊆ file :: files := by
  induction files with
  | nil => exact List.Subset.refl _
  | cons first files ih =>
      rw [insertFile]
      split
      · exact List.Subset.refl _
      · split
        · intro other member
          rcases List.mem_cons.mp member with rfl | later
          · simp
          · rcases List.mem_cons.mp (ih later) with rfl | old
            · simp
            · simp [old]
        · exact List.subset_cons_self _ _

theorem insertFile_ne_nil (file : FileMetaData) (files : List FileMetaData) :
    insertFile file files ≠ [] := by
  cases files with
  | nil => simp [insertFile]
  | cons first files =>
      rw [insertFile]
      split
      · simp
      · split <;> simp

theorem foldr_insertFile_subset (files : List FileMetaData) :
    files.foldr insertFile [] ⊆ files := by
  induction files with
  | nil => exact List.Subset.refl _
  | cons file files ih =>
      refine List.Subset.trans (insertFile_subset file _) ?_
      exact List.cons_subset_cons file ih

theorem mem_placeFiles {deleted : List Nat} {added base : List FileMetaData}
    {file : FileMetaData} :
    file ∈ placeFiles deleted added base ↔
      (file ∈ added ∨ file ∈ base) ∧ file.number ∉ deleted := by
  induction added generalizing base with
  | nil => simp [placeFiles]
  | cons first added ih =>
      have split := List.takeWhile_append_dropWhile (p := fun other =>
        (other.largest.compare first.smallest).isLT) (l := base)
      have inBase : file ∈ base ↔
          file ∈ base.takeWhile (fun other =>
            (other.largest.compare first.smallest).isLT) ∨
          file ∈ base.dropWhile (fun other =>
            (other.largest.compare first.smallest).isLT) := by
        rw [← List.mem_append, split]
      rw [placeFiles, List.mem_append, ih, List.mem_filter, List.mem_append,
        List.mem_singleton, List.mem_cons, inBase]
      simp only [List.contains_eq_mem, Bool.not_eq_true', decide_eq_false_iff_not]
      tauto

namespace Lsmt

/-- The files of a level after a change of the level. -/
theorem mem_applyFileChanges {level : Nat} {added : List FileMetaData}
    {deleted : List Nat} {lsmt : Lsmt} {place : Nat} {file : FileMetaData}
    (member : file ∈ (lsmt.applyFileChanges level added deleted).files place) :
    file ∈ added ∨ file ∈ lsmt.files place := by
  simp only [applyFileChanges] at member
  by_cases same : place = level
  · subst same
    rw [Function.update_self, mem_placeFiles] at member
    rcases member.1 with new | old
    · exact .inl (foldr_insertFile_subset added new)
    · exact .inr old
  · rw [Function.update_of_ne same] at member
    exact .inr member

/-- Files that are added and not deleted are there. -/
theorem applyFileChanges_ne_nil {level : Nat} {added : List FileMetaData}
    {deleted : List Nat} (lsmt : Lsmt) (some : added ≠ [])
    (fresh : ∀ file ∈ added, file.number ∉ deleted) :
    (lsmt.applyFileChanges level added deleted).files level ≠ [] := by
  simp only [applyFileChanges, Function.update_self]
  obtain ⟨first, rest, rfl⟩ := List.exists_cons_of_ne_nil some
  obtain ⟨file, others, sorted⟩ :=
    List.exists_cons_of_ne_nil (insertFile_ne_nil first (rest.foldr insertFile []))
  have isSorted : file ∈ (first :: rest).foldr insertFile [] := by
    rw [List.foldr_cons, sorted]
    exact List.mem_cons_self
  exact List.ne_nil_of_mem
    (mem_placeFiles.mpr ⟨.inl isSorted, fresh file (foldr_insertFile_subset _ isSorted)⟩)

theorem applyFileChanges_nil (level : Nat) (deleted : List Nat) (lsmt : Lsmt) :
    (lsmt.applyFileChanges level [] deleted).files = Function.update lsmt.files level
      ((lsmt.files level).filter (fun file => !deleted.contains file.number)) := rfl

end Lsmt

/-! ## The outcomes of `DoCompact` -/

namespace Lsmt

/-- The fields of the decision may differ, files and tables do not. -/
structure SameFiles (lsmt after : Lsmt) : Prop where
  files : after.files = lsmt.files
  tables : after.tables = lsmt.tables
  fileId : after.fileId = lsmt.fileId
  score : after.compactionScore = lsmt.compactionScore
  seek : ∀ level ∈ after.fileToCompactLevel, level ∈ lsmt.fileToCompactLevel

/-- `SetCompactionInputs` fails only on a level without files or on the last
level. -/
theorem setCompactionInputs_ok (config : LsmtConfig) {lsmt : Lsmt} {level : Nat}
    (sized : 1 ≤ lsmt.compactionScore → level + 1 < kNumLevels ∧ lsmt.files level ≠ [])
    (seekable : ∀ level ∈ lsmt.fileToCompactLevel, level + 1 < kNumLevels) :
    ∃ outcome after, lsmt.setCompactionInputs config level = .ok (outcome, after) := by
  rw [setCompactionInputs]
  by_cases due : 1 ≤ lsmt.compactionScore
  · obtain ⟨inside, filled⟩ := sized due
    rw [if_pos due, if_neg (Nat.not_le.mpr inside)]
    have first : ∃ file, lsmt.firstBehind level = some file := by
      obtain ⟨file, rest, same⟩ := List.exists_cons_of_ne_nil filled
      rw [firstBehind]
      split
      · exact ⟨_, rfl⟩
      · exact ⟨file, by rw [same]; rfl⟩
    obtain ⟨file, isFirst⟩ := first
    rw [isFirst]
    exact ⟨_, _, rfl⟩
  · rw [if_neg due]
    cases seek : lsmt.fileToCompactLevel with
    | none => exact ⟨_, _, rfl⟩
    | some seekLevel =>
        simp only
        split
        · exact ⟨_, _, rfl⟩
        · rw [if_neg (Nat.not_le.mpr (seekable seekLevel seek))]
          exact ⟨_, _, rfl⟩

/-- What `SetCompactionInputs` leaves. -/
theorem setCompactionInputs_cases {config : LsmtConfig} {lsmt after : Lsmt} {level : Nat}
    {outcome : Nat ⊕ Compaction}
    (set : lsmt.setCompactionInputs config level = .ok (outcome, after)) :
    SameFiles lsmt after ∧
      ((∃ left, outcome = .inl left ∧ ¬ 1 ≤ lsmt.compactionScore) ∨
        ∃ compaction, outcome = .inr compaction ∧
          (1 ≤ lsmt.compactionScore → compaction.level = level) ∧
          compaction.level + 1 < kNumLevels ∧
          compaction.inputs ⊆ lsmt.files compaction.level ∧
          compaction.nextInputs ⊆ lsmt.files (compaction.level + 1)) := by
  rw [setCompactionInputs] at set
  by_cases due : 1 ≤ lsmt.compactionScore
  · rw [if_pos due] at set
    split at set
    · cases set
    · rename_i inside
      split at set
      · cases set
      · rename_i file isFirst
        cases set
        exact ⟨⟨rfl, rfl, rfl, rfl, fun _ member => member⟩, .inr ⟨_, rfl, fun _ => rfl,
          Nat.not_le.mp inside, setupOtherInputs_subset config lsmt level
            (overlapTop_subset (firstBehind_mem isFirst))⟩⟩
  · rw [if_neg due] at set
    split at set
    · cases set
      exact ⟨⟨rfl, rfl, rfl, rfl, fun _ member => member⟩, .inl ⟨level, rfl, due⟩⟩
    · rename_i seekLevel seek
      simp only at set
      split at set
      · cases set
        exact ⟨⟨rfl, rfl, rfl, rfl, by simp⟩, .inl ⟨seekLevel, rfl, due⟩⟩
      · rename_i file found
        split at set
        · cases set
        · rename_i inside
          cases set
          exact ⟨⟨rfl, rfl, rfl, rfl, by simp [setupOtherInputs]⟩, .inr ⟨_, rfl,
            fun isDue => absurd isDue due, Nat.not_le.mp inside,
            setupOtherInputs_subset config { lsmt with fileToCompactLevel := none } _
              (overlapTop_subset (List.mem_of_find?_eq_some found))⟩⟩

/-- The levels after a compaction that has written no file. -/
theorem compact_files_of_no_output {config : LsmtConfig} {guards : List Slice}
    {compaction : Compaction} (lsmt : Lsmt)
    (none : outputFiles config lsmt.fileId (doCompactionWorkImpl config guards compaction
      lsmt.files (mergedInput lsmt.tables compaction)) = []) :
    (lsmt.compact config guards compaction (compaction.level + 1)).files =
      unreadLevels lsmt.files (some compaction) := by
  funext level
  have apart : ¬ compaction.level + 1 = compaction.level := by omega
  simp only [compact, none, installCompactionResults, if_neg apart, applyFileChanges_nil,
    unreadLevels]
  by_cases next : level = compaction.level + 1
  · subst next
    rw [Function.update_self, Function.update_of_ne (Nat.succ_ne_self _),
      if_neg (Nat.succ_ne_self _), if_pos rfl]
    rfl
  · rw [Function.update_of_ne next]
    by_cases same : level = compaction.level
    · subst same
      rw [Function.update_self, if_pos rfl]
      rfl
    · rw [Function.update_of_ne same, if_neg same, if_neg next]
      simp [writeOutputs]

/-- The files after a compaction are old ones or outputs. -/
theorem mem_compact {config : LsmtConfig} {guards : List Slice} {compaction : Compaction}
    {target level : Nat} {lsmt : Lsmt} {file : FileMetaData}
    (member : file ∈ (lsmt.compact config guards compaction target).files level) :
    file ∈ lsmt.files level ∨
      file ∈ outputFiles config lsmt.fileId (doCompactionWorkImpl config guards compaction
        lsmt.files (mergedInput lsmt.tables compaction)) := by
  simp only [compact, installCompactionResults] at member
  split at member
  · rcases mem_applyFileChanges member with new | old
    · exact .inr new
    · exact .inl old
  · rcases mem_applyFileChanges member with new | rest
    · exact .inr new
    · rcases mem_applyFileChanges rest with none | old
      · cases none
      · exact .inl old

/-- A compaction that writes a file leaves one in the next level. -/
theorem compact_files_ne_nil {config : LsmtConfig} {guards : List Slice}
    {compaction : Compaction} (lsmt : Lsmt)
    (numbered : ∀ file ∈ lsmt.files (compaction.level + 1), file.number ≤ lsmt.fileId)
    (subset : compaction.nextInputs ⊆ lsmt.files (compaction.level + 1))
    (some : outputFiles config lsmt.fileId (doCompactionWorkImpl config guards compaction
      lsmt.files (mergedInput lsmt.tables compaction)) ≠ []) :
    (lsmt.compact config guards compaction (compaction.level + 1)).files
      (compaction.level + 1) ≠ [] := by
  have apart : ¬ compaction.level + 1 = compaction.level := by omega
  simp only [compact, installCompactionResults, if_neg apart]
  refine applyFileChanges_ne_nil _ some ?_
  intro file isOutput isDeleted
  obtain ⟨input, isInput, same⟩ := List.mem_map.mp isDeleted
  have old := numbered input (subset isInput)
  have new := (outputFiles_number isOutput).1
  omega

theorem trivialMove_files_ne_nil {compaction : Compaction} (lsmt : Lsmt)
    (one : compaction.inputs ≠ []) :
    (lsmt.trivialMove compaction).files (compaction.level + 1) ≠ [] := by
  simp only [trivialMove]
  rw [applyFileChanges_nil, Function.update_of_ne (Nat.succ_ne_self _)]
  refine applyFileChanges_ne_nil _ ?_ (fun _ _ => by simp)
  obtain ⟨file, rest, same⟩ := List.exists_cons_of_ne_nil one
  simp [same]

end Lsmt

/-! ## Numbers of files -/

namespace Lsmt

/-- No file has a number that is still to be given. -/
def Numbered (lsmt : Lsmt) : Prop :=
  ∀ level, ∀ file ∈ lsmt.files level, file.number ≤ lsmt.fileId

theorem Numbered.of_same {lsmt after : Lsmt} (numbered : Numbered lsmt)
    (same : SameFiles lsmt after) : Numbered after := by
  intro level file member
  rw [same.files] at member
  rw [same.fileId]
  exact numbered level file member

theorem Numbered.applyFileChanges {lsmt : Lsmt} (numbered : Numbered lsmt) (level : Nat)
    {added : List FileMetaData} (deleted : List Nat)
    (addedNumbered : ∀ file ∈ added, file.number ≤ lsmt.fileId) :
    Numbered (lsmt.applyFileChanges level added deleted) := by
  intro place file member
  rcases mem_applyFileChanges member with new | old
  · exact addedNumbered file new
  · exact numbered place file old

theorem compact_fileId (config : LsmtConfig) (guards : List Slice)
    (compaction : Compaction) (target : Nat) (lsmt : Lsmt) :
    (lsmt.compact config guards compaction target).fileId =
      config.numberAfter lsmt.fileId (doCompactionWorkImpl config guards compaction
        lsmt.files (mergedInput lsmt.tables compaction)).length := by
  simp only [compact, installCompactionResults]
  split <;> rfl

theorem Numbered.compact {lsmt : Lsmt} (numbered : Numbered lsmt) (config : LsmtConfig)
    (guards : List Slice) (compaction : Compaction) (target : Nat) :
    Numbered (lsmt.compact config guards compaction target) := by
  intro level file member
  rw [compact_fileId]
  rcases mem_compact member with old | new
  · exact (numbered level file old).trans (config.le_numberAfter _ _)
  · exact (outputFiles_number new).2

theorem Numbered.trivialMove {lsmt : Lsmt} (numbered : Numbered lsmt)
    {compaction : Compaction} (subset : compaction.inputs ⊆ lsmt.files compaction.level) :
    Numbered (lsmt.trivialMove compaction) := by
  have moved : Numbered (lsmt.applyFileChanges (compaction.level + 1)
      (compaction.inputs.take 1) []) := by
    refine numbered.applyFileChanges _ _ ?_
    intro file member
    exact numbered _ file (subset (List.mem_of_mem_take member))
  exact moved.applyFileChanges _ _ (by simp)

theorem Numbered.placeFile {lsmt : Lsmt} (numbered : Numbered lsmt) (level : Nat)
    {file : FileMetaData} (known : file.number ≤ lsmt.fileId) :
    Numbered (lsmt.placeFile level file) := by
  simp only [Lsmt.placeFile]
  split
  · have seen : Numbered { lsmt with
        allowedSeeks := Function.update lsmt.allowedSeeks file.number
          (file.fileSize / 16384 : Nat) } := numbered
    refine seen.applyFileChanges _ _ ?_
    · intro other member
      rw [List.mem_singleton.mp member]
      exact known
  · intro place other member
    simp only at member
    by_cases same : place = level
    · subst same
      rw [Function.update_self] at member
      rcases List.mem_append.mp member with old | new
      · exact numbered place other old
      · rw [List.mem_singleton.mp new]
        exact known
    · rw [Function.update_of_ne same] at member
      exact numbered place other member

theorem placeFile_keeps (level : Nat) (file : FileMetaData) (lsmt : Lsmt) :
    (lsmt.placeFile level file).fileId = lsmt.fileId ∧
      (lsmt.placeFile level file).fileToCompactLevel = lsmt.fileToCompactLevel := by
  simp only [placeFile]
  split <;> exact ⟨rfl, rfl⟩

theorem Numbered.finalizeRetrieval {lsmt : Lsmt} (numbered : Numbered lsmt) (level : Nat)
    (retrieved : List FileMetaData) :
    Numbered (lsmt.finalizeRetrieval level retrieved) := by
  rw [Lsmt.finalizeRetrieval]
  split
  · exact numbered
  · intro place file member
    simp only at member
    by_cases same : place = level
    · subst same
      rw [Function.update_self] at member
      exact numbered place file (List.mem_filter.mp member).1
    · rw [Function.update_of_ne same] at member
      exact numbered place file member

theorem Numbered.clearBottomLevelFiles {lsmt : Lsmt} (numbered : Numbered lsmt) :
    Numbered lsmt.clearBottomLevelFiles := by
  rw [Lsmt.clearBottomLevelFiles]
  split
  · exact numbered
  · rename_i level _
    intro place file member
    simp only at member
    by_cases same : place = level
    · subst same
      rw [Function.update_self] at member
      cases member
    · rw [Function.update_of_ne same] at member
      exact numbered place file member

end Lsmt

/-! ## The decision along a run -/

namespace RootLsmt

variable {config : LsmtConfig} {root after : RootLsmt}

theorem doCompact_ok (guards : List Slice) {level : Nat}
    (isLevel : root.lsmt.compactLevel = some level)
    (sized : root.leafOverflows config = false → 1 ≤ root.lsmt.compactionScore →
      level + 1 < kNumLevels ∧ root.lsmt.files level ≠ [])
    (seekable : ∀ level ∈ root.lsmt.fileToCompactLevel, level + 1 < kNumLevels) :
    ∃ state lsmt, root.lsmt.doCompact config root.isLeaf guards = .ok (state, lsmt) := by
  rw [doCompact, isLevel]
  simp only
  by_cases leaf : (overflows config level && root.isLeaf) = true
  · rw [if_pos leaf]
    exact ⟨_, _, rfl⟩
  · rw [if_neg leaf]
    have notLeaf : root.leafOverflows config = false := by
      rw [leafOverflows, isLevel, Bool.and_comm]
      exact Bool.not_eq_true _ ▸ leaf
    obtain ⟨outcome, set, isSet⟩ :=
      setCompactionInputs_ok config (sized notLeaf) seekable
    rw [isSet]
    cases outcome with
    | inl left => exact ⟨_, _, rfl⟩
    | inr compaction =>
        simp only
        split <;> exact ⟨_, _, rfl⟩

/-- A result of `DoCompact` comes from an overflow under a leaf root, or nothing
was compacted, or a compaction was made. -/
theorem doCompact_cases {guards : List Slice} {state : OpState} {lsmt : Lsmt}
    (done : root.lsmt.doCompact config root.isLeaf guards = .ok (state, lsmt)) :
    (root.leafOverflows config = true ∧ root.nextCompaction config = none ∧
        lsmt = { root.lsmt with compactionScore := -1, compactLevel := none }) ∨
      (root.leafOverflows config = false ∧
        ∃ level set, root.lsmt.SameFiles set ∧
          (1 ≤ root.lsmt.compactionScore → root.lsmt.compactLevel = some level) ∧
          ((root.nextCompaction config = none ∧
              lsmt = { set with compactLevel := some level }) ∨
            ∃ compaction, root.nextCompaction config = some compaction ∧
              compaction.inputs ≠ [] ∧
              compaction.level + 1 < kNumLevels ∧
              compaction.inputs ⊆ root.lsmt.files compaction.level ∧
              compaction.nextInputs ⊆ root.lsmt.files (compaction.level + 1) ∧
              lsmt = (if isTrivialMove config compaction then
                  { set with compactLevel := some level }.trivialMove compaction
                else { set with compactLevel := some level }.compact config guards
                  compaction (compaction.level + 1)).finalize)) := by
  rw [doCompact] at done
  cases isLevel : root.lsmt.compactLevel with
  | none =>
      rw [isLevel] at done
      cases done
  | some level =>
      rw [isLevel] at done
      simp only at done
      have next : root.nextCompaction config =
          if overflows config level && root.isLeaf then none
          else compactionOf config root.lsmt level := by
        simp only [nextCompaction, isLevel]
      have leafSame : root.leafOverflows config =
          (overflows config level && root.isLeaf) := by
        rw [leafOverflows, isLevel, Bool.and_comm]
        rfl
      rw [leafSame, next]
      by_cases leaf : (overflows config level && root.isLeaf) = true
      · rw [if_pos leaf] at done
        cases done
        exact .inl ⟨leaf, if_pos leaf, rfl⟩
      · rw [if_neg leaf] at done
        rw [if_neg leaf]
        refine .inr ⟨by simpa using leaf, ?_⟩
        split at done
        · cases done
        · rename_i left set isSet
          cases done
          obtain ⟨same, ⟨_, isLeft, notDue⟩ | ⟨_, isRight, -⟩⟩ :=
            setCompactionInputs_cases isSet
          · cases isLeft
            refine ⟨left, set, same, fun due => absurd due notDue, .inl ⟨?_, rfl⟩⟩
            rw [compactionOf, isSet]
          · cases isRight
        · rename_i compaction set isSet
          obtain ⟨same, ⟨_, isLeft, -⟩ | ⟨_, isRight, sized, inside, subset, nextSubset⟩⟩ :=
            setCompactionInputs_cases isSet
          · cases isLeft
          · cases isRight
            refine ⟨compaction.level, set, same,
              fun due => congrArg some (sized due).symm, ?_⟩
            simp only [compactionOf, isSet]
            split at done
            · rename_i empty
              cases done
              exact .inl ⟨if_pos empty, rfl⟩
            · rename_i filled
              cases done
              rw [if_neg filled]
              refine .inr ⟨compaction, rfl, ?_, inside, subset, nextSubset, rfl⟩
              rintro isNil
              exact filled (by rw [isNil]; rfl)

/-- A seek request whose level has no file left changes no level. -/
theorem doCompact_of_vanished {guards : List Slice} {state : OpState} {lsmt : Lsmt}
    {level : Nat} (seek : root.lsmt.fileToCompactLevel = some level)
    (empty : root.lsmt.files level = []) (notDue : ¬ 1 ≤ root.lsmt.compactionScore)
    (notLeaf : root.leafOverflows config = false)
    (done : root.lsmt.doCompact config root.isLeaf guards = .ok (state, lsmt)) :
    lsmt.files = root.lsmt.files := by
  have nothing : root.nextCompaction config = none := by
    rw [nextCompaction]
    split
    · rfl
    · split
      · rfl
      · simp only [compactionOf, setCompactionInputs, if_neg notDue, seek, empty,
          List.find?_nil]
  rcases doCompact_cases done with
    ⟨leaf, -⟩ | ⟨-, _, set, same, -, ⟨-, rfl⟩ | ⟨compaction, isNext, -⟩⟩
  · exact absurd (leaf.symm.trans notLeaf) (by simp)
  · exact same.files
  · exact absurd (nothing.symm.trans isNext) (by simp)

/-- The decision and where it comes from. -/
structure Judged (root : RootLsmt) : Prop where
  decided : ∀ levels ∈ root.seen, getBottomLevel levels ≠ none →
    root.lsmt.compactLevel ≠ none
  due : 1 ≤ root.lsmt.compactionScore → ∃ level levels,
    root.lsmt.compactLevel = some level ∧ root.seen = some levels ∧
      level < kNumLevels ∧ (level + 1 = kNumLevels → LastLevelFull levels) ∧
      (root.lsmt.files level = [] → level ∈ root.emptied)
  seekable : ∀ level ∈ root.lsmt.fileToCompactLevel, level + 1 < kNumLevels
  numbered : root.lsmt.Numbered
  pending : ∀ number ∈ root.pendingOutputs, number ≤ root.lsmt.fileId

namespace Judged

theorem initial : Judged RootLsmt.initial := by
  constructor
  · simp [RootLsmt.initial]
  · intro due
    exact absurd due (by norm_num [RootLsmt.initial, Lsmt.empty])
  · simp [RootLsmt.initial, Lsmt.empty]
  · simp [RootLsmt.initial, Lsmt.empty, Numbered]
  · simp [RootLsmt.initial]

theorem maybeScheduleCompaction (inv : Judged root) :
    Judged root.maybeScheduleCompaction := by
  rw [RootLsmt.maybeScheduleCompaction]
  split
  · exact inv
  · split
    · exact inv
    · exact { inv with }

theorem endBackgroundCall (inv : Judged root) : Judged root.endBackgroundCall :=
  maybeScheduleCompaction { inv with }

/-- After `Finalize` the decision fits the levels. -/
theorem finalized {lsmt : Lsmt}
    (seekable : ∀ level ∈ lsmt.fileToCompactLevel, level + 1 < kNumLevels)
    (numbered : lsmt.Numbered)
    (pending : ∀ number ∈ root.pendingOutputs, number ≤ lsmt.fileId) :
    Judged (root.finalized lsmt.finalize) := by
  refine ⟨?_, ?_, seekable, numbered, pending⟩
  · intro levels isSeen filled
    cases isSeen
    rcases finalize_spec lsmt with ⟨empty, -, -⟩ | ⟨best, -, isLevel, -⟩
    · exact absurd empty filled
    · simp only [RootLsmt.finalized, isLevel]
      simp
  · intro due
    simp only [RootLsmt.finalized] at due ⊢
    rcases finalize_spec lsmt with ⟨-, -, low⟩ | ⟨best, isBest, isLevel, score⟩
    · rw [low] at due
      exact absurd due (by norm_num)
    · rw [score] at due
      have inside : best < kNumLevels :=
        Nat.lt_of_lt_of_le isBest.inside (levelCount_le lsmt.files)
      refine ⟨best, lsmt.files, isLevel, rfl, inside, ?_, ?_⟩
      · intro isLast
        have same : best = 6 := by
          simp only [kNumLevels] at isLast
          omega
        subst same
        exact ⟨due, isBest.first⟩
      · intro empty
        have none : lsmt.files best = [] := empty
        rw [none, levelScore_nil] at due
        exact absurd due (by norm_num)

/-- Files may leave without `Finalize`. -/
theorem changed {lsmt : Lsmt} (inv : Judged root)
    (sameLevel : lsmt.compactLevel = root.lsmt.compactLevel)
    (sameScore : lsmt.compactionScore = root.lsmt.compactionScore)
    (sameSeek : lsmt.fileToCompactLevel = root.lsmt.fileToCompactLevel)
    (numbered : lsmt.Numbered)
    (grows : root.lsmt.fileId ≤ lsmt.fileId) : Judged (root.changed lsmt) := by
  refine ⟨?_, ?_, ?_, numbered, ?_⟩
  · intro levels isSeen filled
    simp only [RootLsmt.changed, sameLevel]
    exact inv.decided levels isSeen filled
  · intro due
    simp only [RootLsmt.changed, sameScore] at due
    obtain ⟨level, levels, isLevel, isSeen, inside, last, stale⟩ := inv.due due
    refine ⟨level, levels, sameLevel.trans isLevel, isSeen, inside, last, ?_⟩
    intro empty
    have none : lsmt.files level = [] := empty
    simp only [RootLsmt.changed, List.mem_append, List.mem_filter, List.mem_range]
    by_cases before : root.lsmt.files level = []
    · exact .inl (stale before)
    · exact .inr ⟨inside, by simp [before, none]⟩
  · simp only [RootLsmt.changed, sameSeek]
    exact inv.seekable
  · intro number member
    exact (inv.pending number member).trans grows

theorem startFlush (inv : Judged root) {onCompaction : Bool}
    (started : root.startFlush config onCompaction = some after) : Judged after := by
  rw [RootLsmt.startFlush] at started
  split at started
  · have new := (config.lt_flushNumber root.lsmt.fileId).le
    cases started
    refine { inv with numbered := ?_, pending := ?_ }
    · exact fun level file member => (inv.numbered level file member).trans new
    · intro number member
      rcases List.mem_cons.mp member with rfl | old
      · exact le_rfl
      · exact (inv.pending number old).trans new
  · cases started

theorem addTable (inv : Judged root) (config : LsmtConfig) {number : Nat}
    (known : number ≤ root.lsmt.fileId) (entries : List Entry) :
    Judged (root.addTable config number entries) := by
  rw [RootLsmt.addTable]
  split
  · exact inv
  · rename_i file isFile
    have isNumber : file.number = number := by
      cases entries with
      | nil => cases isFile
      | cons first rest =>
          cases isFile
          rfl
    obtain ⟨sameId, sameSeek⟩ := placeFile_keeps
      (pickLevelForMemTableOutput config root.lsmt.files file.start file.limit) file
      { root.lsmt with tables := Function.update root.lsmt.tables number entries }
    refine finalized ?_ ?_ ?_
    · rw [sameSeek]
      exact inv.seekable
    · have stored : Numbered { root.lsmt with
          tables := Function.update root.lsmt.tables number entries } := inv.numbered
      exact stored.placeFile _ (isNumber.le.trans known)
    · rw [sameId]
      exact inv.pending

theorem commitFlush (inv : Judged root) {onCompaction : Bool} {number : Nat}
    {entries : List Entry}
    (committed : root.commitFlush config onCompaction number entries = some after) :
    Judged after := by
  rw [RootLsmt.commitFlush] at committed
  split at committed
  · rename_i enabled
    simp only [Bool.and_eq_true, List.contains_eq_mem, decide_eq_true_eq] at enabled
    have dropped : Judged { root with
        hasImm := false
        pendingOutputs := root.pendingOutputs.filter (· != number) } :=
      { inv with pending := fun other member =>
          inv.pending other (List.mem_filter.mp member).1 }
    have added := dropped.addTable config (inv.pending number enabled.1.2) entries
    cases onCompaction with
    | true =>
        cases committed
        exact added.endBackgroundCall
    | false =>
        cases committed
        exact added
  · cases committed

/-- A request names a level above the bottom one. -/
theorem overlappingFiles_level {levels : Levels} {key : InternalKey} {level : Nat}
    {file : FileMetaData} (member : (level, file) ∈ overlappingFiles levels key) :
    level + 1 < kNumLevels := by
  simp only [overlappingFiles] at member
  rcases List.mem_append.mp member with top | deeper
  · obtain ⟨other, -, same⟩ := List.mem_map.mp top
    rw [← (Prod.mk.inj same).1]
    decide
  · obtain ⟨place, isPlace, found⟩ := List.mem_filterMap.mp deeper
    have same : place = level := by
      split at found
      · cases found
      · split at found
        · cases found
        · exact (Prod.mk.inj (Option.some.inj found)).1
    obtain ⟨offset, less, isOffset⟩ := List.mem_range'.mp isPlace
    cases bottom : getBottomLevel levels with
    | none => simp [bottom] at less
    | some deepest =>
        have inside := (getBottomLevel_eq_some bottom).1
        rw [bottom] at less
        simp only [Option.getD_some] at less
        omega

theorem recordReadSample (inv : Judged root) (key : InternalKey) :
    Judged { root with lsmt := (root.lsmt.recordReadSample key).2 } := by
  rw [Lsmt.recordReadSample]
  split
  · rename_i level file second rest isList
    rw [updateStats]
    simp only
    split
    · refine { inv with seekable := ?_ }
      intro place isPlace
      cases isPlace
      have member : (level, file) ∈ overlappingFiles root.lsmt.files key := by
        rw [isList]
        exact List.mem_cons_self
      exact overlappingFiles_level member
    · exact { inv with }
  · exact inv

theorem readSample (inv : Judged root) {key : InternalKey}
    (sampled : root.readSample key = some after) : Judged after := by
  have recorded := inv.recordReadSample key
  rw [RootLsmt.readSample] at sampled
  split at sampled
  · generalize root.lsmt.recordReadSample key = sample at sampled recorded
    obtain ⟨requested, lsmt⟩ := sample
    cases requested with
    | true =>
        cases sampled
        exact recorded.maybeScheduleCompaction
    | false =>
        cases sampled
        exact recorded
  · cases sampled

theorem retrieve (inv : Judged root) (level : Nat) (files : List FileMetaData) :
    Judged (root.changed (root.lsmt.finalizeRetrieval level files)) := by
  have numbered := inv.numbered.finalizeRetrieval level files
  rw [finalizeRetrieval] at numbered ⊢
  split
  · rename_i empty
    exact inv.changed rfl rfl rfl inv.numbered le_rfl
  · rename_i filled
    rw [if_neg filled] at numbered
    exact inv.changed rfl rfl rfl numbered le_rfl

theorem compactBottomLevel (inv : Judged root) (guards : List Slice) :
    Judged (root.changed (root.lsmt.compactBottomLevel config guards)) := by
  rw [Lsmt.compactBottomLevel]
  split
  · exact inv.changed rfl rfl rfl inv.numbered le_rfl
  · rename_i level _
    refine inv.changed ?_ ?_ ?_ (inv.numbered.compact config guards _ level) ?_
    · simp [compact, installCompactionResults, applyFileChanges, writeOutputs]
    · simp [compact, installCompactionResults, applyFileChanges, writeOutputs]
    · simp [compact, installCompactionResults, applyFileChanges, writeOutputs]
    · rw [compact_fileId]
      exact config.le_numberAfter _ _

theorem bulkload (inv : Judged root) (loaded : root.bulkload = some after) :
    Judged after := by
  have cleared : Judged (root.changed root.lsmt.clearBottomLevelFiles) := by
    have numbered := inv.numbered.clearBottomLevelFiles
    rw [clearBottomLevelFiles] at numbered ⊢
    cases isBottom : getBottomLevel root.lsmt.files with
    | none => exact inv.changed rfl rfl rfl inv.numbered le_rfl
    | some level =>
        rw [isBottom] at numbered
        exact inv.changed rfl rfl rfl numbered le_rfl
  rw [RootLsmt.bulkload] at loaded
  split at loaded
  · cases loaded
  · split at loaded
    · cases loaded
      exact { cleared with }
    · cases loaded

end Judged

/-! ## Compactions of a standing decision -/

namespace Judged

/-- The level of a decision that stands has a file, and is not the last one. -/
theorem sized (inv : Judged root) {act : Act} (compacts : act.compacts = true)
    (stands : root.DecisionStands config act) {level : Nat}
    (isLevel : root.lsmt.compactLevel = some level)
    (notLeaf : root.leafOverflows config = false)
    (due : 1 ≤ root.lsmt.compactionScore) :
    level + 1 < kNumLevels ∧ root.lsmt.files level ≠ [] := by
  obtain ⟨-, current, -⟩ := stands compacts
  obtain ⟨kept, notFull⟩ := current notLeaf due
  obtain ⟨other, levels, isOther, isSeen, inside, last, stale⟩ := inv.due due
  cases isLevel.symm.trans isOther
  refine ⟨?_, fun empty => kept level isLevel (stale empty)⟩
  refine Nat.lt_of_le_of_ne inside (fun isLast => ?_)
  exact notFull levels isSeen (last isLast)

theorem compactLevel (inv : Judged root) {act : Act} (compacts : act.compacts = true)
    (stands : root.DecisionStands config act) :
    ∃ level, root.lsmt.compactLevel = some level := by
  obtain ⟨⟨levels, isSeen, filled⟩, -⟩ := stands compacts
  exact Option.ne_none_iff_exists'.mp (inv.decided levels isSeen filled)

/-- Work that is not hollow leaves a file below level 0. -/
theorem bottom_ne_zero (inv : Judged root) {guards : List Slice} {state : OpState}
    {lsmt : Lsmt} (solid : ¬ root.Hollow config)
    (done : root.lsmt.doCompact config root.isLeaf guards = .ok (state, lsmt)) :
    getBottomLevel lsmt.files ≠ some 0 := by
  intro isZero
  refine solid ?_
  rcases doCompact_cases done with
    ⟨-, none, rfl⟩ | ⟨-, level, set, same, -, ⟨none, rfl⟩ |
      ⟨compaction, isNext, filled, inside, -, subset, rfl⟩⟩
  · rw [Hollow, none]
    exact ⟨isZero, by simp⟩
  · rw [Hollow, none]
    refine ⟨?_, by simp⟩
    rw [← same.files]
    exact isZero
  · rw [Hollow, isNext]
    split at isZero
    · exact absurd isZero (getBottomLevel_ne_zero (Nat.succ_pos _) inside
        (trivialMove_files_ne_nil { set with compactLevel := some level } filled))
    · rename_i notTrivial
      have numbered := (inv.numbered.of_same same) (compaction.level + 1)
      rw [← same.files] at subset
      by_cases none : outputFiles config set.fileId (doCompactionWorkImpl config guards
          compaction set.files (mergedInput set.tables compaction)) = []
      · have unread := compact_files_of_no_output
          { set with compactLevel := some level } none
        refine ⟨?_, ?_⟩
        · rw [← same.files, ← unread]
          exact isZero
        · rintro other isOther
          cases isOther
          refine ⟨by simpa using notTrivial, ?_⟩
          rw [← same.tables, ← Bool.not_eq_true]
          intro live
          exact outputFiles_ne_nil config set.fileId
            (doCompactionWorkImpl_of_live config guards compaction set.files live) none
      · exact absurd isZero (getBottomLevel_ne_zero (Nat.succ_pos _) inside
          (compact_files_ne_nil { set with compactLevel := some level }
            numbered subset none))

theorem compactsPresent (inv : Judged root) {guards : List Slice}
    (stands : root.DecisionStands config (.backgroundCall guards)) :
    root.CompactsPresent config guards := by
  obtain ⟨level, isLevel⟩ := inv.compactLevel rfl stands
  have sizedLevel := inv.sized rfl stands isLevel
  obtain ⟨state, lsmt, done⟩ := doCompact_ok guards isLevel sizedLevel inv.seekable
  refine ⟨by simp [isLevel], state, lsmt, done, ?_, ?_⟩
  · exact inv.bottom_ne_zero (stands rfl).2.2 done
  · intro place isPlace
    rw [inputLevel] at isPlace
    split at isPlace
    · cases isPlace
    · rename_i notLeaf
      rw [Bool.not_eq_true] at notLeaf
      split at isPlace
      · rename_i due
        cases isLevel.symm.trans isPlace
        obtain ⟨inside, filled⟩ := sizedLevel notLeaf due
        exact ⟨inside, .inl filled⟩
      · rename_i notDue
        refine ⟨inv.seekable place isPlace, ?_⟩
        by_cases empty : root.lsmt.files place = []
        · exact .inr (doCompact_of_vanished isPlace empty notDue notLeaf done)
        · exact .inl empty

theorem backgroundCall (inv : Judged root) {guards : List Slice}
    (called : root.backgroundCall config guards = some after) : Judged after := by
  rw [RootLsmt.backgroundCall] at called
  split at called
  · split at called
    · cases called
    · rename_i state lsmt done
      split at called
      · cases called
      · cases called
        refine endBackgroundCall ?_
        rcases doCompact_cases done with
          ⟨leaf, none, rfl⟩ | ⟨notLeaf, level, set, same, sized, ⟨none, rfl⟩ |
            ⟨compaction, isNext, filled, inside, subset, nextSubset, rfl⟩⟩
        · rw [if_pos leaf]
          exact { inv with
            decided := by simp
            due := fun due => absurd due (by norm_num) }
        · rw [if_neg (by simp [notLeaf]), if_neg (by simp [none])]
          have numbered := inv.numbered.of_same same
          refine ⟨by simp, ?_, ?_, numbered, ?_⟩
          · intro due
            simp only [same.score] at due
            obtain ⟨other, levels, isLevel, isSeen, inside, last, stale⟩ := inv.due due
            cases (sized due).symm.trans isLevel
            refine ⟨level, levels, rfl, isSeen, inside, last, ?_⟩
            simp only [same.files]
            exact stale
          · exact fun place isPlace => inv.seekable place (same.seek place isPlace)
          · simp only [same.fileId]
            exact inv.pending
        · rw [if_neg (by simp [notLeaf]), if_pos (by simp [isNext])]
          have setNumbered := inv.numbered.of_same same
          have numbered : Numbered { set with compactLevel := some level } := setNumbered
          rw [← same.files] at subset
          have pending : ∀ number ∈ root.pendingOutputs, number ≤ set.fileId := by
            rw [same.fileId]
            exact inv.pending
          have seekable : ∀ place ∈ set.fileToCompactLevel, place + 1 < kNumLevels :=
            fun place isPlace => inv.seekable place (same.seek place isPlace)
          split
          · exact finalized seekable (numbered.trivialMove subset) pending
          · refine finalized ?_ (numbered.compact _ _ _ _) ?_
            · simp only [compact, installCompactionResults]
              split <;> exact seekable
            · rw [compact_fileId]
              exact fun number member =>
                (pending number member).trans (config.le_numberAfter _ _)
  · cases called

theorem step (inv : Judged root) {act : Act} (stepped : root.step config act = some after) :
    Judged after := by
  cases act with
  | switchMem schedules =>
      simp only [RootLsmt.step] at stepped
      split at stepped
      · cases stepped
      · cases stepped
        split
        · exact maybeScheduleCompaction { inv with }
        · exact { inv with }
  | startFlush onCompaction => exact inv.startFlush stepped
  | commitFlush onCompaction number entries => exact inv.commitFlush stepped
  | readSample key => exact inv.readSample stepped
  | backgroundCall guards => exact inv.backgroundCall stepped
  | retrieve level files =>
      simp only [RootLsmt.step] at stepped
      split at stepped
      · cases stepped
      · cases stepped
        exact inv.retrieve level files
  | compactBottomLevel guards =>
      simp only [RootLsmt.step] at stepped
      split at stepped
      · cases stepped
      · cases stepped
        exact inv.compactBottomLevel guards
  | bulkload => exact inv.bulkload stepped
  | finalize =>
      cases stepped
      exact (finalized inv.seekable inv.numbered inv.pending).maybeScheduleCompaction

end Judged

/-- In every run in which `DoCompact` starts only with a decision that stands, it
compacts a level that is there. -/
theorem compactsPresent_of_reaches {config : LsmtConfig} {root : RootLsmt}
    (reaches : Lib.Reaches (step config) (DecisionStands config) initial root)
    {guards : List Slice}
    (stands : root.DecisionStands config (.backgroundCall guards)) :
    root.CompactsPresent config guards := by
  have judged : Judged root := by
    refine reaches.invariant Judged Judged.initial ?_
    intro before act after inv _ stepped
    exact inv.step stepped
  exact judged.compactsPresent stands

/-- Options with a level limit, for tables of small entries. -/
def smallTables (levelLimit : Int) : LsmtConfig where
  levelLimit := levelLimit
  maxFileSize := 2097152
  outputFileSize := 2097152
  buildingSize := fun entries => 40 * entries.length
  tableSize := fun entries => 100 + 40 * entries.length
  elsewhere := fun _ => 0

/-- A memtable with one entry is filled, switched and flushed. -/
def flushOne (number : Nat) (entry : Entry) : List Act :=
  [.switchMem true, .startFlush true, .commitFlush true number [entry]]

/-- Four flushed memtables with one key are compacted to level 1. -/
def fourFlushes : List Act :=
  flushOne 1 ⟨⟨[1], 2, .kTypeValue⟩, [7]⟩ ++ flushOne 2 ⟨⟨[1], 3, .kTypeValue⟩, [7]⟩ ++
    flushOne 3 ⟨⟨[1], 4, .kTypeValue⟩, [7]⟩ ++ flushOne 4 ⟨⟨[1], 5, .kTypeValue⟩, [7]⟩

theorem fourFlushes_compactsPresent :
    ∃ root, Lib.run (step (smallTables 2))
        (fun root act => decide (root.DecisionStands (smallTables 2) act)) initial
        fourFlushes = some root ∧
      root.runsDoCompact = true ∧ root.CompactsPresent (smallTables 2) [] := by
  have ran : (Lib.run (step (smallTables 2))
      (fun root act => decide (root.DecisionStands (smallTables 2) act)) initial
      fourFlushes).map (fun root => root.runsDoCompact &&
        decide (root.DecisionStands (smallTables 2) (.backgroundCall []))) = some true := by
    decide +kernel
  obtain ⟨root, isRoot, holds⟩ := Option.map_eq_some_iff.mp ran
  rw [Bool.and_eq_true, decide_eq_true_eq] at holds
  refine ⟨root, isRoot, holds.1, compactsPresent_of_reaches ?_ holds.2⟩
  exact Lib.reaches_of_run (fun _ _ passed => of_decide_eq_true passed) isRoot

/-- Two deletions of one key and a file beside them, all in level 0: a read
sample asks for a compaction, which drops all it reads. -/
theorem doCompact_leaves_level_zero :
    ¬ ∀ config root guards,
      Lib.Reaches (step config) (fun _ _ => True) initial root →
        root.runsDoCompact = true → root.CompactsPresent config guards := by
  intro claim
  have ran : (Lib.run (step (smallTables 2)) (fun _ _ => true) initial
      (flushOne 1 ⟨⟨[3], 2, .kTypeDeletion⟩, []⟩ ++
        flushOne 2 ⟨⟨[3], 3, .kTypeDeletion⟩, []⟩ ++
        flushOne 3 ⟨⟨[9], 4, .kTypeValue⟩, [7]⟩ ++
        [.readSample ⟨[3], 9, .kTypeValue⟩])).map (fun root => root.runsDoCompact &&
          decide (((root.lsmt.doCompact (smallTables 2) root.isLeaf []).toOption.map
            (fun result => getBottomLevel result.2.files)) = some (some 0))) =
      some true := by
    decide +kernel
  obtain ⟨root, isRoot, holds⟩ := Option.map_eq_some_iff.mp ran
  rw [Bool.and_eq_true, decide_eq_true_eq] at holds
  obtain ⟨-, state, after, done, notZero, -⟩ := claim (smallTables 2) root []
    (Lib.reaches_of_run (fun _ _ _ => trivial) isRoot) holds.1
  rw [done] at holds
  exact notZero (Option.some.inj holds.2)

end RootLsmt

end AhaTree
