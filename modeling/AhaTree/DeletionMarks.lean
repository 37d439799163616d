import AhaTree.CompactionContent

/-!
# The deletions that a compaction keeps

`IsBaseLevelForKey` moves one cursor in each level from the second one below the
compacted level.  On a sorted input the cursors do not pass a file too early, so
that a deletion at the head of its user key is dropped exactly when none of
these levels has a file that covers the key.
-/

namespace AhaTree

open Lsmt

/-- A file of the levels that `IsBaseLevelForKey` looks at covers the key. -/
def CoveredDeeper (levels : Levels) (level : Nat) (key : Slice) : Prop :=
  ∃ deeper ∈ Work.deeperLevels level, ∃ file ∈ levels deeper, file.Covers key

instance (file : FileMetaData) (key : Slice) : Decidable (file.Covers key) :=
  inferInstanceAs (Decidable (_ ∧ _))

instance (levels : Levels) (level : Nat) (key : Slice) :
    Decidable (CoveredDeeper levels level key) :=
  inferInstanceAs (Decidable (∃ deeper ∈ Work.deeperLevels level, _))

/-! ## The cursors -/

/-- In a level in order, the file at the cursor decides whether one covers the
key. -/
theorem covers_iff_head {files : List FileMetaData} (sorted : files.Pairwise Apart)
    (key : Slice) :
    (∃ file ∈ files, file.Covers key) ↔
      ∃ file, (files.dropWhile (fun file => (Slice.compare key file.limit).isGT)).head? =
        some file ∧ (Slice.compare key file.start).isGE = true := by
  induction files with
  | nil => simp
  | cons first files ih =>
      obtain ⟨ahead, rest⟩ := List.pairwise_cons.mp sorted
      rw [List.dropWhile_cons]
      by_cases passed : (Slice.compare key first.limit).isGT = true
      · have behind : first.limit < key := by
          rwa [Ordering.isGT_iff_eq_gt, Slice.compare_eq_gt] at passed
        rw [if_pos passed, ← ih rest]
        constructor
        · rintro ⟨file, member, covers⟩
          rcases List.mem_cons.mp member with rfl | later
          · exact absurd covers.2 (not_le.mpr behind)
          · exact ⟨file, later, covers⟩
        · rintro ⟨file, member, covers⟩
          exact ⟨file, List.mem_cons_of_mem _ member, covers⟩
      · have inside : key ≤ first.limit := by
          rwa [Ordering.isGT_iff_eq_gt, Slice.compare_eq_gt, not_lt] at passed
        rw [if_neg passed, List.head?_cons]
        constructor
        · rintro ⟨file, member, covers⟩
          refine ⟨first, rfl, ?_⟩
          rw [Slice.compare_isGE]
          rcases List.mem_cons.mp member with rfl | later
          · exact covers.1
          · exact absurd (inside.trans_lt (ahead file later)) (not_lt.mpr covers.1)
        · rintro ⟨file, isFirst, starts⟩
          cases isFirst
          exact ⟨first, List.mem_cons_self, Slice.compare_isGE.mp starts, inside⟩

namespace Work

/-- What is left before the cursors are files of the levels, and those that are
passed end before the key. -/
def Passes (levels ahead : Levels) (key : Slice) : Prop :=
  ∀ level, ∃ passed, levels level = passed ++ ahead level ∧
    ∀ file ∈ passed, file.limit < key

theorem Passes.trans {levels middle ahead : Levels} {key later : Slice}
    (first : Passes levels middle key) (second : Passes middle ahead later)
    (order : key ≤ later) : Passes levels ahead later := by
  intro level
  obtain ⟨passed, isPassed, below⟩ := first level
  obtain ⟨more, isMore, stillBelow⟩ := second level
  refine ⟨passed ++ more, by rw [isPassed, isMore, List.append_assoc], ?_⟩
  intro file member
  rcases List.mem_append.mp member with old | new
  · exact (below file old).trans_le order
  · exact stillBelow file new

theorem Passes.refl (levels : Levels) (key : Slice) : Passes levels levels key :=
  fun level => ⟨[], rfl, by simp⟩

/-- Files that a cursor has passed cover no later key. -/
theorem Passes.covers_iff {levels ahead : Levels} {key : Slice}
    (passes : Passes levels ahead key) (level : Nat) :
    (∃ file ∈ levels level, file.Covers key) ↔ ∃ file ∈ ahead level, file.Covers key := by
  obtain ⟨passed, isPassed, below⟩ := passes level
  rw [isPassed]
  constructor
  · rintro ⟨file, member, covers⟩
    rcases List.mem_append.mp member with old | left
    · exact absurd covers.2 (not_le.mpr (below file old))
    · exact ⟨file, left, covers⟩
  · rintro ⟨file, member, covers⟩
    exact ⟨file, List.mem_append_right _ member, covers⟩

theorem passes_update (ahead : Levels) (level : Nat) (key : Slice) :
    Passes ahead (Function.update ahead level ((ahead level).dropWhile (fun file =>
      (Slice.compare key file.limit).isGT))) key := by
  intro place
  by_cases same : place = level
  · subst same
    rw [Function.update_self]
    refine ⟨_, List.takeWhile_append_dropWhile.symm, ?_⟩
    intro file member
    have passed : (Slice.compare key file.limit).isGT = true :=
      List.mem_takeWhile_imp (p := fun file : FileMetaData =>
        (Slice.compare key file.limit).isGT) member
    rwa [Ordering.isGT_iff_eq_gt, Slice.compare_eq_gt] at passed
  · rw [Function.update_of_ne same]
    exact ⟨[], rfl, by simp⟩

/-- `IsBaseLevelForKey` tells whether a file of the levels covers the key. -/
theorem isBaseLevelForKey_spec (key : Slice) (levels : List Nat) {ahead : Levels}
    (sorted : ∀ level ∈ levels, (ahead level).Pairwise Apart) :
    ((isBaseLevelForKey key levels ahead).1 = true ↔
      ¬ ∃ level ∈ levels, ∃ file ∈ ahead level, file.Covers key) ∧
      Passes ahead (isBaseLevelForKey key levels ahead).2 key := by
  induction levels generalizing ahead with
  | nil =>
      refine ⟨by simp [isBaseLevelForKey], ?_⟩
      exact Passes.refl ahead key
  | cons level levels ih =>
      have head := covers_iff_head (sorted level List.mem_cons_self) key
      have moved := passes_update ahead level key
      have movedSorted : ∀ other ∈ levels, (Function.update ahead level
          ((ahead level).dropWhile (fun file => (Slice.compare key file.limit).isGT))
            other).Pairwise Apart := by
        intro other member
        obtain ⟨passed, isPassed, -⟩ := moved other
        have whole := sorted other (List.mem_cons_of_mem _ member)
        rw [isPassed] at whole
        exact (List.pairwise_append.mp whole).2.1
      have rest := ih movedSorted
      have restCovers : (∃ other ∈ levels, ∃ file ∈ Function.update ahead level
          ((ahead level).dropWhile (fun file => (Slice.compare key file.limit).isGT)) other,
            file.Covers key) ↔ ∃ other ∈ levels, ∃ file ∈ ahead other, file.Covers key := by
        refine exists_congr (fun other => and_congr_right (fun _ => ?_))
        exact (moved.covers_iff other).symm
      rw [restCovers] at rest
      have split : (∃ other ∈ level :: levels, ∃ file ∈ ahead other, file.Covers key) ↔
          (∃ file ∈ ahead level, file.Covers key) ∨
            ∃ other ∈ levels, ∃ file ∈ ahead other, file.Covers key := by
        simp only [List.mem_cons, exists_eq_or_imp]
      rw [split, head]
      simp only [isBaseLevelForKey]
      cases left : (ahead level).dropWhile (fun file =>
          (Slice.compare key file.limit).isGT) with
      | nil =>
          rw [left] at rest moved
          have whole := moved.trans rest.2 le_rfl
          simp only [List.head?_nil, reduceCtorEq, false_and, exists_false, false_or]
          exact ⟨rest.1, whole⟩
      | cons file files =>
          rw [left] at rest moved
          simp only [List.head?_cons, Option.some.injEq, exists_eq_left']
          by_cases starts : (Slice.compare key file.start).isGE = true
          · rw [if_pos starts]
            exact ⟨by simp [starts], moved⟩
          · rw [if_neg starts]
            refine ⟨?_, moved.trans rest.2 le_rfl⟩
            rw [or_iff_right starts]
            exact rest.1

theorem Passes.mono {levels ahead : Levels} {key later : Slice}
    (passes : Passes levels ahead key) (order : key ≤ later) : Passes levels ahead later :=
  passes.trans (Passes.refl ahead later) order

/-! ## Which entries a round keeps -/

@[simp] theorem finish_ahead (work : Work) : work.finish.ahead = work.ahead := by
  rw [finish]
  split <;> rfl

theorem stopBefore_ahead (config : LsmtConfig) (key : InternalKey) (work : Work) :
    (work.stopBefore config key).ahead = work.ahead := by
  simp only [stopBefore]
  split
  · rw [finish_ahead]
    rfl
  · rfl

theorem round_ahead (config : LsmtConfig) (guards : List Slice) (level : Nat)
    (work : Work) (entry : Entry) :
    (work.round config guards level entry).ahead =
      ((work.stopBefore config entry.key).drops level entry).2.ahead := by
  have guarded : ∀ other : Work, (other.passGuard guards entry).ahead = other.ahead := by
    intro other
    rw [passGuard]
    split
    · rfl
    · split
      · exact finish_ahead other
      · rfl
  have added : ∀ other : Work, (other.add config guards entry).ahead = other.ahead := by
    intro other
    simp only [add]
    split <;> rfl
  simp only [round]
  split
  · rfl
  · rw [added, guarded]

/-- A deletion at the head of its user key is dropped when `IsBaseLevelForKey`
says so, and only then the cursors move. -/
theorem roundDrops_of_deletion (config : LsmtConfig) (guards : List Slice) (level : Nat)
    {work : Work} {entry : Entry}
    (shown : ¬ (work.stopBefore config entry.key).hides entry = true)
    (isDeletion : ¬ entry.IsValue) :
    work.roundDrops config level entry =
        (isBaseLevelForKey entry.userKey (deeperLevels level) work.ahead).1 ∧
      (work.round config guards level entry).ahead =
        (isBaseLevelForKey entry.userKey (deeperLevels level) work.ahead).2 := by
  have kind : entry.key.type = .kTypeDeletion := by
    cases type : entry.key.type with
    | kTypeValue => exact absurd type isDeletion
    | kTypeDeletion => rfl
  rw [round_ahead, roundDrops, drops, if_neg shown, kind, stopBefore_ahead]
  exact ⟨rfl, rfl⟩

theorem round_ahead_of_other (config : LsmtConfig) (guards : List Slice) (level : Nat)
    {work : Work} {entry : Entry}
    (other : (work.stopBefore config entry.key).hides entry = true ∨ entry.IsValue) :
    (work.round config guards level entry).ahead = work.ahead := by
  rw [round_ahead, drops]
  by_cases hidden : (work.stopBefore config entry.key).hides entry = true
  · rw [if_pos hidden]
    exact stopBefore_ahead config entry.key work
  · have isValue := other.resolve_left hidden
    rw [Entry.IsValue] at isValue
    rw [if_neg hidden, isValue]
    exact stopBefore_ahead config entry.key work

/-- The loop keeps the values among the first versions, and those deletions that
a deeper file covers. -/
theorem mem_kept_iff (config : LsmtConfig) (guards : List Slice) {levels : Levels}
    {level : Nat} (deepSorted : ∀ deeper ∈ deeperLevels level,
      (levels deeper).Pairwise Apart)
    {work : Work} {entries : List Entry} (settled : work.Settled)
    (bounded : ∀ entry ∈ entries, entry.sequence < kMaxSequenceNumber)
    (ascending : Ascending entries)
    (passes : ∀ entry ∈ entries, Passes levels work.ahead entry.userKey) {entry : Entry} :
    entry ∈ work.kept config guards level entries ↔
      entry ∈ firstVersions work.currentUserKey entries ∧
        (entry.IsValue ∨ CoveredDeeper levels level entry.userKey) := by
  induction entries generalizing work with
  | nil => simp [kept, firstVersions]
  | cons first entries ih =>
      obtain ⟨headLe, restAscending⟩ := List.pairwise_cons.mp ascending
      have here := passes first List.mem_cons_self
      have restSettled := Settled.round config guards level work
        (bounded first List.mem_cons_self)
      have restBounded : ∀ other ∈ entries, other.sequence < kMaxSequenceNumber :=
        fun other later => bounded other (List.mem_cons_of_mem _ later)
      by_cases hidden : work.currentUserKey = some first.userKey
      · have hides := (settled.hides_iff config first).mpr hidden
        have rest := ih restSettled restBounded restAscending (by
          intro other later
          rw [round_ahead_of_other config guards level (.inl hides)]
          exact passes other (List.mem_cons_of_mem _ later))
        rw [round_currentUserKey] at rest
        rw [kept, roundDrops_of_hidden config level hides, firstVersions, if_pos hidden, hidden]
        exact rest
      · have shown : ¬ (work.stopBefore config first.key).hides first = true :=
          fun hides => hidden ((settled.hides_iff config first).mp hides)
        rw [kept, firstVersions, if_neg hidden, List.mem_append, List.mem_cons]
        by_cases isValue : first.IsValue
        · have rest := ih restSettled restBounded restAscending (by
            intro other later
            rw [round_ahead_of_other config guards level (.inr isValue)]
            exact passes other (List.mem_cons_of_mem _ later))
          rw [round_currentUserKey] at rest
          rw [roundDrops_of_value config level shown isValue, rest]
          constructor
          · rintro (isFirst | ⟨later, stays⟩)
            · rw [List.mem_singleton.mp isFirst]
              exact ⟨.inl rfl, .inl isValue⟩
            · exact ⟨.inr later, stays⟩
          · rintro ⟨rfl | later, stays⟩
            · exact .inl (List.mem_singleton_self _)
            · exact .inr ⟨later, stays⟩
        · obtain ⟨dropped, moved⟩ :=
            roundDrops_of_deletion config guards level shown isValue
          have aheadSorted : ∀ deeper ∈ deeperLevels level,
              (work.ahead deeper).Pairwise Apart := by
            intro deeper member
            obtain ⟨passed, isPassed, -⟩ := here deeper
            have whole := deepSorted deeper member
            rw [isPassed] at whole
            exact (List.pairwise_append.mp whole).2.1
          obtain ⟨isBase, further⟩ :=
            isBaseLevelForKey_spec first.userKey (deeperLevels level) aheadSorted
          have rest := ih restSettled restBounded restAscending (by
            intro other later
            rw [moved]
            exact (here.trans further le_rfl).mono (headLe other later))
          rw [round_currentUserKey] at rest
          have covered : (∃ deeper ∈ deeperLevels level, ∃ file ∈ work.ahead deeper,
              file.Covers first.userKey) ↔ CoveredDeeper levels level first.userKey := by
            refine exists_congr (fun deeper => and_congr_right (fun _ => ?_))
            exact (here.covers_iff deeper).symm
          rw [covered] at isBase
          rw [dropped, rest]
          constructor
          · rintro (isFirst | ⟨later, stays⟩)
            · split at isFirst
              · cases isFirst
              · rename_i stays
                rw [List.mem_singleton.mp isFirst]
                exact ⟨.inl rfl, .inr (not_not.mp (fun none => stays (isBase.mpr none)))⟩
            · exact ⟨.inr later, stays⟩
          · rintro ⟨rfl | later, stays⟩
            · rw [if_neg (fun base => isBase.mp base (stays.resolve_left isValue))]
              exact .inl (List.mem_singleton_self _)
            · exact .inr ⟨later, stays⟩

end Work

/-! ## The outputs of a compaction -/

section Compact

variable {lsmt : Lsmt} {compaction : Compaction} {target : Nat} (inv : Leveled lsmt)
  (fits : Fits lsmt.files compaction target) (config : LsmtConfig) (guards : List Slice)

include inv fits

/-- The outputs hold the newest version of each user key that was read, unless it
is a deletion that no deeper file covers. -/
theorem versions_outputs_iff (named : lsmt.Named) (key : Slice) (entry : Entry) :
    entry ∈ versions (lsmt.outputsOf config guards compaction).flatten key ↔
      Lib.Newest Entry.sequence (versions (mergedInput lsmt.tables compaction) key) entry ∧
        (entry.IsValue ∨ CoveredDeeper lsmt.files compaction.level key) := by
  have deepSorted : ∀ deeper ∈ Work.deeperLevels compaction.level,
      (lsmt.files deeper).Pairwise Apart := by
    intro deeper member
    refine inv.apart deeper ?_
    rw [Work.deeperLevels, List.mem_range'_1] at member
    omega
  have spec : entry ∈ (lsmt.outputsOf config guards compaction).flatten ↔
      entry ∈ firstVersions none (mergedInput lsmt.tables compaction) ∧
        (entry.IsValue ∨ CoveredDeeper lsmt.files compaction.level entry.userKey) := by
    rw [outputsOf, doCompactionWorkImpl_flatten]
    exact Work.mem_kept_iff config guards deepSorted
      (startWork_settled guards compaction lsmt.files)
      (fun _ isInput => mergedInput_bounded inv fits isInput)
      (ascending_of_not_before (mergedInput_spec inv fits).2)
      (fun _ _ => Work.Passes.refl _ _)
  rw [(mergedInput_sorted inv fits named).mem_firstVersions_iff (by simp)] at spec
  constructor
  · rintro ⟨isOutput, rfl⟩
    obtain ⟨⟨-, isNewest⟩, stays⟩ := spec.mp isOutput
    exact ⟨isNewest, stays⟩
  · rintro ⟨isNewest, stays⟩
    obtain ⟨-, rfl⟩ := isNewest.member
    exact ⟨spec.mpr ⟨⟨by simp, isNewest⟩, stays⟩, rfl⟩

end Compact

end AhaTree
