import AhaTree.TreeCompaction

/-!
# Deletions and the data below an LSMT

An LSMT is the top of a tree, and older versions of its user keys may lie in the
buffers and pages of the nodes below.  A compaction looks for them only in its
own LSMT, from the second level below the compacted one on, and `CompactTree` not
at all.  So a deleted key stays deleted exactly when no compaction drops a
deletion that hides something older in a file it does not read, or below.
-/

namespace AhaTree

open Lsmt

/-! ## What a reader sees -/

/-- The versions of a user key below an LSMT. -/
def lowerVersions (below : Set Entry) (key : Slice) : Set Entry :=
  {entry | entry ∈ below ∧ entry.userKey = key}

/-- A reader of the LSMT and of all that lies below finds the same. -/
def SameVisible (below : Set Entry) (before after : Slice → Set Entry) : Prop :=
  ∀ key found,
    Lib.Shows Entry.sequence Entry.IsValue (after key ∪ lowerVersions below key) found ↔
      Lib.Shows Entry.sequence Entry.IsValue (before key ∪ lowerVersions below key) found

/-- A deletion goes only when no older version of its user key remains.  One that
a newer version among those read hides goes with all that it hides. -/
def DropsLast (below : Set Entry) (read after : Slice → Set Entry) : Prop :=
  ∀ key mark, Lib.Newest Entry.sequence (read key) mark → ¬ mark.IsValue →
    mark ∉ after key ∪ lowerVersions below key →
    ∀ other ∈ after key ∪ lowerVersions below key, mark.sequence < other.sequence

structure StaysDeleted (below : Set Entry) (read before after : Slice → Set Entry) :
    Prop where
  visible : SameVisible below before after
  dropped : DropsLast below read after

/-- No user key that the compaction does not find covered has a deletion at its
head that hides an older version in the rest, or below. -/
def HidesNothing (below : Set Entry) (read rest : Slice → Set Entry)
    (covered : Slice → Prop) : Prop :=
  ∀ key mark, Lib.Newest Entry.sequence (read key) mark → ¬ mark.IsValue →
    ¬ covered key → mark ∉ rest key ∪ lowerVersions below key →
    ∀ other ∈ rest key ∪ lowerVersions below key, mark.sequence < other.sequence

/-- A user key and a sequence number name one entry of the LSMT or below. -/
def NamedWith (below : Set Entry) (lsmt : Lsmt) : Prop :=
  ∀ left right, (lsmt.Stored left ∨ left ∈ below) → (lsmt.Stored right ∨ right ∈ below) →
    left.userKey = right.userKey → left.sequence = right.sequence → left = right

theorem NamedWith.named {below : Set Entry} {lsmt : Lsmt} (named : NamedWith below lsmt) :
    lsmt.Named :=
  fun left right isLeft isRight => named left right (.inl isLeft) (.inl isRight)

theorem NamedWith.mono {below : Set Entry} {lsmt after : Lsmt}
    (named : NamedWith below lsmt) (stored : ∀ entry, after.Stored entry → lsmt.Stored entry) :
    NamedWith below after :=
  fun left right isLeft isRight =>
    named left right (isLeft.imp_left (stored left)) (isRight.imp_left (stored right))

theorem NamedWith.injOn {below : Set Entry} {lsmt : Lsmt} (named : NamedWith below lsmt)
    (key : Slice) :
    Set.InjOn Entry.sequence (lsmt.storedVersions key ∪ lowerVersions below key) := by
  intro left isLeft right isRight same
  have inside : ∀ entry ∈ lsmt.storedVersions key ∪ lowerVersions below key,
      (lsmt.Stored entry ∨ entry ∈ below) ∧ entry.userKey = key := by
    rintro entry (⟨isStored, isKey⟩ | ⟨isBelow, isKey⟩)
    · exact ⟨.inl isStored, isKey⟩
    · exact ⟨.inr isBelow, isKey⟩
  obtain ⟨leftHeld, leftKey⟩ := inside left isLeft
  obtain ⟨rightHeld, rightKey⟩ := inside right isRight
  exact named left right leftHeld rightHeld (leftKey.trans rightKey.symm) same

/-- Versions are read, and only the newest one is written again, a deletion only
if its user key is covered. -/
theorem staysDeleted_iff {below : Set Entry} {read rest before after : Slice → Set Entry}
    {covered : Slice → Prop} (finite : ∀ key, (read key).Finite)
    (whole : ∀ key, before key = rest key ∪ read key)
    (distinct : ∀ key, Set.InjOn Entry.sequence (before key ∪ lowerVersions below key))
    {kept : Slice → Set Entry} (left : ∀ key, after key = rest key ∪ kept key)
    (isKept : ∀ key entry, entry ∈ kept key ↔
      Lib.Newest Entry.sequence (read key) entry ∧ (entry.IsValue ∨ covered key)) :
    StaysDeleted below read before after ↔ HidesNothing below read rest covered := by
  have apart : ∀ key, Set.InjOn Entry.sequence
      (rest key ∪ lowerVersions below key ∪ read key) := by
    intro key
    rw [Set.union_right_comm, ← whole]
    exact distinct key
  have safe := fun key => Lib.reduce_safe_iff (finite key) (apart key) (isKept key)
  constructor
  · rintro ⟨visible, dropped⟩ key
    refine (safe key).mp ⟨?_, ?_⟩
    · intro found
      rw [Set.union_right_comm, ← left, Set.union_right_comm, ← whole]
      exact visible key found
    · rw [Set.union_right_comm, ← left]
      exact dropped key
  · intro hides
    have both := fun key => (safe key).mpr (hides key)
    refine ⟨?_, ?_⟩
    · intro key found
      have same := (both key).1 found
      rw [Set.union_right_comm, ← left, Set.union_right_comm, ← whole] at same
      exact same
    · intro key
      have last := (both key).2
      rw [Set.union_right_comm, ← left] at last
      exact last

/-! ## One compaction -/

/-- The files that are rewritten, if any. -/
def rewrittenFiles : Option Compaction → List FileMetaData
  | none => []
  | some compaction => compaction.reads

/-- The compaction, if there is one, drops no deletion that hides something. -/
def HidesNothingIn (below : Set Entry) (lsmt : Lsmt) : Option Compaction → Prop
  | none => True
  | some compaction => HidesNothing below (tableVersions lsmt.tables compaction.reads)
      (lsmt.unreadVersions compaction) (CoveredDeeper lsmt.files compaction.level)

/-- The LSMT has become another one, which rewrote the files of a compaction. -/
def KeepsDeleted (below : Set Entry) (lsmt : Lsmt) (compaction : Option Compaction)
    (after : Lsmt) : Prop :=
  StaysDeleted below (tableVersions lsmt.tables (rewrittenFiles compaction))
    lsmt.storedVersions after.storedVersions

/-- Nothing changes if no file is rewritten. -/
theorem keepsDeleted_none {below : Set Entry} {lsmt after : Lsmt}
    (same : ∀ key, after.storedVersions key = lsmt.storedVersions key) :
    KeepsDeleted below lsmt none after := by
  refine ⟨?_, ?_⟩
  · intro key found
    rw [same]
  · rintro key mark ⟨⟨⟨file, isFile, -⟩, -⟩, -⟩
    cases isFile

section Compact

variable {below : Set Entry} {lsmt : Lsmt} {compaction : Compaction} {target : Nat}
  (inv : Leveled lsmt) (fits : Fits lsmt.files compaction target)

include inv fits

theorem versions_mergedInput (key : Slice) :
    versions (mergedInput lsmt.tables compaction) key =
      tableVersions lsmt.tables compaction.reads key := by
  ext entry
  exact and_congr_left' (mem_mergedInput inv fits)

theorem keepsDeleted_compact_iff (named : NamedWith below lsmt) (config : LsmtConfig)
    (guards : List Slice) :
    KeepsDeleted below lsmt (some compaction) (lsmt.compact config guards compaction target) ↔
      HidesNothingIn below lsmt (some compaction) := by
  refine staysDeleted_iff ?_ ?_ named.injOn (storedVersions_compact inv fits config guards) ?_
  · intro key
    rw [rewrittenFiles, ← versions_mergedInput inv fits]
    exact versions_finite _ _
  · intro key
    rw [rewrittenFiles, ← versions_mergedInput inv fits]
    exact storedVersions_eq inv fits key
  · intro key entry
    rw [rewrittenFiles, ← versions_mergedInput inv fits]
    exact versions_outputs_iff inv fits config guards named.named key entry

/-- A compaction stores no new entry. -/
theorem stored_of_compact (named : lsmt.Named) (config : LsmtConfig) (guards : List Slice)
    {entry : Entry} (isStored : (lsmt.compact config guards compaction target).Stored entry) :
    lsmt.Stored entry := by
  have member : entry ∈ (lsmt.compact config guards compaction target).storedVersions
      entry.userKey := ⟨isStored, rfl⟩
  rw [storedVersions_compact inv fits] at member
  have old : entry ∈ lsmt.storedVersions entry.userKey := by
    rw [storedVersions_eq inv fits]
    exact member.imp_right (fun isOutput =>
      ((versions_outputs_iff inv fits config guards named _ _).mp isOutput).1.member)
  exact old.1

end Compact

/-! ## The rounds of `CompactLevel` -/

/-- A round: what it rewrites (a trivial move rewrites nothing), and the LSMT
before and after. -/
structure Round where
  before : Lsmt
  rewritten : Option Compaction
  done : Lsmt

namespace Checked

/-- The rounds that `compactLevels` makes. -/
def rounds (config : BufferConfig) (guards : List Slice) : Nat → Nat → Lsmt → List Round
  | 0, _, _ => []
  | below + 1, level, lsmt =>
      if overflows config.toLsmtConfig level then []
      else
        match lsmt.firstBehind level with
        | none => []
        | some file =>
            let (compaction, after) :=
              setupOtherInputs config.toLsmtConfig lsmt level (lsmt.overlapTop level file)
            match compactTo config guards compaction after with
            | .error _ => []
            | .ok done =>
                let round : Round := {
                  before := after
                  rewritten := if isTrivialMoveWithin config.toLsmtConfig compaction then none
                    else some compaction
                  done := done }
                round :: (if mayNeedCompaction config (level + 1) done then
                  rounds config guards below (level + 1) done else [])

/-- The rounds of `CompactLevel`. -/
def levelRounds (config : BufferConfig) (guards : List Slice) (level : Nat) (lsmt : Lsmt) :
    List Round :=
  rounds config guards (kNumLevels - 1 - level) level lsmt

/-- The compaction that `CompactBottomLevel` makes. -/
def bottomCompaction (page : Option (List Slice)) (levels : Levels) : Option Compaction :=
  match getBottomLevel levels with
  | none => none
  | some level =>
      if (levels level).length == 1 && page.isNone then none
      else some ⟨level, levels level, [], []⟩

end Checked

section Operations

variable {below : Set Entry}

theorem storedVersions_trivialMove {lsmt : Lsmt} (inv : Leveled lsmt)
    {compaction : Compaction} {config : LsmtConfig}
    (fits : Fits lsmt.files compaction (compaction.level + 1))
    (trivial : isTrivialMove config compaction = true) {after : Lsmt}
    (moved : Checked.trivialMove compaction lsmt = .ok after) (key : Slice) :
    after.storedVersions key = lsmt.storedVersions key := by
  obtain ⟨file, single, alone⟩ := Checked.single_of_isTrivialMove trivial
  rw [Checked.trivialMove_eq inv fits single alone] at moved
  cases moved
  have same := mem_trivialMove_iff inv fits single
  ext entry
  refine and_congr_left' ?_
  constructor
  · rintro ⟨level, other, member, inside⟩
    obtain ⟨place, old⟩ := (same other).mp ⟨level, member⟩
    exact ⟨place, other, old, inside⟩
  · rintro ⟨level, other, member, inside⟩
    obtain ⟨place, new⟩ := (same other).mpr ⟨level, member⟩
    exact ⟨place, other, new, inside⟩

/-- One round of `CompactLevel`. -/
theorem keepsDeleted_compactTo_iff {lsmt : Lsmt} (inv : Leveled lsmt)
    (named : NamedWith below lsmt) {compaction : Compaction} {config : BufferConfig}
    {guards : List Slice} (fits : Fits lsmt.files compaction (compaction.level + 1))
    {after : Lsmt} (ran : Checked.compactTo config guards compaction lsmt = .ok after) :
    (KeepsDeleted below lsmt (if Checked.isTrivialMoveWithin config.toLsmtConfig compaction
        then none else some compaction) after ↔
      HidesNothingIn below lsmt (if Checked.isTrivialMoveWithin config.toLsmtConfig compaction
        then none else some compaction)) ∧
      ∀ entry, after.Stored entry → lsmt.Stored entry := by
  rw [Checked.compactTo] at ran
  split at ran
  · rename_i trivial
    rw [if_pos trivial]
    rw [Checked.isTrivialMoveWithin, Bool.and_eq_true] at trivial
    have same := storedVersions_trivialMove inv fits trivial.2 ran
    refine ⟨iff_of_true (keepsDeleted_none same) True.intro, ?_⟩
    intro entry isStored
    have member : entry ∈ after.storedVersions entry.userKey := ⟨isStored, rfl⟩
    rw [same] at member
    exact member.1
  · rename_i trivial
    rw [if_neg trivial]
    rw [Checked.compact_eq inv fits] at ran
    cases ran
    exact ⟨keepsDeleted_compact_iff inv fits named _ guards,
      fun _ isStored => stored_of_compact inv fits named.named _ guards isStored⟩

/-- Each round keeps deleted keys deleted exactly when it drops no deletion that
hides something, and if all rounds do then so does the whole. -/
theorem keepsDeleted_rounds {config : BufferConfig} {guards : List Slice} {levels level : Nat}
    {lsmt after : Lsmt} {state : OpState} (inv : Leveled lsmt) (named : NamedWith below lsmt)
    (ran : Checked.compactLevels config guards levels level lsmt = .ok (state, after)) :
    (∀ round ∈ Checked.rounds config guards levels level lsmt,
      (KeepsDeleted below round.before round.rewritten round.done ↔
        HidesNothingIn below round.before round.rewritten)) ∧
      ((∀ round ∈ Checked.rounds config guards levels level lsmt,
        KeepsDeleted below round.before round.rewritten round.done) →
          SameVisible below lsmt.storedVersions after.storedVersions) := by
  induction levels generalizing level lsmt with
  | zero =>
      rw [Checked.compactLevels] at ran
      split at ran
      · cases ran
        exact ⟨fun _ member => absurd member List.not_mem_nil, fun _ _ _ => Iff.rfl⟩
      · cases ran
  | succ levels ih =>
      rw [Checked.compactLevels] at ran
      rw [Checked.rounds]
      split at ran
      · rename_i overflow
        cases ran
        rw [if_pos overflow]
        exact ⟨fun _ member => absurd member List.not_mem_nil, fun _ _ _ => Iff.rfl⟩
      · rename_i overflow
        rw [if_neg overflow]
        rcases isFirst : lsmt.firstBehind level with _ | file
        · rw [isFirst] at ran
          cases ran
        · rw [isFirst] at ran
          have fits := Checked.fits_setupOtherInputs inv config.toLsmtConfig
            (firstBehind_mem isFirst)
          have set : Leveled (setupOtherInputs config.toLsmtConfig lsmt level
              (lsmt.overlapTop level file)).2 := inv.of_same rfl rfl rfl
          have setNamed : NamedWith below (setupOtherInputs config.toLsmtConfig lsmt level
              (lsmt.overlapTop level file)).2 := named
          have safe := Checked.safe_compactTo set fits config guards
          simp only at ran ⊢
          rcases isDone : Checked.compactTo config guards
              (setupOtherInputs config.toLsmtConfig lsmt level (lsmt.overlapTop level file)).1
              (setupOtherInputs config.toLsmtConfig lsmt level (lsmt.overlapTop level file)).2
            with halt | middle
          · rw [isDone] at ran
            cases ran
          · rw [isDone] at safe ran
            obtain ⟨own, stored⟩ := keepsDeleted_compactTo_iff set setNamed fits isDone
            simp only at ran
            simp only [List.forall_mem_cons]
            split at ran
            · rename_i needed
              obtain ⟨later, laterSame⟩ := ih safe (setNamed.mono stored) ran
              rw [if_pos needed]
              refine ⟨⟨own, later⟩, ?_⟩
              rintro ⟨first, rest⟩ key found
              exact (laterSame rest key found).trans (first.visible key found)
            · rename_i needless
              cases ran
              rw [if_neg needless]
              refine ⟨⟨own, fun _ member => absurd member List.not_mem_nil⟩, ?_⟩
              rintro ⟨first, -⟩
              exact first.visible

theorem keepsDeleted_compactBottomLevel_iff {lsmt : Lsmt} (inv : Leveled lsmt)
    (named : NamedWith below lsmt) {config : LsmtConfig} {page : Option (List Slice)}
    {after : Lsmt} (ran : Checked.compactBottomLevel config page lsmt = .ok after) :
    KeepsDeleted below lsmt (Checked.bottomCompaction page lsmt.files) after ↔
      HidesNothingIn below lsmt (Checked.bottomCompaction page lsmt.files) := by
  rw [Checked.compactBottomLevel] at ran
  rw [Checked.bottomCompaction]
  rcases isBottom : getBottomLevel lsmt.files with _ | level
  · rw [isBottom] at ran
    cases ran
    exact iff_of_true (keepsDeleted_none (fun _ => rfl)) True.intro
  · rw [isBottom] at ran
    simp only at ran ⊢
    split at ran
    · rename_i single
      cases ran
      simp only [if_pos single]
      exact iff_of_true (keepsDeleted_none (fun _ => rfl)) True.intro
    · rename_i several
      simp only [if_neg several]
      have fits := @Checked.fits_whole lsmt level
      rw [Checked.compact_eq inv fits] at ran
      cases ran
      exact keepsDeleted_compact_iff inv fits named config _

/-- `CompactTree` keeps no deletion at all. -/
theorem staysDeleted_compactTree_iff {lsmt : Lsmt} (inv : Leveled lsmt)
    (shallow : ∀ level, kNumLevels ≤ level → lsmt.files level = [])
    (named : NamedWith below lsmt) (config : LsmtConfig) (guards : List Slice)
    (maxOutputFileSize : Nat) :
    StaysDeleted below lsmt.storedVersions lsmt.storedVersions
        (tableVersions (lsmt.compactTree config guards maxOutputFileSize).2.tables
          (lsmt.compactTree config guards maxOutputFileSize).1) ↔
      HidesNothing below lsmt.storedVersions (fun _ => ∅) (fun _ => False) := by
  refine staysDeleted_iff ?_ (fun _ => (Set.empty_union _).symm) named.injOn
    (fun _ => (Set.empty_union _).symm) ?_
  · intro key
    rw [← versions_mergedLevels inv shallow]
    exact versions_finite _ _
  · intro key entry
    rw [mem_tableVersions_compactTree_iff inv shallow config guards maxOutputFileSize
      named.named, or_false]

end Operations

/-- Deleted keys stay deleted exactly when no deletion is dropped that hides an
older version in a file that is not read, or below the LSMT. -/
theorem deleted_keys_stay_iff (config : BufferConfig) {below : Set Entry} {lsmt : Lsmt}
    (inv : Leveled lsmt) (shallow : ∀ level, kNumLevels ≤ level → lsmt.files level = [])
    (named : NamedWith below lsmt) :
    (∀ guards level state after,
      Checked.compactLevel config guards level lsmt = .ok (state, after) →
        ((∀ round ∈ Checked.levelRounds config guards level lsmt,
            KeepsDeleted below round.before round.rewritten round.done) ∧
          SameVisible below lsmt.storedVersions after.storedVersions ↔
          ∀ round ∈ Checked.levelRounds config guards level lsmt,
            HidesNothingIn below round.before round.rewritten)) ∧
    (∀ page after,
      Checked.compactBottomLevel config.toLsmtConfig page lsmt = .ok after →
        (KeepsDeleted below lsmt (Checked.bottomCompaction page lsmt.files) after ↔
          HidesNothingIn below lsmt (Checked.bottomCompaction page lsmt.files))) ∧
    (∀ guards low up level files after,
      Checked.getFilesInRange lsmt.files low up = some (level, files) →
      Checked.compactFilesInRange config.toLsmtConfig guards level files lsmt = .ok after →
        (KeepsDeleted below lsmt (some ⟨level, files, [], []⟩) after ↔
          HidesNothingIn below lsmt (some ⟨level, files, [], []⟩))) ∧
    (∀ guards outfiles after,
      lsmt.compactTreeByGuards config.toLsmtConfig guards = (outfiles, after) →
        (StaysDeleted below lsmt.storedVersions lsmt.storedVersions
            (tableVersions after.tables outfiles) ↔
          HidesNothing below lsmt.storedVersions (fun _ => ∅) (fun _ => False))) ∧
    ∀ splitNum newSplitNum outfiles after,
      lsmt.compactTreeBySplit config.toLsmtConfig splitNum =
        some (newSplitNum, outfiles, after) →
        (StaysDeleted below lsmt.storedVersions lsmt.storedVersions
            (tableVersions after.tables outfiles) ↔
          HidesNothing below lsmt.storedVersions (fun _ => ∅) (fun _ => False)) := by
  refine ⟨?_, ?_, ?_, ?_, ?_⟩
  · intro guards level state after ran
    obtain ⟨each, whole⟩ := keepsDeleted_rounds inv named ran
    constructor
    · rintro ⟨kept, -⟩ round member
      exact (each round member).mp (kept round member)
    · intro hides
      have kept : ∀ round ∈ Checked.levelRounds config guards level lsmt,
          KeepsDeleted below round.before round.rewritten round.done :=
        fun round member => (each round member).mpr (hides round member)
      exact ⟨kept, whole kept⟩
  · intro page after ran
    exact keepsDeleted_compactBottomLevel_iff inv named ran
  · intro guards low up level files after found ran
    have fits := Checked.fits_filesInRange inv found
    rw [Checked.compactFilesInRange, Checked.compact_eq inv fits] at ran
    cases ran
    exact keepsDeleted_compact_iff inv fits named _ guards
  · intro guards outfiles after made
    cases made
    exact staysDeleted_compactTree_iff inv shallow named _ guards _
  · intro splitNum newSplitNum outfiles after made
    rw [compactTreeBySplit] at made
    split at made
    · cases made
    · cases made
      exact staysDeleted_compactTree_iff inv shallow named _ [] _

/-! ## One deletion -/

def deletion : Entry := ⟨⟨[97], 5, .kTypeDeletion⟩, []⟩

def deletionFile : FileMetaData :=
  .ofEntries (RootLsmt.smallTables 3) 1 deletion deletion [deletion]

/-- Level 0 has a file with one deletion. -/
def deletedOnly : Lsmt :=
  Checked.pushFiles [deletionFile] (Checked.buildTable 1 [deletion] Lsmt.empty)

theorem mem_deletedOnly {level : Nat} {file : FileMetaData}
    (member : file ∈ deletedOnly.files level) : level = 0 ∧ file = deletionFile := by
  cases level with
  | zero => exact ⟨rfl, List.mem_singleton.mp member⟩
  | succ level => exact absurd member List.not_mem_nil

theorem leveled_deletedOnly : Leveled deletedOnly where
  apart level positive := by
    cases level with
    | zero => exact absurd positive (lt_irrefl 0)
    | succ level => exact List.Pairwise.nil
  once level other file twin member twinMember _ := by
    obtain ⟨rfl, rfl⟩ := mem_deletedOnly member
    obtain ⟨rfl, rfl⟩ := mem_deletedOnly twinMember
    exact ⟨rfl, rfl⟩
  nodup level := by
    cases level with
    | zero => exact List.nodup_singleton _
    | succ level => exact List.nodup_nil
  numbered level file member := by
    obtain ⟨rfl, rfl⟩ := mem_deletedOnly member
    decide
  described level file member := by
    obtain ⟨rfl, rfl⟩ := mem_deletedOnly member
    refine ⟨⟨deletion, rfl, rfl⟩, ⟨deletion, rfl, ?_⟩, List.pairwise_singleton _ _, ?_⟩
    · simp [deletionFile, FileMetaData.ofEntries]
    · intro entry inside
      rw [List.mem_singleton.mp inside]
      decide

theorem shallow_deletedOnly (level : Nat) (deep : kNumLevels ≤ level) :
    deletedOnly.files level = [] := by
  cases level with
  | zero => exact absurd deep (by decide)
  | succ level => rfl

theorem stored_deletedOnly {entry : Entry} :
    deletedOnly.Stored entry ↔ entry = deletion := by
  constructor
  · rintro ⟨level, file, member, inside⟩
    obtain ⟨rfl, rfl⟩ := mem_deletedOnly member
    exact List.mem_singleton.mp inside
  · rintro rfl
    exact ⟨0, deletionFile, List.mem_singleton_self _, List.mem_singleton_self _⟩

/-- An older value of the deleted user key. -/
def older : Entry := ⟨⟨[97], 3, .kTypeValue⟩, [118]⟩

theorem namedWith_deletedOnly : NamedWith {older} deletedOnly := by
  have isOne : ∀ entry, deletedOnly.Stored entry ∨ entry ∈ ({older} : Set Entry) →
      entry = deletion ∨ entry = older :=
    fun entry held => held.imp stored_deletedOnly.mp id
  intro left right isLeft isRight _ same
  rcases isOne left isLeft with rfl | rfl <;> rcases isOne right isRight with rfl | rfl
  · rfl
  · exact absurd same (by decide)
  · exact absurd same (by decide)
  · rfl

/-- The compaction of the bottom level reads the only file. -/
theorem unread_deletedOnly {level : Nat} {file : FileMetaData} :
    file ∉ unreadLevels deletedOnly.files (some ⟨0, deletedOnly.files 0, [], []⟩) level := by
  intro stays
  have member : file ∈ deletedOnly.files level := List.filter_sublist.subset stays
  obtain ⟨rfl, rfl⟩ := mem_deletedOnly member
  exact (mem_unreadLevels_iff leveled_deletedOnly (@Checked.fits_whole deletedOnly 0)
    member).mp stays (List.mem_singleton_self _)

/-- For a page with the pivots 97 and 109 it drops the deletion. -/
theorem compactBottomLevel_deletedOnly :
    ∃ after, Checked.compactBottomLevel Checked.smallBuffer.toLsmtConfig (some [[97], [109]])
        deletedOnly = .ok after ∧ ∀ key, after.storedVersions key = ∅ := by
  have fits := @Checked.fits_whole deletedOnly 0
  refine ⟨_, Checked.compact_eq leveled_deletedOnly fits Checked.smallBuffer.toLsmtConfig
    [[97], [109]], ?_⟩
  intro key
  have nothing : deletedOnly.outputsOf Checked.smallBuffer.toLsmtConfig [[97], [109]]
      ⟨0, deletedOnly.files 0, [], []⟩ = [] := by
    decide +kernel
  rw [storedVersions_compact leveled_deletedOnly fits, nothing]
  refine Set.eq_empty_of_forall_notMem ?_
  rintro entry (⟨⟨level, file, stays, -⟩, -⟩ | ⟨isOutput, -⟩)
  · exact unread_deletedOnly stays
  · cases isOutput

/-- The deleted key comes back: its older value below the LSMT is visible. -/
theorem deleted_key_comes_back :
    Leveled deletedOnly ∧ NamedWith {older} deletedOnly ∧
      (∀ found, ¬ Lib.Shows Entry.sequence Entry.IsValue
        (deletedOnly.storedVersions [97] ∪ lowerVersions {older} [97]) found) ∧
      ∃ after, Checked.compactBottomLevel Checked.smallBuffer.toLsmtConfig (some [[97], [109]])
          deletedOnly = .ok after ∧
        Lib.Shows Entry.sequence Entry.IsValue
          (after.storedVersions [97] ∪ lowerVersions {older} [97]) older ∧
        ¬ KeepsDeleted {older} deletedOnly
          (Checked.bottomCompaction (some [[97], [109]]) deletedOnly.files) after := by
  have hidden : ∀ found, ¬ Lib.Shows Entry.sequence Entry.IsValue
      (deletedOnly.storedVersions [97] ∪ lowerVersions {older} [97]) found := by
    rintro found ⟨⟨⟨isStored, -⟩ | ⟨isBelow, -⟩, greatest⟩, living⟩
    · rw [stored_deletedOnly.mp isStored] at living
      cases living
    · have newer := greatest deletion (.inl ⟨stored_deletedOnly.mpr rfl, rfl⟩)
      rw [Set.mem_singleton_iff.mp isBelow] at newer
      exact absurd newer (by decide)
  obtain ⟨after, ran, empty⟩ := compactBottomLevel_deletedOnly
  have back : Lib.Shows Entry.sequence Entry.IsValue
      (after.storedVersions [97] ∪ lowerVersions {older} [97]) older := by
    rw [empty, Set.empty_union]
    refine ⟨⟨⟨rfl, rfl⟩, ?_⟩, rfl⟩
    rintro other ⟨isBelow, -⟩
    exact (congrArg Entry.sequence isBelow).le
  refine ⟨leveled_deletedOnly, namedWith_deletedOnly, hidden, after, ran, back, ?_⟩
  intro kept
  exact hidden older ((kept.visible [97] older).mp back)

/-- With nothing below the LSMT the deletion may go. -/
theorem deletion_goes :
    ∃ after, Checked.compactBottomLevel Checked.smallBuffer.toLsmtConfig (some [[97], [109]])
        deletedOnly = .ok after ∧ ¬ after.Stored deletion ∧
      KeepsDeleted ∅ deletedOnly (Checked.bottomCompaction (some [[97], [109]]) deletedOnly.files)
        after := by
  obtain ⟨after, ran, empty⟩ := compactBottomLevel_deletedOnly
  have gone : ¬ after.Stored deletion := by
    intro isStored
    have member : deletion ∈ after.storedVersions [97] := ⟨isStored, rfl⟩
    rw [empty] at member
    exact member
  have named : NamedWith ∅ deletedOnly := by
    rintro left right (isLeft | isLeft) (isRight | isRight) _ _
    · exact (stored_deletedOnly.mp isLeft).trans (stored_deletedOnly.mp isRight).symm
    · exact isRight.elim
    · exact isLeft.elim
    · exact isLeft.elim
  refine ⟨after, ran, gone, ((deleted_keys_stay_iff Checked.smallBuffer leveled_deletedOnly
    shallow_deletedOnly named).2.1 (some [[97], [109]]) after ran).mpr ?_⟩
  rintro key mark - - - - other (⟨⟨level, file, stays, -⟩, -⟩ | ⟨isBelow, -⟩)
  · exact absurd stays unread_deletedOnly
  · exact isBelow.elim

end AhaTree
