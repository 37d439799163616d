import AhaTree.LevelRuns
import AhaTree.Lib.Newest
import Mathlib.Logic.Relation

/-!
# Compactions keep what is stored

An LSMT stores versions of user keys in the tables of its files.  A compaction
replaces the tables it reads by one that holds the newest version of each user
key among them.  Where nothing is deleted the newest version over all levels is
the same before and after, and the files that have left the levels, and only
these, are marked obsolete.
-/

namespace AhaTree

open Lsmt

/-! ## The first versions of a sorted list -/

/-- The first version of a user key in a sorted list is its newest one. -/
theorem Sorted.mem_firstVersions_iff {stream : List Entry} (sorted : Sorted stream)
    {current : Option Slice} {entry : Entry}
    (reached : ∀ hidden ∈ current, ∀ other ∈ stream, hidden ≤ other.userKey) :
    entry ∈ firstVersions current stream ↔ current ≠ some entry.userKey ∧
      Lib.Newest Entry.sequence (versions stream entry.userKey) entry := by
  induction stream generalizing current with
  | nil =>
      simp only [firstVersions, List.not_mem_nil, false_iff, not_and]
      rintro - isNewest
      exact List.not_mem_nil isNewest.member.1
  | cons first stream ih =>
      have headLe : ∀ other ∈ stream, first.userKey ≤ other.userKey :=
        fun other later => sorted.head_le (List.mem_cons_of_mem _ later)
      have headNewest : Lib.Newest Entry.sequence
          (versions (first :: stream) first.userKey) first := by
        refine ⟨⟨List.mem_cons_self, rfl⟩, ?_⟩
        rintro other ⟨member, same⟩
        exact sorted.head_newest member same
      -- behind the first entry only other user keys count
      have rest : entry ∈ firstVersions (some first.userKey) stream ↔
          first.userKey ≠ entry.userKey ∧ Lib.Newest Entry.sequence
            (versions (first :: stream) entry.userKey) entry := by
        rw [ih sorted.tail (by
          rintro _ ⟨⟩
          exact headLe), ne_eq, Option.some.injEq]
        refine and_congr_right (fun different => ?_)
        rw [versions_cons_of_ne different]
      rw [firstVersions]
      by_cases hidden : current = some first.userKey
      · rw [if_pos hidden, hidden, rest, ne_eq, ne_eq, Option.some.injEq]
      · rw [if_neg hidden, List.mem_cons, rest]
        constructor
        · rintro (rfl | ⟨different, isNewest⟩)
          · exact ⟨hidden, headNewest⟩
          · refine ⟨?_, isNewest⟩
            intro same
            have above := sorted.head_le isNewest.member.1
            have below := reached entry.userKey same first List.mem_cons_self
            exact different (le_antisymm above below)
        · rintro ⟨-, isNewest⟩
          by_cases same : first.userKey = entry.userKey
          · rw [← same] at isNewest
            have below := isNewest.greatest first ⟨List.mem_cons_self, rfl⟩
            have above := headNewest.greatest entry ⟨isNewest.member.1, same.symm⟩
            exact .inl (sorted.named entry isNewest.member.1 first List.mem_cons_self
              same.symm (Nat.le_antisymm above below))
          · exact .inr ⟨same, isNewest⟩

/-! ## What an LSMT stores -/

namespace Lsmt

/-- The entry is in the table of a file of some level. -/
def Stored (lsmt : Lsmt) (entry : Entry) : Prop :=
  ∃ level, ∃ file ∈ lsmt.files level, entry ∈ lsmt.tables file.number

/-- The stored versions of a user key. -/
def storedVersions (lsmt : Lsmt) (key : Slice) : Set Entry :=
  {entry | lsmt.Stored entry ∧ entry.userKey = key}

/-- The versions of a user key in files that a compaction does not read. -/
def unreadVersions (lsmt : Lsmt) (compaction : Compaction) (key : Slice) : Set Entry :=
  {entry | (∃ level, ∃ file ∈ unreadLevels lsmt.files (some compaction) level,
    entry ∈ lsmt.tables file.number) ∧ entry.userKey = key}

/-- A user key and a sequence number name one stored entry. -/
def Named (lsmt : Lsmt) : Prop :=
  ∀ left right, lsmt.Stored left → lsmt.Stored right → left.userKey = right.userKey →
    left.sequence = right.sequence → left = right

/-- No file of a level has the number. -/
def Absent (lsmt : Lsmt) (number : Nat) : Prop :=
  ∀ level, ∀ file ∈ lsmt.files level, file.number ≠ number

end Lsmt

/-- The inputs of a compaction among the files of a level. -/
theorem mem_unreadLevels {levels : Levels} {compaction : Compaction} {level : Nat}
    {file : FileMetaData} :
    file ∈ unreadLevels levels (some compaction) level ↔ file ∈ levels level ∧
      file.number ∉ (if level = compaction.level then compaction.inputs
        else if level = compaction.level + 1 then compaction.nextInputs
        else []).map FileMetaData.number := by
  simp only [unreadLevels, List.mem_filter, List.contains_eq_mem, Bool.not_eq_true',
    decide_eq_false_iff_not]

section Compact

variable {lsmt : Lsmt} {compaction : Compaction} {target : Nat} (inv : Leveled lsmt)
  (fits : Fits lsmt.files compaction target)

include inv fits

/-- The levels keep exactly the files that are not read. -/
theorem mem_unreadLevels_iff {level : Nat} {file : FileMetaData}
    (member : file ∈ lsmt.files level) :
    file ∈ unreadLevels lsmt.files (some compaction) level ↔ file ∉ compaction.reads := by
  rw [mem_unreadLevels]
  constructor
  · rintro ⟨-, stays⟩ isRead
    rcases List.mem_append.mp isRead with isInput | isNext
    · obtain ⟨rfl, -⟩ := inv.once _ _ file file member (fits.inputs isInput) rfl
      rw [if_pos rfl] at stays
      exact stays (List.mem_map_of_mem isInput)
    · obtain ⟨rfl, -⟩ := inv.once _ _ file file member (fits.nextSublist.subset isNext) rfl
      rw [if_neg (Nat.succ_ne_self _), if_pos rfl] at stays
      exact stays (List.mem_map_of_mem isNext)
  · intro unread
    refine ⟨member, ?_⟩
    intro gone
    obtain ⟨other, isInput, same⟩ := List.mem_map.mp gone
    have isRead : other ∈ compaction.reads := by
      split at isInput
      · exact List.mem_append_left _ isInput
      · split at isInput
        · exact List.mem_append_right _ isInput
        · cases isInput
    obtain ⟨place, inside⟩ := mem_level_of_read fits isRead
    obtain ⟨-, rfl⟩ := inv.once _ _ other file inside member same
    exact unread isRead

/-- What is stored is in a file that stays, or in the merged input. -/
theorem storedVersions_eq (key : Slice) :
    lsmt.storedVersions key = lsmt.unreadVersions compaction key ∪
      versions (mergedInput lsmt.tables compaction) key := by
  ext entry
  constructor
  · rintro ⟨⟨level, file, member, inside⟩, same⟩
    by_cases isRead : file ∈ compaction.reads
    · exact .inr ⟨(mem_mergedInput inv fits).mpr ⟨file, isRead, inside⟩, same⟩
    · exact .inl ⟨⟨level, file, (mem_unreadLevels_iff inv fits member).mpr isRead, inside⟩,
        same⟩
  · rintro (⟨⟨level, file, stays, inside⟩, same⟩ | ⟨isInput, same⟩)
    · exact ⟨⟨level, file, List.filter_sublist.subset stays, inside⟩, same⟩
    · obtain ⟨file, isRead, inside⟩ := (mem_mergedInput inv fits).mp isInput
      obtain ⟨level, member⟩ := mem_level_of_read fits isRead
      exact ⟨⟨level, file, member, inside⟩, same⟩

variable (config : LsmtConfig) (guards : List Slice)

omit inv fits in
/-- Every output gets a file. -/
theorem exists_outputFile (number : Nat) {outputs : List (List Entry)}
    (filled : ∀ output ∈ outputs, output ≠ []) {place : Nat} {output : List Entry}
    (found : outputs[place]? = some output) :
    ∃ file ∈ outputFiles config number outputs,
      file.number = config.numberAfter number (place + 1) := by
  induction outputs generalizing number place with
  | nil => cases found
  | cons first outputs ih =>
      obtain ⟨own, isOwn, same⟩ :=
        outputFiles_cons config number (filled first List.mem_cons_self) outputs
      rw [same]
      cases place with
      | zero =>
          refine ⟨own, List.mem_cons_self, ?_⟩
          cases first with
          | nil => exact absurd rfl (filled [] List.mem_cons_self)
          | cons head tail =>
              cases isOwn
              rfl
      | succ place =>
          obtain ⟨file, member, isNumber⟩ := ih (config.outputNumber number)
            (fun other later => filled other (List.mem_cons_of_mem _ later)) found
          exact ⟨file, List.mem_cons_of_mem _ member, isNumber⟩

omit inv fits in
theorem compact_tables (lsmt : Lsmt) (compaction : Compaction) (target : Nat) :
    (lsmt.compact config guards compaction target).tables =
      (lsmt.writeOutputs config (lsmt.outputsOf config guards compaction)).tables := by
  simp only [Lsmt.compact, Lsmt.installCompactionResults]
  split <;> rfl

/-- The levels after a compaction: files that stay, and outputs. -/
theorem mem_compact_iff {level : Nat} {file : FileMetaData} :
    file ∈ (lsmt.compact config guards compaction target).files level ↔
      file ∈ unreadLevels lsmt.files (some compaction) level ∨ (level = target ∧ file ∈
        outputFiles config lsmt.fileId (lsmt.outputsOf config guards compaction)) := by
  by_cases same : level = target
  · subst same
    rw [(compact_files_perm inv fits config guards).mem_iff, List.mem_append, or_comm]
    simp
  · rw [compact_files_of_ne fits config guards same]
    simp [same]

/-- What is stored after a compaction. -/
theorem storedVersions_compact (key : Slice) :
    (lsmt.compact config guards compaction target).storedVersions key =
      lsmt.unreadVersions compaction key ∪
        versions (lsmt.outputsOf config guards compaction).flatten key := by
  have old : ∀ {level : Nat} {file : FileMetaData},
      file ∈ unreadLevels lsmt.files (some compaction) level →
      (lsmt.compact config guards compaction target).tables file.number =
        lsmt.tables file.number := by
    intro level file stays
    rw [compact_tables]
    exact writeOutputs_old config _ (inv.numbered level file (List.filter_sublist.subset stays))
  ext entry
  constructor
  · rintro ⟨⟨level, file, member, inside⟩, same⟩
    rcases (mem_compact_iff inv fits config guards).mp member with stays | ⟨-, isAdded⟩
    · rw [old stays] at inside
      exact .inl ⟨⟨level, file, stays, inside⟩, same⟩
    · obtain ⟨output, isOutput, -, isTable⟩ :=
        addedFiles_described inv fits config guards isAdded
      rw [compact_tables, isTable] at inside
      exact .inr ⟨List.mem_flatten.mpr ⟨output, isOutput, inside⟩, same⟩
  · rintro (⟨⟨level, file, stays, inside⟩, same⟩ | ⟨isOutput, same⟩)
    · refine ⟨⟨level, file, (mem_compact_iff inv fits config guards).mpr (.inl stays), ?_⟩,
        same⟩
      rw [old stays]
      exact inside
    · obtain ⟨output, member, inside⟩ := List.mem_flatten.mp isOutput
      obtain ⟨place, found⟩ := List.mem_iff_getElem?.mp member
      obtain ⟨file, isAdded, isNumber⟩ := exists_outputFile config lsmt.fileId
        (fun _ isOne => outputsOf_filled config guards isOne) found
      refine ⟨⟨target, file, (mem_compact_iff inv fits config guards).mpr
        (.inr ⟨rfl, isAdded⟩), ?_⟩, same⟩
      rw [compact_tables, isNumber, writeOutputs_new config found]
      exact inside

theorem mergedInput_sorted (named : lsmt.Named) :
    Sorted (mergedInput lsmt.tables compaction) where
  ascending := (mergedInput_spec inv fits).2
  named left isLeft right isRight := by
    have stored : ∀ entry ∈ mergedInput lsmt.tables compaction, lsmt.Stored entry := by
      intro entry isInput
      obtain ⟨file, isRead, inside⟩ := (mem_mergedInput inv fits).mp isInput
      obtain ⟨level, member⟩ := mem_level_of_read fits isRead
      exact ⟨level, file, member, inside⟩
    exact named left right (stored left isLeft) (stored right isRight)

theorem storedVersions_injOn (named : lsmt.Named) (key : Slice) :
    Set.InjOn Entry.sequence (lsmt.unreadVersions compaction key ∪
      versions (mergedInput lsmt.tables compaction) key) := by
  rw [← storedVersions_eq inv fits key]
  rintro left ⟨isLeft, leftKey⟩ right ⟨isRight, rightKey⟩ same
  exact named left right isLeft isRight (leftKey.trans rightKey.symm) same

/-- Without deletions the outputs hold the newest version of each user key that
was read. -/
theorem versions_outputs (named : lsmt.Named)
    (values : ∀ entry, lsmt.Stored entry → entry.IsValue) (key : Slice) :
    versions (lsmt.outputsOf config guards compaction).flatten key =
      {entry | Lib.Newest Entry.sequence
        (versions (mergedInput lsmt.tables compaction) key) entry} := by
  have stored : ∀ entry ∈ mergedInput lsmt.tables compaction, lsmt.Stored entry := by
    intro entry isInput
    obtain ⟨file, isRead, inside⟩ := (mem_mergedInput inv fits).mp isInput
    obtain ⟨level, member⟩ := mem_level_of_read fits isRead
    exact ⟨level, file, member, inside⟩
  have same : (lsmt.outputsOf config guards compaction).flatten =
      firstVersions none (mergedInput lsmt.tables compaction) :=
    doCompactionWorkImpl_of_values config guards compaction lsmt.files
      (fun _ isInput => mergedInput_bounded inv fits isInput)
      (fun entry isInput => values entry (stored entry isInput))
  ext entry
  rw [same]
  constructor
  · rintro ⟨isFirst, rfl⟩
    exact (((mergedInput_sorted inv fits named).mem_firstVersions_iff (by simp)).mp
      isFirst).2
  · intro isNewest
    obtain ⟨-, rfl⟩ := isNewest.member
    exact ⟨((mergedInput_sorted inv fits named).mem_firstVersions_iff (by simp)).mpr
      ⟨by simp, isNewest⟩, rfl⟩

/-- A compaction without deletions keeps the newest version of every user key. -/
theorem newest_compact (named : lsmt.Named)
    (values : ∀ entry, lsmt.Stored entry → entry.IsValue) (key : Slice) (found : Entry) :
    Lib.Newest Entry.sequence
        ((lsmt.compact config guards compaction target).storedVersions key) found ↔
      Lib.Newest Entry.sequence (lsmt.storedVersions key) found := by
  rw [storedVersions_compact inv fits, storedVersions_eq inv fits key,
    versions_outputs inv fits config guards named values]
  have distinct := storedVersions_injOn inv fits named key
  rcases (versions (mergedInput lsmt.tables compaction) key).eq_empty_or_nonempty with
    none | nonempty
  · have nothing : {entry | Lib.Newest Entry.sequence
        (versions (mergedInput lsmt.tables compaction) key) entry} = ∅ := by
      refine Set.eq_empty_of_forall_notMem ?_
      intro entry isNewest
      have member := isNewest.member
      rw [none] at member
      exact member
    rw [nothing, none]
  · obtain ⟨top, isNewest⟩ : ∃ top, Lib.Newest Entry.sequence
        (versions (mergedInput lsmt.tables compaction) key) top :=
      Lib.exists_newest (versions_finite _ _) nonempty
    have single : {entry | Lib.Newest Entry.sequence
        (versions (mergedInput lsmt.tables compaction) key) entry} = {top} := by
      ext entry
      constructor
      · intro isOther
        exact isOther.unique (distinct.mono Set.subset_union_right) isNewest
      · rintro rfl
        exact isNewest
    rw [single]
    exact Lib.newest_union_singleton distinct isNewest

/-- The files that leave the levels are those that were read. -/
theorem leaves_compact_iff (number : Nat) :
    (¬ lsmt.Absent number ∧ (lsmt.compact config guards compaction target).Absent number) ↔
      number ∈ compaction.reads.map FileMetaData.number := by
  constructor
  · rintro ⟨there, gone⟩
    simp only [Absent, not_forall, not_not] at there
    obtain ⟨level, file, member, rfl⟩ := there
    refine List.mem_map_of_mem ?_
    by_contra unread
    exact gone level file ((mem_compact_iff inv fits config guards).mpr
      (.inl ((mem_unreadLevels_iff inv fits member).mpr unread))) rfl
  · intro isRead
    obtain ⟨file, member, rfl⟩ := List.mem_map.mp isRead
    obtain ⟨level, inside⟩ := mem_level_of_read fits member
    refine ⟨fun absent => absent level file inside rfl, ?_⟩
    intro place other isOther same
    rcases (mem_compact_iff inv fits config guards).mp isOther with stays | ⟨-, isAdded⟩
    · have old : other ∈ lsmt.files place := List.filter_sublist.subset stays
      obtain ⟨-, rfl⟩ := inv.once _ _ other file old inside same
      exact (mem_unreadLevels_iff inv fits old).mp stays member
    · exact addedFiles_fresh config guards inv.numbered isAdded inside same

omit inv fits in
theorem compact_obsoleteFiles (lsmt : Lsmt) (compaction : Compaction) (target : Nat) :
    (lsmt.compact config guards compaction target).obsoleteFiles =
      lsmt.obsoleteFiles ++ compaction.inputs.map FileMetaData.number ++
        compaction.nextInputs.map FileMetaData.number := by
  simp only [Lsmt.compact, Lsmt.installCompactionResults]
  split <;> rfl

end Compact

/-! ## One compaction -/

/-- One compaction: every user key keeps its newest version, the tables of new
files hold entries of files that have left, and the files that have left are the
new obsolete ones. -/
structure Rewrites (lsmt after : Lsmt) : Prop where
  newest : ∀ key found, Lib.Newest Entry.sequence (after.storedVersions key) found ↔
    Lib.Newest Entry.sequence (lsmt.storedVersions key) found
  stored : ∀ entry, after.Stored entry → lsmt.Stored entry
  outputs : ∀ level, ∀ file ∈ after.files level, lsmt.Absent file.number →
    ∀ entry ∈ after.tables file.number, ∃ place, ∃ input ∈ lsmt.files place,
      after.Absent input.number ∧ entry ∈ lsmt.tables input.number
  obsolete : ∀ number, number ∈ after.obsoleteFiles ↔
    number ∈ lsmt.obsoleteFiles ∨ (¬ lsmt.Absent number ∧ after.Absent number)

/-- The LSMTs differ in neither files nor tables nor obsolete files. -/
structure Alike (lsmt after : Lsmt) : Prop where
  files : after.files = lsmt.files
  tables : after.tables = lsmt.tables
  obsolete : after.obsoleteFiles = lsmt.obsoleteFiles

/-- User key and sequence number name one entry, and nothing is deleted. -/
structure Plain (lsmt : Lsmt) : Prop where
  named : lsmt.Named
  values : ∀ entry, lsmt.Stored entry → entry.IsValue

namespace Rewrites

variable {lsmt after before final : Lsmt}

/-- Files may change their level. -/
theorem of_moved
    (moved : ∀ file, (∃ level, file ∈ after.files level) ↔ ∃ level, file ∈ lsmt.files level)
    (tables : after.tables = lsmt.tables)
    (obsolete : after.obsoleteFiles = lsmt.obsoleteFiles) : Rewrites lsmt after := by
  have stored : ∀ entry, after.Stored entry ↔ lsmt.Stored entry := by
    intro entry
    constructor
    · rintro ⟨level, file, member, inside⟩
      obtain ⟨place, old⟩ := (moved file).mp ⟨level, member⟩
      exact ⟨place, file, old, tables ▸ inside⟩
    · rintro ⟨level, file, member, inside⟩
      obtain ⟨place, new⟩ := (moved file).mpr ⟨level, member⟩
      exact ⟨place, file, new, tables.symm ▸ inside⟩
  have absent : ∀ number, after.Absent number ↔ lsmt.Absent number := by
    intro number
    constructor
    · intro gone level file member
      obtain ⟨place, new⟩ := (moved file).mpr ⟨level, member⟩
      exact gone place file new
    · intro gone level file member
      obtain ⟨place, old⟩ := (moved file).mp ⟨level, member⟩
      exact gone place file old
  refine ⟨?_, fun entry => (stored entry).mp, ?_, ?_⟩
  · intro key found
    have same : after.storedVersions key = lsmt.storedVersions key := by
      ext entry
      exact and_congr_left (fun _ => stored entry)
    rw [same]
  · intro level file member gone
    exact absurd rfl ((absent file.number).mpr gone level file member)
  · intro number
    rw [obsolete, absent, or_iff_left]
    rintro ⟨there, gone⟩
    exact there gone

theorem of_alike (alike : Alike lsmt after) : Rewrites lsmt after :=
  of_moved (fun file => by rw [alike.files]) alike.tables alike.obsolete

/-- Only files, tables and obsolete files matter. -/
theorem congr (rewrites : Rewrites before final) (start : Alike lsmt before)
    (finish : Alike final after) : Rewrites lsmt after := by
  have sameStored : ∀ left right : Lsmt, Alike left right → right.Stored = left.Stored := by
    intro left right alike
    funext entry
    rw [Stored, Stored, alike.files, alike.tables]
  have sameVersions : ∀ left right : Lsmt, Alike left right →
      right.storedVersions = left.storedVersions := by
    intro left right alike
    funext key
    rw [storedVersions, storedVersions, sameStored left right alike]
  have sameAbsent : ∀ left right : Lsmt, Alike left right → right.Absent = left.Absent := by
    intro left right alike
    funext number
    rw [Absent, Absent, alike.files]
  refine ⟨?_, ?_, ?_, ?_⟩
  · intro key found
    rw [sameVersions _ _ finish, ← sameVersions _ _ start]
    exact rewrites.newest key found
  · intro entry
    rw [sameStored _ _ finish, ← sameStored _ _ start]
    exact rewrites.stored entry
  · intro level file member gone entry inside
    rw [finish.files] at member
    rw [finish.tables] at inside
    rw [← sameAbsent _ _ start] at gone
    obtain ⟨place, input, isInput, left, old⟩ :=
      rewrites.outputs level file member gone entry inside
    refine ⟨place, input, start.files ▸ isInput, ?_, start.tables ▸ old⟩
    rw [sameAbsent _ _ finish]
    exact left
  · intro number
    rw [finish.obsolete, sameAbsent _ _ finish, ← sameAbsent _ _ start, ← start.obsolete]
    exact rewrites.obsolete number

theorem plain (rewrites : Rewrites lsmt after) (plain : Plain lsmt) : Plain after where
  named left right isLeft isRight :=
    plain.named left right (rewrites.stored left isLeft) (rewrites.stored right isRight)
  values entry isStored := plain.values entry (rewrites.stored entry isStored)

end Rewrites

section Operations

variable {lsmt : Lsmt} (inv : Leveled lsmt) (plain : Plain lsmt)

include inv

/-- A trivial move only changes the level of a file. -/
theorem mem_trivialMove_iff {compaction : Compaction} {file : FileMetaData}
    (fits : Fits lsmt.files compaction (compaction.level + 1))
    (single : compaction.inputs = [file]) (other : FileMetaData) :
    (∃ level, other ∈ (lsmt.trivialMove compaction).files level) ↔
      ∃ level, other ∈ lsmt.files level := by
  have taken : compaction.inputs.take 1 = [file] := by
    rw [single]
    rfl
  have isInput : file ∈ lsmt.files compaction.level := by
    refine fits.inputs ?_
    rw [single]
    exact List.mem_singleton_self _
  have own : ∀ level, (lsmt.trivialMove compaction).files level =
      if level = compaction.level then (lsmt.files level).filter (fun other =>
        !([file].map FileMetaData.number).contains other.number)
      else if level = compaction.level + 1 then placeFiles [] [file] (lsmt.files level)
      else lsmt.files level := by
    intro level
    rw [Lsmt.trivialMove, taken, applyFileChanges_nil]
    by_cases same : level = compaction.level
    · subst same
      rw [if_pos rfl, Function.update_self]
      simp only [Lsmt.applyFileChanges, Function.update_of_ne (Nat.succ_ne_self _).symm]
    · rw [if_neg same, Function.update_of_ne same]
      by_cases next : level = compaction.level + 1
      · subst next
        rw [if_pos rfl]
        simp only [Lsmt.applyFileChanges, Function.update_self]
        rfl
      · rw [if_neg next]
        simp only [Lsmt.applyFileChanges, Function.update_of_ne next]
  constructor
  · rintro ⟨level, member⟩
    rw [own] at member
    split at member
    · exact ⟨level, List.filter_sublist.subset member⟩
    · split at member
      · rcases (mem_placeFiles.mp member).1 with isMoved | old
        · rw [List.mem_singleton.mp isMoved]
          exact ⟨_, isInput⟩
        · exact ⟨level, old⟩
      · exact ⟨level, member⟩
  · rintro ⟨level, member⟩
    by_cases isMoved : other = file
    · refine ⟨compaction.level + 1, ?_⟩
      rw [own, if_neg (Nat.succ_ne_self _), if_pos rfl, mem_placeFiles]
      exact ⟨.inl (List.mem_singleton.mpr isMoved), by simp⟩
    · refine ⟨level, ?_⟩
      rw [own]
      split
      · refine List.mem_filter.mpr ⟨member, ?_⟩
        simp only [List.map_cons, List.map_nil, List.contains_eq_mem, List.mem_singleton,
          Bool.not_eq_true', decide_eq_false_iff_not]
        intro same
        exact isMoved (inv.once _ _ other file member isInput same).2
      · split
        · exact mem_placeFiles.mpr ⟨.inr member, by simp⟩
        · exact member

theorem rewrites_trivialMove {compaction : Compaction} {file : FileMetaData}
    (fits : Fits lsmt.files compaction (compaction.level + 1))
    (single : compaction.inputs = [file]) :
    Rewrites lsmt (lsmt.trivialMove compaction) :=
  Rewrites.of_moved (mem_trivialMove_iff inv fits single) rfl rfl

include plain

theorem rewrites_compact {compaction : Compaction} {target : Nat}
    (fits : Fits lsmt.files compaction target) (config : LsmtConfig) (guards : List Slice) :
    Rewrites lsmt (lsmt.compact config guards compaction target) := by
  refine ⟨newest_compact inv fits config guards plain.named plain.values, ?_, ?_, ?_⟩
  · intro entry isStored
    have member : entry ∈ (lsmt.compact config guards compaction target).storedVersions
        entry.userKey := ⟨isStored, rfl⟩
    rw [storedVersions_compact inv fits, versions_outputs inv fits config guards plain.named
      plain.values] at member
    have whole : entry ∈ lsmt.storedVersions entry.userKey := by
      rw [storedVersions_eq inv fits]
      exact member.imp_right (fun isNewest => isNewest.member)
    exact whole.1
  · intro level file member gone entry inside
    rcases (mem_compact_iff inv fits config guards).mp member with stays | ⟨-, isAdded⟩
    · exact absurd rfl (gone level file (List.filter_sublist.subset stays))
    · obtain ⟨output, isOutput, -, isTable⟩ :=
        addedFiles_described inv fits config guards isAdded
      rw [compact_tables, isTable] at inside
      obtain ⟨input, isRead, old⟩ :=
        exists_read_of_mem_output inv fits config guards isOutput inside
      obtain ⟨place, isInput⟩ := mem_level_of_read fits isRead
      exact ⟨place, input, isInput, ((leaves_compact_iff inv fits config guards
        input.number).mpr (List.mem_map_of_mem isRead)).2, old⟩
  · intro number
    rw [compact_obsoleteFiles, leaves_compact_iff inv fits, Compaction.reads, List.map_append,
      List.mem_append, List.mem_append, List.mem_append, or_assoc]

/-! ## The operations -/

theorem rewrites_of_compact {compaction : Compaction} {target : Nat}
    (fits : Fits lsmt.files compaction target) {config : LsmtConfig} {guards : List Slice}
    {after : Lsmt} (done : Checked.compact config guards compaction target lsmt = .ok after) :
    Rewrites lsmt after := by
  rw [Checked.compact_eq inv fits] at done
  cases done
  exact rewrites_compact inv plain fits config guards

omit plain in
theorem rewrites_of_trivialMove {compaction : Compaction} {config : LsmtConfig}
    (fits : Fits lsmt.files compaction (compaction.level + 1))
    (trivial : isTrivialMove config compaction = true) {after : Lsmt}
    (done : Checked.trivialMove compaction lsmt = .ok after) :
    Rewrites lsmt after ∧ after.obsoleteFiles = lsmt.obsoleteFiles := by
  obtain ⟨file, single, alone⟩ := Checked.single_of_isTrivialMove trivial
  rw [Checked.trivialMove_eq inv fits single alone] at done
  cases done
  exact ⟨rewrites_trivialMove inv fits single, rfl⟩

theorem rewrites_of_compactTo {compaction : Compaction} {config : BufferConfig}
    {guards : List Slice} (fits : Fits lsmt.files compaction (compaction.level + 1))
    {after : Lsmt} (done : Checked.compactTo config guards compaction lsmt = .ok after) :
    Rewrites lsmt after := by
  rw [Checked.compactTo] at done
  split at done
  · rename_i trivial
    rw [Checked.isTrivialMoveWithin, Bool.and_eq_true] at trivial
    exact (rewrites_of_trivialMove inv fits trivial.2 done).1
  · exact rewrites_of_compact inv plain fits done

omit inv plain in
/-- `CompactLevel` is a sequence of compactions. -/
theorem rewrites_of_compactLevels {config : BufferConfig} {guards : List Slice}
    {below level : Nat} {lsmt after : Lsmt} {state : OpState} (inv : Leveled lsmt)
    (plain : Plain lsmt)
    (done : Checked.compactLevels config guards below level lsmt = .ok (state, after)) :
    Relation.ReflTransGen Rewrites lsmt after := by
  have both : (Leveled after ∧ Plain after) ∧ Relation.ReflTransGen Rewrites lsmt after := by
    refine Checked.related_of_compactLevels (fun lsmt => Leveled lsmt ∧ Plain lsmt)
      (fun _ good => good.1) (fun _ => .refl) (fun _ _ _ first last => first.trans last)
      ?_ ?_ ⟨inv, plain⟩ done
    · rintro lsmt pointers ⟨inv, plain⟩
      have same : Rewrites lsmt { lsmt with compactPointer := pointers } :=
        .of_alike ⟨rfl, rfl, rfl⟩
      exact ⟨⟨inv.of_same rfl rfl rfl, same.plain plain⟩, .single same⟩
    · rintro lsmt compaction middle ⟨inv, plain⟩ fits ran
      have rewrites := rewrites_of_compactTo inv plain fits ran
      have safe := Checked.safe_compactTo inv fits config guards
      rw [ran] at safe
      exact ⟨⟨safe, rewrites.plain plain⟩, .single rewrites⟩
  exact both.2

omit inv plain in
/-- `SetCompactionInputs` marks no file obsolete. -/
theorem setCompactionInputs_obsolete {config : LsmtConfig} {lsmt after : Lsmt} {level : Nat}
    {outcome : Nat ⊕ Compaction}
    (set : lsmt.setCompactionInputs config level = .ok (outcome, after)) :
    after.obsoleteFiles = lsmt.obsoleteFiles := by
  rw [setCompactionInputs] at set
  split at set
  · split at set
    · cases set
    · split at set
      · cases set
      · cases set
        rfl
  · split at set
    · cases set
      rfl
    · simp only at set
      split at set
      · cases set
        rfl
      · split at set
        · cases set
        · cases set
          rfl

theorem rewrites_of_doCompact {config : LsmtConfig} {isLeaf : Bool} {guards : List Slice}
    {state : OpState} {after : Lsmt}
    (done : Checked.doCompact config isLeaf guards lsmt = .ok (state, after)) :
    Rewrites lsmt after := by
  rw [Checked.doCompact] at done
  split at done
  · cases done
  · split at done
    · cases done
      exact .of_alike ⟨rfl, rfl, rfl⟩
    · split at done
      · cases done
      · rename_i left middle set
        have same := (setCompactionInputs_cases set).1
        have obsolete := setCompactionInputs_obsolete set
        cases done
        exact .of_alike ⟨same.files, same.tables, obsolete⟩
      · rename_i compaction middle set
        have same := (setCompactionInputs_cases set).1
        have obsolete := setCompactionInputs_obsolete set
        have fits := Checked.fits_of_setCompactionInputs inv set
        have alike : Alike lsmt { middle with compactLevel := some compaction.level } :=
          ⟨same.files, same.tables, obsolete⟩
        have kept : Leveled { middle with compactLevel := some compaction.level } :=
          inv.of_same same.files same.tables same.fileId
        have keptPlain := (Rewrites.of_alike alike).plain plain
        rw [← same.files] at fits
        simp only at done
        split at done
        · cases done
          exact .of_alike alike
        · split at done
          · cases done
          · rename_i final isDone
            cases done
            have step : Rewrites { middle with compactLevel := some compaction.level }
                final := by
              split at isDone
              · rename_i trivial
                exact (rewrites_of_trivialMove kept fits trivial isDone).1
              · exact rewrites_of_compact kept keptPlain fits isDone
            exact step.congr alike ⟨rfl, rfl, rfl⟩

theorem rewrites_of_compactBottomLevel {config : LsmtConfig} {page : Option (List Slice)}
    {after : Lsmt} (done : Checked.compactBottomLevel config page lsmt = .ok after) :
    Rewrites lsmt after := by
  rw [Checked.compactBottomLevel] at done
  split at done
  · cases done
    exact .of_alike ⟨rfl, rfl, rfl⟩
  · split at done
    · cases done
      exact .of_alike ⟨rfl, rfl, rfl⟩
    · exact rewrites_of_compact inv plain (Checked.fits_whole _) done

end Operations

theorem newest_of_rewrites {lsmt after : Lsmt}
    (chain : Relation.ReflTransGen Rewrites lsmt after) (key : Slice) (found : Entry) :
    Lib.Newest Entry.sequence (after.storedVersions key) found ↔
      Lib.Newest Entry.sequence (lsmt.storedVersions key) found := by
  induction chain with
  | refl => exact Iff.rfl
  | tail _ last ih => exact (last.newest key found).trans ih

/-- Compactions keep the content of an LSMT whose levels are in order: single
compactions within a level or to the next one, trivial moves, and `CompactLevel`
as a sequence of such. -/
theorem compactions_keep_newest (config : BufferConfig) {lsmt : Lsmt} (inv : Leveled lsmt)
    (plain : Plain lsmt) :
    (∀ guards level state after,
      Checked.compactLevel config guards level lsmt = .ok (state, after) →
        Relation.ReflTransGen Rewrites lsmt after ∧
          ∀ key found, Lib.Newest Entry.sequence (after.storedVersions key) found ↔
            Lib.Newest Entry.sequence (lsmt.storedVersions key) found) ∧
    (∀ isLeaf guards state after,
      Checked.doCompact config.toLsmtConfig isLeaf guards lsmt = .ok (state, after) →
        Rewrites lsmt after) ∧
    (∀ level, ∀ file ∈ lsmt.files level, ∀ compaction after,
      compaction = (setupOtherInputs config.toLsmtConfig lsmt level
        (lsmt.overlapTop level file)).1 →
      isTrivialMove config.toLsmtConfig compaction = true →
      Checked.trivialMove compaction lsmt = .ok after →
        Rewrites lsmt after ∧ after.obsoleteFiles = lsmt.obsoleteFiles) ∧
    (∀ page after,
      Checked.compactBottomLevel config.toLsmtConfig page lsmt = .ok after →
        Rewrites lsmt after) ∧
    ∀ guards low up level files after,
      Checked.getFilesInRange lsmt.files low up = some (level, files) →
      Checked.compactFilesInRange config.toLsmtConfig guards level files lsmt = .ok after →
        Rewrites lsmt after := by
  refine ⟨?_, ?_, ?_, ?_, ?_⟩
  · intro guards level state after done
    have chain := rewrites_of_compactLevels inv plain done
    exact ⟨chain, newest_of_rewrites chain⟩
  · intro isLeaf guards state after done
    exact rewrites_of_doCompact inv plain done
  · rintro level file member compaction after rfl trivial done
    exact rewrites_of_trivialMove inv
      (Checked.fits_setupOtherInputs inv config.toLsmtConfig member) trivial done
  · intro page after done
    exact rewrites_of_compactBottomLevel inv plain done
  · intro guards low up level files after found done
    exact rewrites_of_compact inv plain (Checked.fits_filesInRange inv found) done

/-- The four files of one entry are in level 0. -/
def fourFiles : Lsmt := Checked.pushFiles Checked.topFiles Checked.builtTables

theorem leveled_fourFiles : Leveled fourFiles := by
  have built : Leveled Checked.builtTables :=
    ⟨Leveled.empty.apart, Leveled.empty.once, Leveled.empty.nodup,
      fun _ _ member => absurd member List.not_mem_nil,
      fun _ _ member => absurd member List.not_mem_nil⟩
  exact Checked.leveled_pushFiles built (fun _ member => Checked.fresh_topFiles member)
    (by decide)

theorem stored_fourFiles {entry : Entry} (isStored : fourFiles.Stored entry) :
    entry ∈ [Checked.onlyEntry 1 97, Checked.onlyEntry 2 98, Checked.onlyEntry 3 97,
      Checked.onlyEntry 4 99] := by
  obtain ⟨level, file, member, inside⟩ := isStored
  cases level with
  | zero =>
      have isTop : file ∈ Checked.topFiles := member
      simp only [Checked.topFiles, List.mem_cons, List.not_mem_nil, or_false] at isTop
      rcases isTop with rfl | rfl | rfl | rfl
      all_goals
        rw [List.mem_singleton.mp inside]
        simp
  | succ level => exact absurd member List.not_mem_nil

theorem plain_fourFiles : Plain fourFiles := by
  refine ⟨?_, ?_⟩
  · intro left right isLeft isRight
    have decided : ∀ left ∈ [Checked.onlyEntry 1 97, Checked.onlyEntry 2 98,
        Checked.onlyEntry 3 97, Checked.onlyEntry 4 99],
        ∀ right ∈ [Checked.onlyEntry 1 97, Checked.onlyEntry 2 98, Checked.onlyEntry 3 97,
          Checked.onlyEntry 4 99],
        left.userKey = right.userKey → left.sequence = right.sequence → left = right := by
      decide
    exact decided left (stored_fourFiles isLeft) right (stored_fourFiles isRight)
  · intro entry isStored
    have isOne := stored_fourFiles isStored
    simp only [List.mem_cons, List.not_mem_nil, or_false] at isOne
    rcases isOne with rfl | rfl | rfl | rfl <;> rfl

/-- Of the four files the two for one user key are compacted. -/
theorem fourFiles_keep_newest :
    ∃ state after, Checked.compactLevel Checked.smallBuffer [] 0 fourFiles =
        .ok (state, after) ∧ after.obsoleteFiles = [1, 3] ∧
      Relation.ReflTransGen Rewrites fourFiles after ∧
      ∀ key found, Lib.Newest Entry.sequence (after.storedVersions key) found ↔
        Lib.Newest Entry.sequence (fourFiles.storedVersions key) found := by
  have ran : (Checked.compactLevel Checked.smallBuffer [] 0 fourFiles).toOption.map
      (fun result => result.2.obsoleteFiles) = some [1, 3] := by
    decide +kernel
  cases done : Checked.compactLevel Checked.smallBuffer [] 0 fourFiles with
  | error halt =>
      rw [done] at ran
      cases ran
  | ok result =>
      rw [done] at ran
      exact ⟨result.1, result.2, rfl, Option.some.inj ran,
        (compactions_keep_newest Checked.smallBuffer leveled_fourFiles plain_fourFiles).1
          [] 0 result.1 result.2 done⟩

end AhaTree
